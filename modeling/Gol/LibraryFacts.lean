import Gol.LibraryProgram

/-! Facts that last: what a program has learned of a shared state that only grows stays true while others act. `Does`
says that a program that starts where a fact holds meets its obligations at every call, and returns where another
holds. -/

namespace Gol.Library

/-- What is true of a state and of every later one. -/
structure Fact {σ : Type} (Later : σ → σ → Prop) where
  holds : σ → Prop
  later : ∀ {s t}, Later s t → holds s → holds t

namespace Fact

variable {σ ι : Type} {Later : σ → σ → Prop}

def and (K L : Fact Later) : Fact Later := ⟨fun s => K.holds s ∧ L.holds s, fun h => .imp (K.later h) (L.later h)⟩

/-- Nothing is known. -/
def none : Fact Later := ⟨fun _ => True, fun _ => id⟩

/-- What does not depend on the state. -/
def pure (p : Prop) : Fact Later := ⟨fun _ => p, fun _ => id⟩

def imp (p : Prop) (K : Fact Later) : Fact Later := ⟨fun s => p → K.holds s, fun h hK hp => K.later h (hK hp)⟩

end Fact

variable {S : Sig} {α β : Type}

/-- What others do while a program waits, and each step, leads to a later state. -/
class World.GrowsBy (W : World S) (Later : W.State → W.State → Prop) : Prop where
  refl : ∀ s, Later s s
  trans : ∀ {s t u}, Later s t → Later t u → Later s u
  others : ∀ {c s t}, W.Others c s t → Later s t
  step : ∀ {s c answer t}, W.Step s c answer t → Later s t

/-- From where `K` holds, `p` meets what it owes at each of its calls and returns where `Q` holds of its value. -/
def World.Does (W : World S) {Later : W.State → W.State → Prop} (K : Fact Later) (p : Prog S α) (Q : α → Fact Later) :
    Prop :=
  ∀ s, W.Inv s → K.holds s → W.Safe (fun t value => (Q value).holds t) p s

namespace World

variable {W : World S} {Later : W.State → W.State → Prop} {K L : Fact Later} {Q R : α → Fact Later}

theorem does_ret {value : α} (h : ∀ s, W.Inv s → K.holds s → (Q value).holds s) : W.Does K (.ret value) Q := h

/-- Knowing more is enough, where the invariant holds. -/
theorem Does.pre {p : Prog S α} (h : W.Does L p Q) (hK : ∀ s, W.Inv s → K.holds s → L.holds s) : W.Does K p Q :=
  fun s hinv hs => h s hinv (hK s hinv hs)

theorem Does.post {p : Prog S α} (h : W.Does K p R) (hQ : ∀ value s, W.Inv s → (R value).holds s → (Q value).holds s) :
    W.Does K p Q :=
  fun s hinv hs => ((h s hinv hs).inv hinv).mono fun t value hR => hQ value t hR.2 hR.1

/-- A call, with what its step shows. -/
theorem does_call_step [hgrows : W.GrowsBy Later] {c : S.Call} {next : S.Answer c → Prog S α}
    (howes : ∀ s, W.Inv s → K.holds s → W.Owes s c) (L : S.Answer c → Fact Later)
    (hstep : ∀ answer s t, W.Inv s → K.holds s → W.Step s c answer t → W.Inv t → (L answer).holds t)
    (hnext : ∀ answer, W.Does (L answer) (next answer) Q) : W.Does K (.call c next) Q := by
  intro s _ hs t ht hinv
  have hK := K.later (hgrows.others ht) hs
  refine ⟨howes t hinv hK, fun answer u hu hinv' => hnext answer u hinv' ?_⟩
  exact hstep answer t u hinv hK hu hinv'

/-- A call of which nothing is learned. -/
theorem does_call [hgrows : W.GrowsBy Later] {c : S.Call} {next : S.Answer c → Prog S α}
    (howes : ∀ s, W.Inv s → K.holds s → W.Owes s c) (hnext : ∀ answer, W.Does K (next answer) Q) :
    W.Does K (.call c next) Q :=
  does_call_step howes (fun _ => K) (fun _ _ _ _ hs hstep _ => K.later (hgrows.step hstep) hs) hnext

/-- What a program knows when it starts it still knows when it returns. -/
theorem Safe.later [hgrows : W.GrowsBy Later] {post : W.State → α → Prop} {p : Prog S α} {s t : W.State}
    (hst : Later s t) (h : W.Safe post p t) : W.Safe (fun u value => post u value ∧ Later s u) p t := by
  induction p generalizing t with
  | ret value => exact ⟨h, hst⟩
  | call c next ih =>
      intro u hu hinv
      obtain ⟨howes, hnext⟩ := h u hu hinv
      refine ⟨howes, fun answer v hstep hinv' => ih answer ?_ (hnext answer v hstep hinv')⟩
      exact hgrows.trans hst (hgrows.trans (hgrows.others hu) (hgrows.step hstep))

theorem Does.frame [hgrows : W.GrowsBy Later] {p : Prog S α} (h : W.Does K p Q) :
    W.Does K p fun value => K.and (Q value) :=
  fun s hinv hs => ((h s hinv hs).later (hgrows.refl s)).mono fun _ _ hpost => ⟨K.later hpost.2 hs, hpost.1⟩

theorem Does.bind [hgrows : W.GrowsBy Later] {p : Prog S α} {f : α → Prog S β} {Q : β → Fact Later}
    (h : W.Does K p R) (hf : ∀ value, W.Does (K.and (R value)) (f value) Q) : W.Does K (p.bind f) Q :=
  fun s hinv hs => Safe.bind (((h.frame s hinv hs).inv hinv).mono fun t value hpost => hf value t hpost.2 hpost.1)

/-- A program whose calls all meet `P` needs to know nothing where such calls are owed. -/
theorem does_only {P : S.Call → Prop} (howes : ∀ s c, W.Inv s → P c → W.Owes s c) {p : Prog S α} (h : p.Only P) :
    W.Does K p fun _ => .none := by
  intro s hinv _
  refine safe_of_only (J := fun _ => True) (fun _ _ _ _ _ _ => trivial) (fun t c _ hinv hc => ⟨howes t c hinv hc, ?_⟩) h
    trivial
  exact fun _ _ _ _ => trivial

end World

end Gol.Library
