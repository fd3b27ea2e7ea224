import Mathlib.Logic.Basic

/-! Programs that call out: a program is a tree of calls and what it does with each answer. `Safe` says that a
program keeps its obligations at every call, whatever the answers are and whatever others do to the shared
state between two calls; `Run` is one execution of it. A pool of safe programs is safe under any interleaving. -/

namespace Gol.Library

/-- The calls a program can make, and the answers each can get. -/
structure Sig where
  Call : Type
  Answer : Call → Type

inductive Prog (S : Sig) (α : Type) : Type
  | ret (value : α)
  | call (c : S.Call) (next : S.Answer c → Prog S α)

namespace Prog

variable {S : Sig} {α β γ : Type}

def bind : Prog S α → (α → Prog S β) → Prog S β
  | ret value, f => f value
  | call c next, f => call c fun answer => (next answer).bind f

instance : Monad (Prog S) where
  pure := ret
  bind := bind

/-- One call, returning its answer. -/
def ask (c : S.Call) : Prog S (S.Answer c) := call c ret

@[simp] theorem pure_eq (value : α) : (pure value : Prog S α) = ret value := rfl

@[simp] theorem bind_eq (p : Prog S α) (f : α → Prog S β) : p >>= f = p.bind f := rfl

@[simp] theorem ret_bind (value : α) (f : α → Prog S β) : (ret value).bind f = f value := rfl

@[simp] theorem call_bind (c : S.Call) (next : S.Answer c → Prog S α) (f : α → Prog S β) :
    (call c next).bind f = call c fun answer => (next answer).bind f := rfl

@[simp] theorem ask_bind (c : S.Call) (f : S.Answer c → Prog S β) : (ask c).bind f = call c f := rfl

theorem bind_assoc (p : Prog S α) (f : α → Prog S β) (g : β → Prog S γ) :
    (p.bind f).bind g = p.bind fun value => (f value).bind g := by
  induction p with
  | ret value => rfl
  | call c next ih =>
      simp only [call_bind]
      congr 1
      funext answer
      exact ih answer

/-- The value a program returns when `env` answers its calls. -/
def eval (env : (c : S.Call) → S.Answer c) : Prog S α → α
  | ret value => value
  | call c next => (next (env c)).eval env

@[simp] theorem eval_bind (env : (c : S.Call) → S.Answer c) (p : Prog S α) (f : α → Prog S β) :
    (p.bind f).eval env = (f (p.eval env)).eval env := by
  induction p with
  | ret value => rfl
  | call c next ih => exact ih (env c)

/-- The value a program returns, and the state left, when `env` answers its calls and keeps a state. -/
def exec {τ : Type} (env : τ → (c : S.Call) → S.Answer c × τ) : Prog S α → τ → α × τ
  | ret value, state => (value, state)
  | call c next, state => (next (env state c).1).exec env (env state c).2

end Prog

/-- A program with its calls carried out by programs of another signature, which keep a state. -/
def Prog.handle {S S' : Sig} {α τ : Type} (h : τ → (c : S.Call) → Prog S' (S.Answer c × τ)) :
    Prog S α → τ → Prog S' (α × τ)
  | .ret value, state => .ret (value, state)
  | .call c next, state => (h state c).bind fun answered => (next answered.1).handle h answered.2

/-- The program is about to make the call `c`. -/
def Prog.Waits {S : Sig} {α : Type} (p : Prog S α) (c : S.Call) : Prop := ∃ next, p = .call c next

/-- Every call that `p` makes, whatever it is answered, meets `P`. -/
def Prog.Only {S : Sig} {α : Type} (P : S.Call → Prop) : Prog S α → Prop
  | .ret _ => True
  | .call c next => P c ∧ ∀ answer, (next answer).Only P

theorem Prog.Only.bind {S : Sig} {α β : Type} {P : S.Call → Prop} {p : Prog S α} {f : α → Prog S β}
    (h : p.Only P) (hf : ∀ value, (f value).Only P) : (p.bind f).Only P := by
  induction p with
  | ret value => exact hf value
  | call c next ih => exact ⟨h.1, fun answer => ih answer (h.2 answer)⟩

theorem Prog.Only.mono {S : Sig} {α : Type} {P Q : S.Call → Prop} {p : Prog S α} (h : p.Only P)
    (hPQ : ∀ c, P c → Q c) : p.Only Q := by
  induction p with
  | ret value => trivial
  | call c next ih => exact ⟨hPQ c h.1, fun answer => ih answer (h.2 answer)⟩

theorem Prog.only_all {S : Sig} {α : Type} {P : S.Call → Prop} (h : ∀ c, P c) (p : Prog S α) : p.Only P := by
  induction p with
  | ret value => trivial
  | call c next ih => exact ⟨h c, ih⟩

/-- Some answers lead `p` to make the call `c`. -/
inductive Prog.Makes {S : Sig} {α : Type} (c : S.Call) : Prog S α → Prop
  | now (next : S.Answer c → Prog S α) : Makes c (.call c next)
  | later {other : S.Call} {next : S.Answer other → Prog S α} (answer : S.Answer other) (h : Makes c (next answer)) :
      Makes c (.call other next)

theorem Prog.Only.of_makes {S : Sig} {α : Type} {P : S.Call → Prop} {c : S.Call} {p : Prog S α} (h : p.Only P)
    (hmakes : p.Makes c) : P c := by
  induction hmakes with
  | now next => exact h.1
  | later answer _ ih => exact ih (h.2 answer)

/-! ### Worlds -/

/-- A shared state and what its calls do to it: its invariant, the steps it allows, what a program owes at a
call, and what others may do while a program waits at a call. -/
structure World (S : Sig) where
  State : Type
  Inv : State → Prop
  Step : State → (c : S.Call) → S.Answer c → State → Prop
  Owes : State → S.Call → Prop
  Others : S.Call → State → State → Prop
  others_refl : ∀ c s, Others c s s
  others_trans : ∀ {c s t u}, Others c s t → Others c t u → Others c s u

variable {S : Sig} {α β : Type} (W : World S)

namespace World

/-- From `s` on, `p` meets what it owes at each of its calls and returns with `post`. -/
def Safe (post : W.State → α → Prop) : Prog S α → W.State → Prop
  | .ret value, s => post s value
  | .call c next, s =>
      ∀ t, W.Others c s t → W.Inv t →
        W.Owes t c ∧ ∀ answer u, W.Step t c answer u → W.Inv u → Safe post (next answer) u

/-- One execution of `p` alone, from `s` to `t`. -/
inductive Run : Prog S α → W.State → α → W.State → Prop
  | ret (value : α) (s : W.State) : Run (.ret value) s value s
  | call {c : S.Call} {next : S.Answer c → Prog S α} {s mid t : W.State} {answer : S.Answer c} {value : α}
      (step : W.Step s c answer mid) (rest : Run (next answer) mid value t) : Run (.call c next) s value t

variable {W} {post : W.State → α → Prop}

theorem Safe.mono {post' : W.State → α → Prop} (hpost : ∀ s value, post s value → post' s value)
    {p : Prog S α} {s : W.State} (h : W.Safe post p s) : W.Safe post' p s := by
  induction p generalizing s with
  | ret value => exact hpost s value h
  | call c next ih =>
      intro t ht hinv
      obtain ⟨howes, hnext⟩ := h t ht hinv
      exact ⟨howes, fun answer u hstep hinv => ih answer (hnext answer u hstep hinv)⟩

/-- A safe program returns in a state that keeps the invariant. -/
theorem Safe.inv {p : Prog S α} {s : W.State} (h : W.Safe post p s) (hinv : W.Inv s) :
    W.Safe (fun t value => post t value ∧ W.Inv t) p s := by
  induction p generalizing s with
  | ret value => exact ⟨h, hinv⟩
  | call c next ih =>
      intro t ht hinv
      obtain ⟨howes, hnext⟩ := h t ht hinv
      exact ⟨howes, fun answer u hstep hinv => ih answer (hnext answer u hstep hinv) hinv⟩

/-- What the world's steps and the others keep is still there when a safe program returns. -/
theorem Safe.frame {J : W.State → Prop} (hothers : ∀ c s t, J s → W.Others c s t → J t)
    (hstep : ∀ s c answer t, J s → W.Step s c answer t → J t) {p : Prog S α} {s : W.State}
    (h : W.Safe post p s) (hJ : J s) :
    W.Safe (fun t value => post t value ∧ J t) p s := by
  induction p generalizing s with
  | ret value => exact ⟨h, hJ⟩
  | call c next ih =>
      intro t ht hinv
      obtain ⟨howes, hnext⟩ := h t ht hinv
      exact ⟨howes, fun answer u hs hinv => ih answer (hnext answer u hs hinv)
        (hstep t c answer u (hothers c s t hJ ht) hs)⟩

theorem Safe.bind {post' : W.State → β → Prop} {p : Prog S α} {f : α → Prog S β} {s : W.State}
    (h : W.Safe (fun t value => W.Safe post' (f value) t) p s) : W.Safe post' (p.bind f) s := by
  induction p generalizing s with
  | ret value => exact h
  | call c next ih =>
      intro t ht hinv
      obtain ⟨howes, hnext⟩ := h t ht hinv
      exact ⟨howes, fun answer u hstep hinv => ih answer (hnext answer u hstep hinv)⟩

theorem Safe.of_bind {post' : W.State → β → Prop} {p : Prog S α} {f : α → Prog S β} {s : W.State}
    (h : W.Safe post' (p.bind f) s) : W.Safe (fun t value => W.Safe post' (f value) t) p s := by
  induction p generalizing s with
  | ret value => exact h
  | call c next ih =>
      intro t ht hinv
      obtain ⟨howes, hnext⟩ := h t ht hinv
      exact ⟨howes, fun answer u hstep hinv => ih answer (hnext answer u hstep hinv)⟩

/-- A program whose calls all meet `P` is safe where such calls are owed and keep `J`. -/
theorem safe_of_only {P : S.Call → Prop} {J : W.State → Prop}
    (hothers : ∀ c s t, J s → W.Others c s t → W.Inv t → J t)
    (hcall : ∀ s c, J s → W.Inv s → P c → W.Owes s c ∧ ∀ answer u, W.Step s c answer u → W.Inv u → J u)
    {p : Prog S α} {s : W.State} (h : p.Only P) (hJ : J s) : W.Safe (fun t _ => J t) p s := by
  induction p generalizing s with
  | ret value => exact hJ
  | call c next ih =>
      intro t ht hinv
      obtain ⟨howes, hstep⟩ := hcall t c (hothers c s t hJ ht hinv) hinv h.1
      exact ⟨howes, fun answer u hs hinv => ih answer (h.2 answer) (hstep answer u hs hinv)⟩

/-- A safe program that runs while nothing else happens returns with its postcondition. -/
theorem Safe.run (hkeep : ∀ s c answer u, W.Step s c answer u → W.Inv u) {p : Prog S α} {s t : W.State}
    {value : α} (hinv : W.Inv s) (h : W.Safe post p s) (hrun : W.Run p s value t) : post t value := by
  induction hrun with
  | ret value s => exact h
  | call hstep _ ih =>
      exact ih (hkeep _ _ _ _ hstep) ((h _ (W.others_refl _ _) hinv).2 _ _ hstep (hkeep _ _ _ _ hstep))

/-- Answers that follow the world's steps, while they keep `P`, give an execution. -/
theorem run_exec (W : World S) (env : W.State → (c : S.Call) → S.Answer c × W.State) (P : W.State → Prop)
    (h : ∀ s c, P s → W.Step s c (env s c).1 (env s c).2 ∧ P (env s c).2) (p : Prog S α) {s : W.State} (hs : P s) :
    W.Run p s (p.exec env s).1 (p.exec env s).2 := by
  induction p generalizing s with
  | ret value => exact .ret value s
  | call c next ih => exact .call (h s c hs).1 (ih _ (h s c hs).2)

/-- The world of a program that runs alone: nothing happens between its calls. -/
def alone (State : Type) (Step : State → (c : S.Call) → S.Answer c → State → Prop)
    (Owes : State → S.Call → Prop) : World S where
  State := State
  Inv _ := True
  Step := Step
  Owes := Owes
  Others _ := Eq
  others_refl _ _ := rfl
  others_trans := Eq.trans

section Alone

variable {State : Type} {Step : State → (c : S.Call) → S.Answer c → State → Prop}
  {Owes : State → S.Call → Prop} {post : State → α → Prop}

theorem safe_alone_ret {value : α} {s : State} :
    (alone State Step Owes).Safe post (.ret value) s ↔ post s value := Iff.rfl

theorem safe_alone_call {c : S.Call} {next : S.Answer c → Prog S α} {s : State} :
    (alone State Step Owes).Safe post (.call c next) s ↔
      Owes s c ∧ ∀ answer u, Step s c answer u → (alone State Step Owes).Safe post (next answer) u :=
  ⟨fun h => ⟨(h s rfl trivial).1, fun answer u hstep => (h s rfl trivial).2 answer u hstep trivial⟩,
    fun h _ ht _ => ht ▸ ⟨h.1, fun answer u hstep _ => h.2 answer u hstep⟩⟩

/-- A program owes less where less is owed. -/
theorem safe_alone_owes {Owes' : State → S.Call → Prop} (howes : ∀ s c, Owes s c → Owes' s c) {p : Prog S α} {s : State}
    (h : (alone State Step Owes).Safe post p s) : (alone State Step Owes').Safe post p s := by
  induction p generalizing s with
  | ret value => exact h
  | call c next ih =>
      obtain ⟨hc, hnext⟩ := safe_alone_call.mp h
      exact safe_alone_call.mpr ⟨howes s c hc, fun answer u hstep => ih answer (hnext answer u hstep)⟩

/-- A safe program whose every answer has a step makes only calls it owes. -/
theorem only_of_safe {P : S.Call → Prop} (htotal : ∀ s c answer, ∃ u, Step s c answer u) (howes : ∀ s c, Owes s c → P c)
    {p : Prog S α} {s : State} (h : (alone State Step Owes).Safe post p s) : p.Only P := by
  induction p generalizing s with
  | ret value => trivial
  | call c next ih =>
      obtain ⟨hc, hnext⟩ := safe_alone_call.mp h
      refine ⟨howes s c hc, fun answer => ?_⟩
      obtain ⟨u, hstep⟩ := htotal s c answer
      exact ih answer (hnext answer u hstep)

/-- A program that is safe with the answers of `env` returns with its postcondition. -/
theorem Safe.eval {env : (c : S.Call) → S.Answer c} {post : α → Prop} {p : Prog S α}
    (h : (alone Unit (fun _ c answer _ => answer = env c) (fun _ _ => True)).Safe (fun _ => post) p ()) :
    post (p.eval env) := by
  induction p with
  | ret value => exact safe_alone_ret.mp h
  | call c next ih => exact ih (env c) ((safe_alone_call.mp h).2 (env c) () rfl)

/-- A program that is safe alone stays safe when programs of another world carry out its calls: `R` ties what it
would see alone to the state they keep and to that world. -/
theorem Safe.handle {S' : Sig} {W' : World S'} {τ : Type} {h : τ → (c : S.Call) → Prog S' (S.Answer c × τ)}
    (R : State → τ → W'.State → Prop)
    (hcall : ∀ seen kept s c, R seen kept s → W'.Inv s → Owes seen c →
      W'.Safe (fun t result => ∃ later, Step seen c result.1 later ∧ R later result.2 t) (h kept c) s)
    {p : Prog S α} {seen : State} {kept : τ} {s : W'.State} (hp : (alone State Step Owes).Safe post p seen)
    (hR : R seen kept s) (hinv : W'.Inv s) :
    W'.Safe (fun t result => ∃ later, post later result.1 ∧ R later result.2 t) (p.handle h kept) s := by
  induction p generalizing seen kept s with
  | ret value => exact ⟨seen, hp, hR⟩
  | call c next ih =>
      obtain ⟨howes, hnext⟩ := safe_alone_call.mp hp
      apply Safe.bind
      apply ((hcall seen kept s c hR hinv howes).inv hinv).mono
      rintro t ⟨answer, kept'⟩ ⟨⟨later, hstep, hR'⟩, hinv'⟩
      exact ih answer (hnext answer later hstep) hR' hinv'

end Alone

/-! ### Pools -/

theorem Safe.owes {p : Prog S α} {s : W.State} {c : S.Call} (h : W.Safe post p s) (hwaits : p.Waits c)
    (hinv : W.Inv s) : W.Owes s c := by
  obtain ⟨next, rfl⟩ := hwaits
  exact (h s (W.others_refl c s) hinv).1

/-- What others may do while a program waits leaves it safe. -/
theorem Safe.others {p : Prog S Unit} {s t : W.State} (h : W.Safe (fun _ _ => True) p s)
    (hothers : ∀ c, p.Waits c → W.Others c s t) : W.Safe (fun _ _ => True) p t := by
  cases p with
  | ret value => trivial
  | call c next => exact fun u hu => h u (W.others_trans (hothers c ⟨next, rfl⟩) hu)

/-- So it is with a postcondition that they keep. -/
theorem Safe.kept {p : Prog S α} {s t : W.State} (h : W.Safe post p s) (hothers : ∀ c, W.Others c s t)
    (hpost : ∀ value, post s value → post t value) : W.Safe post p t := by
  cases p with
  | ret value => exact hpost value h
  | call c next => exact fun u hu => h u (W.others_trans (hothers c) hu)

/-- The programs of a pool are safe from `s` on. -/
def AllSafe (W : World S) (pool : List (Prog S Unit)) (s : W.State) : Prop :=
  ∀ p ∈ pool, W.Safe (fun _ _ => True) p s

theorem AllSafe.others {pool : List (Prog S Unit)} {s t : W.State} (h : W.AllSafe pool s)
    (hothers : ∀ p ∈ pool, ∀ c, p.Waits c → W.Others c s t) : W.AllSafe pool t :=
  fun p hp => (h p hp).others (hothers p hp)

/-- One program of the pool makes its call. -/
theorem AllSafe.step {before after : List (Prog S Unit)} {c : S.Call} {next : S.Answer c → Prog S Unit}
    {s t : W.State} {answer : S.Answer c} (h : W.AllSafe (before ++ .call c next :: after) s) (hinv : W.Inv s)
    (hstep : W.Step s c answer t) (hinv' : W.Inv t)
    (hothers : ∀ p ∈ before ++ after, ∀ c', p.Waits c' → W.Others c' s t) :
    W.AllSafe (before ++ next answer :: after) t := by
  have hsame : ∀ p ∈ before ++ after, W.Safe (fun _ _ => True) p t := by
    intro p hp
    refine (h p ?_).others (hothers p hp)
    rcases List.mem_append.mp hp with hbefore | hafter
    · exact List.mem_append_left _ hbefore
    · exact List.mem_append_right _ (List.mem_cons_of_mem _ hafter)
  intro p hp
  rcases List.mem_append.mp hp with hbefore | hrest
  · exact hsame p (List.mem_append_left _ hbefore)
  · rcases List.mem_cons.mp hrest with rfl | hafter
    · have hcall : W.Safe (fun _ _ => True) (.call c next) s := h _ (by simp)
      exact (hcall s (W.others_refl c s) hinv).2 answer t hstep hinv'
    · exact hsame p (List.mem_append_right _ hafter)

end World

/-- Some answers to its calls lead `p` to return `value`. -/
def Prog.Yields (p : Prog S α) (value : α) : Prop :=
  (World.alone Unit (fun _ _ _ _ => True) (fun _ _ => True)).Run p () value ()

theorem World.Run.of_ret {W : World S} {value other : α} {s t : W.State} (h : W.Run (.ret value) s other t) :
    other = value := by
  cases h
  rfl

theorem World.Run.of_call {W : World S} {c : S.Call} {next : S.Answer c → Prog S α} {value : α} {s t : W.State}
    (h : W.Run (.call c next) s value t) : ∃ answer mid, W.Step s c answer mid ∧ W.Run (next answer) mid value t := by
  cases h with
  | call hstep hrest => exact ⟨_, _, hstep, hrest⟩

theorem Prog.Yields.of_ret {value other : α} (h : (Prog.ret value : Prog S α).Yields other) : other = value :=
  World.Run.of_ret h

theorem Prog.Yields.of_call {c : S.Call} {next : S.Answer c → Prog S α} {value : α}
    (h : (Prog.call c next).Yields value) :
    ∃ answer, (next answer).Yields value := by
  obtain ⟨answer, mid, -, hrest⟩ := World.Run.of_call h
  exact ⟨answer, hrest⟩

theorem Prog.yields_eval (env : (c : S.Call) → S.Answer c) (p : Prog S α) : p.Yields (p.eval env) := by
  induction p with
  | ret value => exact World.Run.ret value _
  | call c next ih => exact World.Run.call trivial (ih (env c))

/-- Where every answer has a step, what a program can return is what some execution returns. -/
theorem Prog.Yields.run {State : Type} {Step : State → (c : S.Call) → S.Answer c → State → Prop}
    {Owes : State → S.Call → Prop} (htotal : ∀ s c answer, ∃ t, Step s c answer t) {p : Prog S α} {value : α}
    (h : p.Yields value) (s : State) : ∃ t, (World.alone State Step Owes).Run p s value t := by
  suffices hany : ∀ u v, (World.alone Unit (fun _ _ _ _ => True) (fun _ _ => True)).Run p u value v →
      ∃ t, (World.alone State Step Owes).Run p s value t from hany () () h
  clear h
  intro u v hrun
  induction hrun generalizing s with
  | ret value _ => exact ⟨s, World.Run.ret (W := World.alone State Step Owes) value s⟩
  | @call c next _ _ _ answer value _ _ ih =>
      obtain ⟨mid, hstep⟩ := htotal s c answer
      obtain ⟨t, hrun⟩ := ih mid
      exact ⟨t, .call hstep hrun⟩

/-- What an execution returns is what the program can return. -/
theorem World.Run.yields {W : World S} {p : Prog S α} {s t : W.State} {value : α} (h : W.Run p s value t) :
    p.Yields value := by
  induction h with
  | ret value _ => exact World.Run.ret value _
  | call _ _ ih => exact World.Run.call trivial ih

/-- A safe program is at calls that it makes, and returns what it can return. -/
theorem World.Safe.traced {State : Type} {Step : State → (c : S.Call) → S.Answer c → State → Prop}
    {Owes : State → S.Call → Prop} {post : State → α → Prop} {p : Prog S α} {s : State}
    (h : (World.alone State Step Owes).Safe post p s) :
    (World.alone State Step fun t c => Owes t c ∧ p.Makes c).Safe
      (fun t value => post t value ∧ p.Yields value) p s := by
  induction p generalizing s with
  | ret value => exact ⟨h, World.Run.ret value _⟩
  | call c next ih =>
      obtain ⟨hc, hnext⟩ := World.safe_alone_call.mp h
      refine World.safe_alone_call.mpr ⟨⟨hc, .now next⟩, fun answer u hstep => ?_⟩
      have hmakes : ∀ t other, Owes t other ∧ (next answer).Makes other → Owes t other ∧
          (Prog.call c next).Makes other :=
        fun t other hmade => ⟨hmade.1, .later answer hmade.2⟩
      refine (World.safe_alone_owes hmakes (ih answer (hnext answer u hstep))).mono ?_
      rintro t value ⟨hpost, hyields⟩
      exact ⟨hpost, World.Run.call trivial hyields⟩

section Recorded

variable {State : Type} {Step : State → (c : S.Call) → S.Answer c → State → Prop} {Owes : State → S.Call → Prop}
  {post : State → α → Prop} (seen : S.Call → State → Prop)

/-- Where every answer has a step, a safe program returns, and with all that its state had seen. -/
theorem World.Safe.yields (hanswer : ∀ c : S.Call, Nonempty (S.Answer c))
    (htotal : ∀ s c answer, ∃ u, Step s c answer u)
    (hkeeps : ∀ s c answer u other, Step s c answer u → seen other s → seen other u) {p : Prog S α} {s : State}
    (h : (World.alone State Step Owes).Safe post p s) :
    ∃ value t, p.Yields value ∧ post t value ∧ ∀ c, seen c s → seen c t := by
  induction p generalizing s with
  | ret value => exact ⟨value, s, World.Run.ret value _, h, fun _ hseen => hseen⟩
  | call c next ih =>
      obtain ⟨answer⟩ := hanswer c
      obtain ⟨u, hstep⟩ := htotal s c answer
      obtain ⟨value, t, hyields, hpost, hlater⟩ := ih answer ((World.safe_alone_call.mp h).2 answer u hstep)
      exact ⟨value, t, World.Run.call trivial hyields, hpost,
        fun other hseen => hlater other (hkeeps s c answer u other hstep hseen)⟩

/-- A call that the state records is seen in what some execution of a safe program returns with. -/
theorem Prog.only_of_recorded (hanswer : ∀ c : S.Call, Nonempty (S.Answer c))
    (htotal : ∀ s c answer, ∃ u, Step s c answer u) (hrecords : ∀ s c answer u, Step s c answer u → seen c u)
    (hkeeps : ∀ s c answer u other, Step s c answer u → seen other s → seen other u) {p : Prog S α} {s : State}
    (h : (World.alone State Step Owes).Safe post p s) :
    p.Only fun c => ∃ value t, p.Yields value ∧ post t value ∧ seen c t := by
  induction p generalizing s with
  | ret value => trivial
  | call c next ih =>
      have hnext := (World.safe_alone_call.mp h).2
      refine ⟨?_, fun answer => ?_⟩
      · obtain ⟨answer⟩ := hanswer c
        obtain ⟨u, hstep⟩ := htotal s c answer
        obtain ⟨value, t, hyields, hpost, hlater⟩ := (hnext answer u hstep).yields seen hanswer htotal hkeeps
        exact ⟨value, t, World.Run.call trivial hyields, hpost, hlater c (hrecords s c answer u hstep)⟩
      · obtain ⟨u, hstep⟩ := htotal s c answer
        apply (ih answer (hnext answer u hstep)).mono
        rintro other ⟨value, t, hyields, hpost, hseen⟩
        exact ⟨value, t, World.Run.call trivial hyields, hpost, hseen⟩

end Recorded

end Gol.Library
