import Mathlib.Logic.Relation
import Gol.LibraryProgram

/-! Programs of several tenants over one shared state. Each tenant's program makes its tenant's own calls only, and is
answered alike in states that show the tenant the same. What the others do to the state comes, for a tenant, to
stirrings that do not depend on them. Then what a tenant's programs return among everybody's is what they can return
where nothing but these stirrings happens beside them. -/

namespace Gol.Library

/-- A shared state and its tenants: what a state shows each of them, which calls are a tenant's own, and what happens
at nobody's call. -/
structure Tenancy (S : Sig) (κ : Type) where
  State : Type
  Inv : State → Prop
  /-- A call of a tenant's program. -/
  Step : κ → State → (c : S.Call) → S.Answer c → State → Prop
  /-- What happens at nobody's call. -/
  Moves : State → State → Prop
  /-- What a tenant may see happen that is not its own doing. -/
  Stirs : κ → State → State → Prop
  /-- The two states show the tenant the same. -/
  Shows : κ → State → State → Prop
  Own : κ → S.Call → Prop
  shows_symm : ∀ {k s t}, Shows k s t → Shows k t s
  shows_trans : ∀ {k s t u}, Shows k s t → Shows k t u → Shows k s u
  step_inv : ∀ {k s c answer t}, Inv s → Own k c → Step k s c answer t → Inv t
  stirs_inv : ∀ {k s t}, Inv s → Stirs k s t → Inv t
  moves_stirs : ∀ {k s t}, Moves s t → Stirs k s t
  /-- A tenant's own call shows each other tenant a stirring at most. -/
  step_stirs : ∀ {k other s c answer t}, Inv s → Own k c → Step k s c answer t → other ≠ k →
    ∃ u, Relation.ReflTransGen (Stirs other) s u ∧ Shows other u t
  /-- What stirs one state can stir each that shows the tenant the same. -/
  stirs_shows : ∀ {k s t s'}, Inv s → Inv t → Shows k s t → Stirs k s s' →
    ∃ t', Relation.ReflTransGen (Stirs k) t t' ∧ Shows k s' t'

namespace Tenancy

variable {S : Sig} {κ α β : Type} (T : Tenancy S κ)

/-- `p` makes the tenant's own calls only, and returns with `post`. -/
def Keeps (k : κ) (post : α → Prop) : Prog S α → Prop
  | .ret value => post value
  | .call c next => T.Own k c ∧ ∀ s answer t, T.Inv s → T.Step k s c answer t → Keeps k post (next answer)

/-- `q` makes the calls that `p` makes, and whatever `p` is answered in a state, `q` can be answered in one that shows
the tenant the same, so that they return the same. -/
def Follows (k : κ) : Prog S α → Prog S α → Prop
  | .ret value, q => q = .ret value
  | .call c next, q => ∃ next', q = .call c next' ∧
      ∀ s t, T.Inv s → T.Inv t → T.Shows k s t → ∀ answer u, T.Step k s c answer u →
        ∃ answer' v, T.Step k t c answer' v ∧ T.Shows k u v ∧ Follows k (next answer) (next' answer')

/-- The program keeps to its tenant, and follows itself. -/
structure Tends (k : κ) (post : α → Prop) (p : Prog S α) : Prop where
  keeps : T.Keeps k post p
  follows : T.Follows k p p

/-- States that show the tenant the same answer the call alike, and show the tenant the same after it. -/
def Even (k : κ) (c : S.Call) : Prop :=
  ∀ s t, T.Inv s → T.Inv t → T.Shows k s t → ∀ answer u, T.Step k s c answer u → ∃ v, T.Step k t c answer v ∧
    T.Shows k u v

variable {T} {k : κ} {post : α → Prop}

theorem Keeps.bind {post' : β → Prop} {p : Prog S α} {f : α → Prog S β} (h : T.Keeps k post p)
    (hf : ∀ value, post value → T.Keeps k post' (f value)) : T.Keeps k post' (p.bind f) := by
  induction p with
  | ret value => exact hf value h
  | call c next ih => exact ⟨h.1, fun s answer t hinv hstep => ih answer (h.2 s answer t hinv hstep)⟩

/-- What one program returns is known where what comes after both is compared. -/
theorem Follows.bind {p q : Prog S α} {f g : α → Prog S β} (h : T.Follows k p q) (hkeeps : T.Keeps k post p)
    (hf : ∀ value, post value → T.Follows k (f value) (g value)) : T.Follows k (p.bind f) (q.bind g) := by
  induction p generalizing q with
  | ret value =>
      obtain rfl : q = .ret value := h
      exact hf value hkeeps
  | call c next ih =>
      obtain ⟨next', rfl, h⟩ := h
      refine ⟨_, rfl, fun s t hs ht hshows answer u hstep => ?_⟩
      obtain ⟨answer', v, hstep', hsame, hnext⟩ := h s t hs ht hshows answer u hstep
      exact ⟨answer', v, hstep', hsame, ih answer hnext (hkeeps.2 s answer u hs hstep)⟩

theorem tends_ret {value : α} (h : post value) : T.Tends k post (.ret value) := ⟨h, rfl⟩

theorem Tends.bind {post' : β → Prop} {p : Prog S α} {f : α → Prog S β} (h : T.Tends k post p)
    (hf : ∀ value, post value → T.Tends k post' (f value)) : T.Tends k post' (p.bind f) where
  keeps := h.keeps.bind fun value hvalue => (hf value hvalue).keeps
  follows := h.follows.bind h.keeps fun value hvalue => (hf value hvalue).follows

theorem tends_even {c : S.Call} {next : S.Answer c → Prog S α} (hown : T.Own k c) (heven : T.Even k c)
    (hnext : ∀ s answer t, T.Inv s → T.Step k s c answer t → T.Tends k post (next answer)) :
    T.Tends k post (.call c next) where
  keeps := ⟨hown, fun s answer t hinv hstep => (hnext s answer t hinv hstep).keeps⟩
  follows := by
    refine ⟨next, rfl, fun s t hs ht hshows answer u hstep => ?_⟩
    obtain ⟨v, hstep', hsame⟩ := heven s t hs ht hshows answer u hstep
    exact ⟨answer, v, hstep', hsame, (hnext s answer u hs hstep).follows⟩

/-- The states may answer a call differently where the program makes nothing of the difference. -/
theorem tends_masked {c : S.Call} {next : S.Answer c → Prog S α} (hown : T.Own k c)
    (hmasked : ∀ s t, T.Inv s → T.Inv t → T.Shows k s t → ∀ answer u, T.Step k s c answer u →
      ∃ answer' v, T.Step k t c answer' v ∧ T.Shows k u v ∧ next answer' = next answer)
    (hnext : ∀ s answer t, T.Inv s → T.Step k s c answer t → T.Tends k post (next answer)) :
    T.Tends k post (.call c next) where
  keeps := ⟨hown, fun s answer t hinv hstep => (hnext s answer t hinv hstep).keeps⟩
  follows := by
    refine ⟨next, rfl, fun s t hs ht hshows answer u hstep => ?_⟩
    obtain ⟨answer', v, hstep', hsame, heq⟩ := hmasked s t hs ht hshows answer u hstep
    exact ⟨answer', v, hstep', hsame, heq ▸ (hnext s answer u hs hstep).follows⟩

/-- A program tends to its tenant where all its calls are its tenant's own, and even. -/
theorem tends_of_only {P : S.Call → Prop} (hcall : ∀ c, P c → T.Own k c ∧ T.Even k c) {p : Prog S α} (h : p.Only P) :
    T.Tends k (fun _ => True) p := by
  induction p with
  | ret value => exact tends_ret trivial
  | call c next ih => exact tends_even (hcall c h.1).1 (hcall c h.1).2 fun _ answer _ _ _ => ih answer (h.2 answer)

end Tenancy

/-- What a program has returned. -/
def Prog.returned {S : Sig} {α : Type} : Prog S α → Option α
  | .ret value => some value
  | .call _ _ => none

/-! ### Tenants together -/

namespace Tenancy

variable {S : Sig} {κ α : Type} {T : Tenancy S κ} {k : κ}

/-- Which programs are started for which tenants, and what a start does to the state. -/
structure Service (T : Tenancy S κ) (α : Type) where
  Starts : T.State → κ → Prog S α → T.State → Prop
  tends : ∀ {s k p t}, T.Inv s → Starts s k p t → T.Tends k (fun _ => True) p
  inv : ∀ {s k p t}, T.Inv s → Starts s k p t → T.Inv t
  /-- Another's start shows the tenant nothing. -/
  frame : ∀ {s k other p t}, Starts s k p t → other ≠ k → T.Shows other s t
  /-- The tenant's own starts in each state that shows it the same, once that was stirred. -/
  shows : ∀ {s t k p s'}, T.Inv s → T.Inv t → T.Shows k s t → Starts s k p s' →
    ∃ mid t', Relation.ReflTransGen (T.Stirs k) t mid ∧ Starts mid k p t' ∧ T.Shows k s' t'

/-- The shared state, and the programs that run, each with its tenant. -/
structure House (T : Tenancy S κ) (α : Type) where
  state : T.State
  programs : List (κ × Prog S α)

/-- A program is started, one makes its next call, one is gone, or the state moves. -/
inductive House.Step (starts : T.State → κ → Prog S α → T.State → Prop) (moves : T.State → T.State → Prop) :
    House T α → House T α → Prop
  | start {s t : T.State} (programs : List (κ × Prog S α)) {k : κ} {p : Prog S α} (h : starts s k p t) :
      Step starts moves ⟨s, programs⟩ ⟨t, (k, p) :: programs⟩
  | call {s t : T.State} (before after : List (κ × Prog S α)) {k : κ} {c : S.Call} (next : S.Answer c → Prog S α)
      {answer : S.Answer c} (h : T.Step k s c answer t) :
      Step starts moves ⟨s, before ++ (k, .call c next) :: after⟩ ⟨t, before ++ (k, next answer) :: after⟩
  | gone (s : T.State) (before after : List (κ × Prog S α)) (program : κ × Prog S α) :
      Step starts moves ⟨s, before ++ program :: after⟩ ⟨s, before ++ after⟩
  | move {s t : T.State} (programs : List (κ × Prog S α)) (h : moves s t) :
      Step starts moves ⟨s, programs⟩ ⟨t, programs⟩

/-- The runs of a house. -/
abbrev House.Leads (starts : T.State → κ → Prog S α → T.State → Prop) (moves : T.State → T.State → Prop) :
    House T α → House T α → Prop :=
  Relation.ReflTransGen (House.Step starts moves)

theorem House.Leads.started {starts : T.State → κ → Prog S α → T.State → Prop} {moves : T.State → T.State → Prop}
    {house : House T α} {s t : T.State} {programs : List (κ × Prog S α)} {p : Prog S α}
    (h : House.Leads starts moves house ⟨s, programs⟩) (hstarts : starts s k p t) :
    House.Leads starts moves house ⟨t, (k, p) :: programs⟩ :=
  h.tail (.start programs hstarts)

theorem House.Leads.answered {starts : T.State → κ → Prog S α → T.State → Prop} {moves : T.State → T.State → Prop}
    {house : House T α} {s t : T.State} (before : List (κ × Prog S α)) {after : List (κ × Prog S α)} {p : Prog S α}
    {c : S.Call} {next : S.Answer c → Prog S α} {answer : S.Answer c}
    (h : House.Leads starts moves house ⟨s, before ++ (k, p) :: after⟩) (hp : p = .call c next)
    (hstep : T.Step k s c answer t) :
    House.Leads starts moves house ⟨t, before ++ (k, next answer) :: after⟩ := by
  subst hp
  exact h.tail (.call before after next hstep)

/-- The runs in which one tenant is alone: only its own programs are started, and what it may see of others stirs the
state. -/
abbrev House.Alone (V : Service T α) (k : κ) : House T α → House T α → Prop :=
  House.Leads (fun s k' p t => k' = k ∧ V.Starts s k' p t) (T.Stirs k)

/-- What the tenant's programs have returned, in their order. -/
def House.returned [DecidableEq κ] (house : House T α) (k : κ) : List (Option α) :=
  (house.programs.filter fun program => program.1 = k).map fun program => program.2.returned

theorem Follows.returned {p q : Prog S α} (h : T.Follows k p q) : p.returned = q.returned := by
  cases p with
  | ret value =>
      obtain rfl : q = .ret value := h
      rfl
  | call c next =>
      obtain ⟨next', rfl, -⟩ := h
      rfl

/-! ### One tenant alone -/

/-- The second list holds the tenant's programs of the first: each follows its own, and the rest keep to their
tenants. -/
inductive Purged (T : Tenancy S κ) (k : κ) : List (κ × Prog S α) → List (κ × Prog S α) → Prop
  | nil : Purged T k [] []
  | own {p q : Prog S α} {programs kept : List (κ × Prog S α)} (h : T.Follows k p q)
      (hp : T.Keeps k (fun _ => True) p) (rest : Purged T k programs kept) :
      Purged T k ((k, p) :: programs) ((k, q) :: kept)
  | other {other : κ} {p : Prog S α} {programs kept : List (κ × Prog S α)} (hne : other ≠ k)
      (hp : T.Keeps other (fun _ => True) p) (rest : Purged T k programs kept) :
      Purged T k ((other, p) :: programs) kept

variable {s t s' : T.State} {programs kept before after : List (κ × Prog S α)}

theorem Purged.append {kept' : List (κ × Prog S α)} (h : Purged T k before kept) (h' : Purged T k after kept') :
    Purged T k (before ++ after) (kept ++ kept') := by
  induction h with
  | nil => exact h'
  | own h hp _ ih => exact .own h hp ih
  | other hne hp _ ih => exact .other hne hp ih

theorem Purged.of_append (h : Purged T k (before ++ after) kept) :
    ∃ first last, kept = first ++ last ∧ Purged T k before first ∧ Purged T k after last := by
  induction before generalizing kept with
  | nil => exact ⟨[], kept, rfl, .nil, h⟩
  | cons program before ih =>
      cases h with
      | own h hp rest =>
          obtain ⟨first, last, rfl, hfirst, hlast⟩ := ih rest
          exact ⟨_ :: first, last, rfl, .own h hp hfirst, hlast⟩
      | other hne hp rest =>
          obtain ⟨first, last, rfl, hfirst, hlast⟩ := ih rest
          exact ⟨first, last, rfl, .other hne hp hfirst, hlast⟩

theorem Purged.returned [DecidableEq κ] (h : Purged T k programs kept) :
    House.returned ⟨s, programs⟩ k = House.returned (T := T) ⟨t, kept⟩ k := by
  simp only [House.returned]
  induction h with
  | nil => rfl
  | own h _ _ ih => simp [h.returned, ih]
  | other hne _ _ ih => simpa [hne] using ih

theorem inv_of_stirs (h : Relation.ReflTransGen (T.Stirs k) s t) (hs : T.Inv s) : T.Inv t := by
  induction h with
  | refl => exact hs
  | tail _ hstir ih => exact T.stirs_inv ih hstir

/-- What stirs one state, time after time, can stir each that shows the tenant the same. -/
theorem shows_of_stirs (h : Relation.ReflTransGen (T.Stirs k) s s') (hs : T.Inv s) (ht : T.Inv t)
    (hshows : T.Shows k s t) :
    ∃ t', Relation.ReflTransGen (T.Stirs k) t t' ∧ T.Shows k s' t' := by
  induction h with
  | refl => exact ⟨t, .refl, hshows⟩
  | tail hbefore hstir ih =>
      obtain ⟨mid, hmid, hsame⟩ := ih
      obtain ⟨t', hmore, hsame'⟩ := T.stirs_shows (inv_of_stirs hbefore hs) (inv_of_stirs hmid ht) hsame hstir
      exact ⟨t', hmid.trans hmore, hsame'⟩

theorem House.leads_of_stirs {starts : T.State → κ → Prog S α → T.State → Prop} (programs : List (κ × Prog S α))
    (h : Relation.ReflTransGen (T.Stirs k) s t) : House.Leads starts (T.Stirs k) ⟨s, programs⟩ ⟨t, programs⟩ := by
  induction h with
  | refl => exact .refl
  | tail _ hstir ih => exact ih.tail (.move programs hstir)

/-- A house, and one where the tenant is alone, that show it the same. -/
structure Mirrors (k : κ) (house alone : House T α) : Prop where
  inv : T.Inv house.state
  aloneInv : T.Inv alone.state
  shows : T.Shows k house.state alone.state
  purged : Purged T k house.programs alone.programs

variable {V : Service T α} {house house' alone : House T α}

/-- Where the state was stirred, and the programs are as they were. -/
theorem Mirrors.stirred (h : Mirrors k ⟨s, programs⟩ alone) (hstirs : Relation.ReflTransGen (T.Stirs k) s s') :
    ∃ alone', House.Alone V k alone alone' ∧ Mirrors k ⟨s', programs⟩ alone' := by
  obtain ⟨t', hmore, hsame⟩ := shows_of_stirs hstirs h.inv h.aloneInv h.shows
  exact ⟨⟨t', alone.programs⟩, House.leads_of_stirs _ hmore,
    ⟨inv_of_stirs hstirs h.inv, inv_of_stirs hmore h.aloneInv, hsame, h.purged⟩⟩

/-- One call of a program among the others: the tenant's own is made in both houses, any other stirs the second. -/
theorem Mirrors.call {c : S.Call} {next : S.Answer c → Prog S α} {caller : κ} {answer : S.Answer c}
    (h : Mirrors k ⟨s, before ++ (caller, .call c next) :: after⟩ alone) (hstep : T.Step caller s c answer s') :
    ∃ alone', House.Alone V k alone alone' ∧ Mirrors k ⟨s', before ++ (caller, next answer) :: after⟩ alone' := by
  obtain ⟨hs, ht, hshows, hpurged⟩ := h
  obtain ⟨t, kept⟩ := alone
  obtain ⟨first, last, rfl, hfirst, hlast⟩ := hpurged.of_append
  clear hpurged
  cases hlast with
  | @own p q programs last hfollows hkeeps rest =>
      obtain ⟨next', rfl, hfollows⟩ := hfollows
      obtain ⟨answer', t', hstep', hsame, hnext⟩ := hfollows s t hs ht hshows answer s' hstep
      refine ⟨⟨t', first ++ (k, next' answer') :: last⟩, .single (.call first last next' hstep'), ?_⟩
      exact ⟨T.step_inv hs hkeeps.1 hstep, T.step_inv ht hkeeps.1 hstep', hsame,
        hfirst.append (.own hnext (hkeeps.2 s answer s' hs hstep) rest)⟩
  | other hne hkeeps rest =>
      obtain ⟨mid, hmid, hsame⟩ := T.step_stirs hs hkeeps.1 hstep (Ne.symm hne)
      obtain ⟨t', hmore, hsame'⟩ := shows_of_stirs hmid hs ht hshows
      refine ⟨⟨t', first ++ last⟩, House.leads_of_stirs _ hmore, ?_⟩
      exact ⟨T.step_inv hs hkeeps.1 hstep, inv_of_stirs hmore ht, T.shows_trans (T.shows_symm hsame) hsame',
        hfirst.append (.other hne (hkeeps.2 s answer s' hs hstep) rest)⟩

theorem Mirrors.gone {program : κ × Prog S α} (h : Mirrors k ⟨s, before ++ program :: after⟩ alone) :
    ∃ alone', House.Alone V k alone alone' ∧ Mirrors k ⟨s, before ++ after⟩ alone' := by
  obtain ⟨hs, ht, hshows, hpurged⟩ := h
  obtain ⟨t, kept⟩ := alone
  obtain ⟨first, last, rfl, hfirst, hlast⟩ := hpurged.of_append
  cases hlast with
  | own _ _ rest => exact ⟨⟨t, _⟩, .single (.gone t first _ _), ⟨hs, ht, hshows, hfirst.append rest⟩⟩
  | other _ _ rest => exact ⟨⟨t, _⟩, .refl, ⟨hs, ht, hshows, hfirst.append rest⟩⟩

/-- The tenant's own start is made in both houses, any other in the first only. -/
theorem Mirrors.start {starter : κ} {p : Prog S α} (h : Mirrors k ⟨s, programs⟩ alone)
    (hstart : V.Starts s starter p s') :
    ∃ alone', House.Alone V k alone alone' ∧ Mirrors k ⟨s', (starter, p) :: programs⟩ alone' := by
  obtain ⟨hs, ht, hshows, hpurged⟩ := h
  have htends := V.tends hs hstart
  by_cases hk : starter = k
  · subst hk
    obtain ⟨mid, t', hmid, hstart', hsame⟩ := V.shows hs ht hshows hstart
    refine ⟨⟨t', (starter, p) :: alone.programs⟩, (House.leads_of_stirs _ hmid).tail (.start _ ⟨rfl, hstart'⟩), ?_⟩
    exact ⟨V.inv hs hstart, V.inv (inv_of_stirs hmid ht) hstart', hsame, .own htends.follows htends.keeps hpurged⟩
  · have hframe := V.frame hstart (Ne.symm hk)
    exact ⟨alone, .refl,
      ⟨V.inv hs hstart, ht, T.shows_trans (T.shows_symm hframe) hshows, .other hk htends.keeps hpurged⟩⟩

theorem Mirrors.step (h : Mirrors k house alone) (hstep : House.Step V.Starts T.Moves house house') :
    ∃ alone', House.Alone V k alone alone' ∧ Mirrors k house' alone' := by
  cases hstep with
  | start programs hstart => exact h.start hstart
  | call before after next hcall => exact h.call hcall
  | gone s before after program => exact h.gone
  | move programs hmove => exact h.stirred (.single (T.moves_stirs hmove))

/-- What a tenant's programs have returned among all the others, they can have returned where the tenant is alone,
from any state that shows it the same. -/
theorem purge [DecidableEq κ] (V : Service T α) (k : κ)
    (hleads : House.Leads V.Starts T.Moves ⟨s, []⟩ house) (hs : T.Inv s) (ht : T.Inv t) (hshows : T.Shows k s t) :
    ∃ alone : House T α, House.Alone V k ⟨t, []⟩ alone ∧ T.Shows k house.state alone.state ∧
      house.returned k = alone.returned k := by
  suffices hall : ∃ alone, House.Alone V k ⟨t, []⟩ alone ∧ Mirrors k house alone by
    obtain ⟨alone, halone, hmirrors⟩ := hall
    exact ⟨alone, halone, hmirrors.shows, hmirrors.purged.returned⟩
  induction hleads with
  | refl => exact ⟨⟨t, []⟩, .refl, ⟨hs, ht, hshows, .nil⟩⟩
  | tail _ hstep ih =>
      obtain ⟨alone, halone, hmirrors⟩ := ih
      obtain ⟨alone', hmore, hmirrors'⟩ := hmirrors.step (V := V) hstep
      exact ⟨alone', halone.trans hmore, hmirrors'⟩

end Tenancy

end Gol.Library
