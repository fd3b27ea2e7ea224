import Gol.WorkflowScripts

/-! The program that a script's calls make. Each call's decision stands over the decisions it was given, in their
order, and every call's decision occurs once in the program. -/

namespace Gol.Script
open Library Workflow Frontend

mutual

/-- The decision that a call of the script makes, and the calls whose decisions it is made of, itself first. -/
inductive Assembles (script : List Invoked) : Nat → Decision → List Nat → Prop where
  | made {call invoked head nodes decisions calls} : script[call]? = some invoked → asked invoked = some (head, nodes) →
      AssemblesAll script nodes decisions calls → Assembles script call (head.over decisions) (call :: calls)

inductive AssemblesAll (script : List Invoked) : List Nat → List Decision → List Nat → Prop where
  | nil : AssemblesAll script [] [] []
  | cons {node decision calls nodes decisions rest} : Assembles script node decision calls →
      AssemblesAll script nodes decisions rest →
      AssemblesAll script (node :: nodes) (decision :: decisions) (calls ++ rest)

end

mutual

/-- Every name in the decision is one of 1 to 128 bytes. -/
def Named : Decision → Prop
  | .tool name _ | .spawnAgent name _ => validName name
  | .complete | .fail => True
  | .seq decisions => NamedSeq decisions
  | .onCounter missing onZero other => Named missing ∧ Named onZero ∧ Named other

def NamedSeq : List Decision → Prop
  | [] => True
  | decision :: rest => Named decision ∧ NamedSeq rest

end

/-- A script whose calls all have values that they take, each handle that of an earlier call, and no handle twice. -/
structure WellUsed (script : List Invoked) : Prop where
  shaped : ∀ invoked ∈ script, (asked invoked).isSome
  earlier : ∀ before invoked after, script = before ++ invoked :: after → ∀ node ∈ invoked.handles, node < before.length
  once : (script.flatMap Invoked.handles).Nodup

variable {script : List Invoked} {slots left : List (Option Decision)} {invoked : Invoked}
  {head : Head} {nodes : List Nat}
  {decision : Decision} {decisions : List Decision} {node : Nat} {own : Nat → List Nat} {held : List Nat}

/-! ### Names -/

theorem namedSeq_iff : NamedSeq decisions ↔ ∀ decision ∈ decisions, Named decision := by
  induction decisions with
  | nil => simp [NamedSeq]
  | cons decision rest ih => simp [NamedSeq, ih]

/-- A call whose name is checked names one of 1 to 128 bytes. -/
theorem asked_named (h : asked invoked = some (head, nodes)) (name input : String)
    (hhead : head = .tool name input ∨ head = .spawnAgent name input) : validName name := by
  unfold asked at h
  split at h
  · cases h; simp at hhead
  · split at h
    · rename_i hname
      cases h
      rcases hhead with hhead | hhead
      · cases hhead; exact hname
      · cases hhead
    · cases h
  · split at h
    · rename_i hname
      cases h
      rcases hhead with hhead | hhead
      · cases hhead; exact hname
      · cases hhead
    · cases h
  · split at h
    · rename_i hname
      cases h
      rcases hhead with hhead | hhead
      · cases hhead
      · cases hhead; exact hname
    · cases h
  · split at h
    · cases h
    · obtain ⟨nodes', -, heq⟩ := Option.map_eq_some_iff.mp h
      cases heq
      simp at hhead
  · cases h; simp at hhead
  · cases h; simp at hhead
  · cases h

theorem named_over (h : asked invoked = some (head, nodes)) (hparts : ∀ decision ∈ decisions, Named decision) :
    Named (head.over decisions) := by
  cases head with
  | tool name input => exact asked_named h name input (.inl rfl)
  | spawnAgent agent input => exact asked_named h agent input (.inr rfl)
  | complete => trivial
  | fail => trivial
  | seq => exact namedSeq_iff.mpr hparts
  | onCounter =>
      rcases decisions with _ | ⟨missing, _ | ⟨onZero, _ | ⟨other, _ | ⟨more, rest⟩⟩⟩⟩
      · trivial
      · trivial
      · trivial
      · exact ⟨hparts missing (by simp), hparts onZero (by simp), hparts other (by simp)⟩
      · trivial

mutual

theorem Assembles.named : ∀ {call : Nat} {decision : Decision} {calls : List Nat},
    Assembles script call decision calls → Named decision
  | _, _, _, .made _ hasked hparts => named_over hasked hparts.named

theorem AssemblesAll.named : ∀ {nodes : List Nat} {decisions : List Decision} {calls : List Nat},
    AssemblesAll script nodes decisions calls → ∀ decision ∈ decisions, Named decision
  | _, _, _, .nil => nofun
  | _, _, _, .cons hfirst hrest => List.forall_mem_cons.mpr ⟨hfirst.named, hrest.named⟩

end

/-! ### Slots -/

/-- The slots that still hold a decision. -/
def live (slots : List (Option Decision)) : List Nat :=
  (List.range slots.length).filter fun node => slots[node]?.join.isSome

theorem mem_live : node ∈ live slots ↔ ∃ decision, slots[node]? = some (some decision) := by
  rw [live, List.mem_filter, List.mem_range]
  constructor
  · rintro ⟨-, hsome⟩
    rcases hslot : slots[node]? with _ | _ | decision
    · simp [hslot] at hsome
    · simp [hslot] at hsome
    · exact ⟨decision, rfl⟩
  · rintro ⟨decision, hslot⟩
    exact ⟨(List.getElem?_eq_some_iff.mp hslot).1, by simp [hslot]⟩

theorem live_nodup (slots : List (Option Decision)) : (live slots).Nodup := List.Nodup.filter _ List.nodup_range

theorem taken_eq (h : taken slots node = some (decision, left)) :
    slots[node]? = some (some decision) ∧ left = slots.set node none := by
  obtain ⟨found, hfound, heq⟩ := Option.map_eq_some_iff.mp h
  cases heq
  exact ⟨Option.join_eq_some_iff.mp hfound, rfl⟩

/-- What is taken leaves the slots, and no other does. -/
theorem live_taken (h : taken slots node = some (decision, left)) : (live slots).Perm (node :: live left) := by
  obtain ⟨hslot, rfl⟩ := taken_eq h
  have hmem : node ∈ live slots := mem_live.mpr ⟨decision, hslot⟩
  have hlive : live (slots.set node none) = (live slots).erase node := by
    rw [(live_nodup slots).erase_eq_filter, live, live, List.length_set, List.filter_filter]
    refine List.filter_congr fun other hother => ?_
    by_cases hsame : other = node
    · subst hsame
      simp [List.mem_range.mp hother]
    · simp [List.getElem?_set_ne (Ne.symm hsame), hsame]
  rw [hlive]
  exact List.perm_cons_erase hmem

theorem live_made (slots : List (Option Decision)) (decision : Decision) :
    live (slots ++ [some decision]) = live slots ++ [slots.length] := by
  rw [live, List.length_append, List.length_singleton, List.range_succ, List.filter_append, live]
  congr 1
  · refine List.filter_congr fun node hnode => ?_
    rw [List.getElem?_append_left (List.mem_range.mp hnode)]
  · simp

/-! ### What the slots hold -/

/-- The decision in a slot is the one that the slot's call makes, and every call so far is in one slot's decision or
among those held. -/
structure Built (script : List Invoked) (slots : List (Option Decision)) (own : Nat → List Nat)
    (held : List Nat) : Prop where
  each : ∀ node decision, slots[node]? = some (some decision) → Assembles script node decision (own node)
  all : ((live slots).flatMap own ++ held).Perm (List.range slots.length)

theorem Built.taken (h : Built script slots own held) (htaken : taken slots node = some (decision, left)) :
    Assembles script node decision (own node) ∧ Built script left own (held ++ own node) := by
  obtain ⟨hslot, hleft⟩ := taken_eq htaken
  have hlength : left.length = slots.length := by rw [hleft, List.length_set]
  refine ⟨h.each node decision hslot, ⟨fun other found hother => h.each other found ?_, ?_⟩⟩
  · by_cases hsame : other = node
    · have hlt : node < slots.length := (List.getElem?_eq_some_iff.mp hslot).1
      rw [hleft, hsame, List.getElem?_set_self hlt] at hother
      cases hother
    · rwa [hleft, List.getElem?_set_ne (Ne.symm hsame)] at hother
  · rw [hlength]
    have hlive : ((live slots).flatMap own).Perm (own node ++ (live left).flatMap own) :=
      (live_taken htaken).flatMap_right own
    have hshift : ((live left).flatMap own ++ (held ++ own node)).Perm
        (own node ++ (live left).flatMap own ++ held) := by
      rw [← List.append_assoc, List.append_assoc (own node)]
      exact List.perm_append_comm
    exact hshift.trans ((hlive.symm.append_right held).trans h.all)

theorem Built.moved (h : Built script slots own held) (hmoved : moved slots nodes = some (decisions, left)) :
    AssemblesAll script nodes decisions (nodes.flatMap own) ∧ Built script left own (held ++ nodes.flatMap own) := by
  induction nodes generalizing slots held decisions with
  | nil =>
      cases hmoved
      exact ⟨.nil, by rw [List.flatMap_nil, List.append_nil]; exact h⟩
  | cons node rest ih =>
      obtain ⟨⟨decision, middle⟩, htaken, hrest⟩ := Option.bind_eq_some_iff.mp hmoved
      obtain ⟨⟨later, after⟩, hmoved, heq⟩ := Option.map_eq_some_iff.mp hrest
      cases heq
      obtain ⟨hfirst, hmiddle⟩ := h.taken htaken
      obtain ⟨hparts, hleft⟩ := ih hmiddle hmoved
      rw [List.flatMap_cons]
      exact ⟨.cons hfirst hparts, by rw [← List.append_assoc]; exact hleft⟩

/-- A new decision over all that is held. -/
theorem Built.made (h : Built script slots own held)
    (hnew : Assembles script slots.length decision (slots.length :: held)) :
    Built script (slots ++ [some decision]) (Function.update own slots.length (slots.length :: held)) [] where
  each node found hslot := by
    by_cases hnode : node = slots.length
    · subst hnode
      have hfound : found = decision := by simpa using hslot.symm
      rw [hfound, Function.update_self]
      exact hnew
    · rw [Function.update_of_ne hnode]
      refine h.each node found ?_
      have hlt : node < slots.length := by
        have hle := (List.getElem?_eq_some_iff.mp hslot).1
        rw [List.length_append, List.length_singleton] at hle
        omega
      rwa [List.getElem?_append_left hlt] at hslot
  all := by
    have hsame : (live slots).flatMap (Function.update own slots.length (slots.length :: held)) =
        (live slots).flatMap own := by
      refine List.flatMap_congr fun node hnode => ?_
      obtain ⟨found, hslot⟩ := mem_live.mp hnode
      exact Function.update_of_ne (List.getElem?_eq_some_iff.mp hslot).1.ne _ _
    rw [live_made, List.append_nil, List.flatMap_append, hsame, List.flatMap_singleton, Function.update_self,
      List.length_append, List.length_singleton, List.range_succ]
    have hshift : ((live slots).flatMap own ++ slots.length :: held).Perm
        (((live slots).flatMap own ++ held) ++ [slots.length]) := by
      rw [List.append_assoc]
      have hcomm : ([slots.length] ++ held).Perm (held ++ [slots.length]) := List.perm_append_comm
      exact hcomm.append_left _
    exact hshift.trans (h.all.append_right _)

/-- What a call that makes its decision does. -/
theorem applied_eq {language : Language} {answer : Nat} {after : List (Option Decision)}
    (h : language.applied slots invoked = some (answer, after)) :
    ∃ head nodes decisions left, asked invoked = some (head, nodes) ∧ moved slots nodes = some (decisions, left) ∧
      after = left ++ [some (head.over decisions)] := by
  have happlied : applied slots invoked = some (answer, after) := by
    cases language with
    | rhai => exact h
    | js =>
        have hjs : (if invoked.args.all capped then applied slots invoked else none) = some (answer, after) := h
        split at hjs
        · exact hjs
        · cases hjs
  obtain ⟨⟨head, nodes⟩, hasked, hrest⟩ := Option.bind_eq_some_iff.mp happlied
  obtain ⟨⟨decisions, left⟩, hmoved, hmade⟩ := Option.bind_eq_some_iff.mp hrest
  have hmade : (if maxDecisions ≤ left.length then none else some (left.length, left ++ [some (head.over decisions)])) =
    some (answer, after) := hmade
  split at hmade
  · cases hmade
  · cases hmade
    exact ⟨head, nodes, decisions, left, hasked, hmoved, rfl⟩

theorem taken_length (h : taken slots node = some (decision, left)) : left.length = slots.length := by
  rw [(taken_eq h).2, List.length_set]

theorem moved_length (h : moved slots nodes = some (decisions, left)) : left.length = slots.length := by
  induction nodes generalizing slots decisions with
  | nil => cases h; rfl
  | cons node rest ih =>
      obtain ⟨⟨decision, middle⟩, htaken, hrest⟩ := Option.bind_eq_some_iff.mp h
      obtain ⟨⟨later, after⟩, hmoved, heq⟩ := Option.map_eq_some_iff.mp hrest
      cases heq
      rw [ih hmoved, taken_length htaken]

/-- After the calls `before` of a script, each slot holds what its call makes. -/
theorem replay_built {language : Language} {before after : List Invoked} (hscript : script = before ++ after)
    (h : language.replay [] before = some slots) :
    slots.length = before.length ∧ ∃ own, Built script slots own [] := by
  induction before using List.reverseRecOn generalizing slots after with
  | nil =>
      cases h
      exact ⟨rfl, fun _ => [], by simp, by simp [live]⟩
  | append_singleton before invoked ih =>
      rw [replay_snoc] at h
      obtain ⟨earlier, hearlier, hlast⟩ := Option.bind_eq_some_iff.mp h
      obtain ⟨⟨answer, later⟩, happlied, rfl⟩ := Option.map_eq_some_iff.mp hlast
      have hsplit : script = before ++ invoked :: after := by rw [hscript, List.append_assoc]; rfl
      obtain ⟨hlength, own, hbuilt⟩ := ih hsplit hearlier
      obtain ⟨head, nodes, decisions, left, hasked, hmoved, rfl⟩ := applied_eq happlied
      obtain ⟨hparts, hleft⟩ := hbuilt.moved hmoved
      have hcount : left.length = before.length := (moved_length hmoved).trans hlength
      have hcall : script[left.length]? = some invoked := by
        rw [hcount, hsplit, List.getElem?_append_right (le_refl _), Nat.sub_self]
        rfl
      rw [List.nil_append] at hleft
      refine ⟨?_, _, hleft.made (.made hcall hasked hparts)⟩
      simp [hcount]

/-- The decisions that no other consumed are those in the live slots. -/
theorem unconsumed_eq (slots : List (Option Decision)) :
    slots.filterMap id = (live slots).filterMap fun node => slots[node]?.join := by
  induction slots using List.reverseRecOn with
  | nil => rfl
  | append_singleton slots slot ih =>
      have hbefore : ((live slots).filterMap fun node => (slots ++ [slot])[node]?.join) =
          (live slots).filterMap fun node => slots[node]?.join := by
        refine List.filterMap_congr fun node hnode => ?_
        obtain ⟨decision, hslot⟩ := mem_live.mp hnode
        rw [List.getElem?_append_left (List.getElem?_eq_some_iff.mp hslot).1]
      rw [List.filterMap_append, ih]
      cases slot with
      | some decision =>
          rw [live_made, List.filterMap_append, hbefore]
          simp
      | none =>
          have hlive : live (slots ++ [none]) = live slots := by
            rw [live, List.length_append, List.length_singleton, List.range_succ, List.filter_append, live]
            have hlast : ([slots.length].filter fun node => ((slots ++ [none])[node]?.join).isSome) = [] := by simp
            rw [hlast, List.append_nil]
            refine List.filter_congr fun node hnode => ?_
            rw [List.getElem?_append_left (List.mem_range.mp hnode)]
          rw [hlive, hbefore]
          simp

/-- The program is the decision of one call, and every call's decision is in it once. -/
theorem Built.assembles {root : Decision} (h : Built script slots own []) (hroot : slots.filterMap id = [root]) :
    ∃ call, Assembles script call root (own call) ∧ (own call).Perm (List.range slots.length) := by
  have hall := h.all
  rw [List.append_nil] at hall
  rw [unconsumed_eq] at hroot
  rcases hlive : live slots with _ | ⟨call, _ | ⟨other, rest⟩⟩
  · rw [hlive] at hroot
    cases hroot
  · obtain ⟨decision, hslot⟩ := mem_live.mp (hlive ▸ List.mem_singleton_self call)
    rw [hlive, List.filterMap_cons_some (by rw [hslot]; rfl), List.filterMap_nil] at hroot
    cases hroot
    rw [hlive, List.flatMap_singleton] at hall
    exact ⟨call, h.each call _ hslot, hall⟩
  · obtain ⟨first, hfirst⟩ := mem_live.mp (show call ∈ live slots by rw [hlive]; simp)
    obtain ⟨second, hsecond⟩ := mem_live.mp (show other ∈ live slots by rw [hlive]; simp)
    rw [hlive, List.filterMap_cons_some (by rw [hfirst]; rfl), List.filterMap_cons_some (by rw [hsecond]; rfl)] at hroot
    cases hroot

/-! ### Handles -/

theorem handles_eq (h : asked invoked = some (head, nodes)) : invoked.handles = nodes := by
  rw [Invoked.handles, h]
  rfl

/-- Handles whose decisions are moved out are of filled slots, each once, and their slots are empty then. -/
theorem moved_handles (h : moved slots nodes = some (decisions, left)) :
    nodes.Nodup ∧ (∀ node ∈ nodes, ∃ decision, slots[node]? = some (some decision)) ∧
      (∀ node ∈ nodes, left[node]? = some none) ∧ ∀ node : Nat, slots[node]? = some none → left[node]? = some none := by
  induction nodes generalizing slots decisions with
  | nil =>
      cases h
      exact ⟨List.nodup_nil, nofun, nofun, fun _ hslot => hslot⟩
  | cons node rest ih =>
      obtain ⟨⟨decision, middle⟩, htaken, hrest⟩ := Option.bind_eq_some_iff.mp h
      obtain ⟨⟨later, after⟩, hmoved, heq⟩ := Option.map_eq_some_iff.mp hrest
      cases heq
      obtain ⟨hslot, rfl⟩ := taken_eq htaken
      obtain ⟨hnodup, hfilled, hemptied, hkept⟩ := ih hmoved
      have hlt : node < slots.length := (List.getElem?_eq_some_iff.mp hslot).1
      have hgone : (slots.set node none)[node]? = some none := List.getElem?_set_self hlt
      have hnot : node ∉ rest := by
        intro hmem
        obtain ⟨found, hfound⟩ := hfilled node hmem
        rw [hgone] at hfound
        cases hfound
      refine ⟨List.nodup_cons.mpr ⟨hnot, hnodup⟩, ?_, ?_, ?_⟩
      · refine List.forall_mem_cons.mpr ⟨⟨decision, hslot⟩, fun other hother => ?_⟩
        obtain ⟨found, hfound⟩ := hfilled other hother
        have hother : node ≠ other := fun heq => hnot (by rw [heq]; exact hother)
        rw [List.getElem?_set_ne hother] at hfound
        exact ⟨found, hfound⟩
      · exact List.forall_mem_cons.mpr ⟨hkept node hgone, hemptied⟩
      · intro other hother
        by_cases hsame : other = node
        · rw [hsame] at hother
          rw [hslot] at hother
          cases hother
        · exact hkept other (by rwa [List.getElem?_set_ne (Ne.symm hsame)])

/-- A script whose calls all make their decisions uses its handles well, and none that was used is left. -/
theorem replay_wellUsed {language : Language} (h : language.replay [] script = some slots) :
    WellUsed script ∧ ∀ node ∈ script.flatMap Invoked.handles, slots[node]? = some none := by
  induction script using List.reverseRecOn generalizing slots with
  | nil =>
      exact ⟨⟨nofun, fun before invoked after heq => (by cases before <;> cases heq), List.nodup_nil⟩, nofun⟩
  | append_singleton before invoked ih =>
      rw [replay_snoc] at h
      obtain ⟨earlier, hearlier, hlast⟩ := Option.bind_eq_some_iff.mp h
      obtain ⟨⟨answer, later⟩, happlied, rfl⟩ := Option.map_eq_some_iff.mp hlast
      obtain ⟨hwell, hused⟩ := ih hearlier
      have hlength : earlier.length = before.length := (replay_built (List.append_nil before).symm hearlier).1
      obtain ⟨head, nodes, decisions, left, hasked, hmoved, rfl⟩ := applied_eq happlied
      obtain ⟨hnodup, hfilled, hemptied, hkept⟩ := moved_handles hmoved
      have hhandles := handles_eq hasked
      have hgrown (node : Nat) (hslot : left[node]? = some none) :
          (left ++ [some (head.over decisions)])[node]? = some none := by
        rw [List.getElem?_append_left (List.getElem?_eq_some_iff.mp hslot).1]
        exact hslot
      refine ⟨⟨?_, ?_, ?_⟩, ?_⟩
      · intro other hother
        rcases List.mem_append.mp hother with hother | hother
        · exact hwell.shaped other hother
        · rw [List.mem_singleton.mp hother, hasked]
          rfl
      · intro first other after heq node hnode
        rcases List.eq_nil_or_concat after with rfl | ⟨after, final, rfl⟩
        · obtain ⟨rfl, hsame⟩ := List.append_inj' heq rfl
          cases hsame
          rw [hhandles] at hnode
          obtain ⟨decision, hslot⟩ := hfilled node hnode
          rw [← hlength]
          exact (List.getElem?_eq_some_iff.mp hslot).1
        · rw [List.concat_eq_append, ← List.cons_append, ← List.append_assoc] at heq
          obtain ⟨rfl, -⟩ := List.append_inj' heq rfl
          exact hwell.earlier first other after rfl node hnode
      · rw [List.flatMap_append, List.flatMap_singleton, hhandles, List.nodup_append']
        refine ⟨hwell.once, hnodup, fun node hbefore hnode => ?_⟩
        obtain ⟨decision, hslot⟩ := hfilled node hnode
        rw [hused node hbefore] at hslot
        cases hslot
      · intro node hnode
        rw [List.flatMap_append, List.flatMap_singleton, hhandles, List.mem_append] at hnode
        rcases hnode with hbefore | hnode
        · exact hgrown node (hkept node (hused node hbefore))
        · exact hgrown node (hemptied node hnode)

/-! ### Every script -/

theorem bounded (language : Language) (script : List Invoked) : (language.run script).Bounded [] := by
  cases language with
  | rhai => exact Rhai.bounded _
  | js => exact Js.bounded _

/-- On values within the caps both languages do the same. -/
theorem replay_capped (h : ∀ invoked ∈ script, invoked.args.all capped) (slots : List (Option Decision)) :
    Language.js.replay slots script = Language.rhai.replay slots script := by
  induction script generalizing slots with
  | nil => rfl
  | cons invoked rest ih =>
      have hcapped : invoked.args.all capped = true := h invoked (List.mem_cons_self ..)
      have happlied : Language.js.applied slots invoked = Language.rhai.applied slots invoked := if_pos hcapped
      rw [Language.replay, Language.replay, happlied]
      cases Language.rhai.applied slots invoked with
      | none => rfl
      | some made => exact ih (fun other hother => h other (List.mem_cons_of_mem _ hother)) made.2

/-- A script that does not use its handles well faults, and its first fault is the error. -/
theorem compile_misused {language : Language} (h : ¬ WellUsed script) (evaluated : Option String) :
    ∃ before invoked message, FaultsAt language script before invoked message ∧
      language.compile script evaluated = .error (.invalidProgram message) := by
  have hrun := run_replay language script
  cases hreplay : language.replay [] script with
  | some left => exact absurd (replay_wellUsed hreplay).1 h
  | none =>
      rw [hreplay] at hrun
      obtain ⟨before, invoked, message, hfaults, hfault⟩ := hrun
      refine ⟨before, invoked, message, hfaults, ?_⟩
      rw [compile_eq]
      unfold compiled
      rw [hfault]

/-- A script compiles only where no call faults. Each call's decision is then once in the program, over the decisions
that the call was given, and the program keeps the caps. A script with a handle that is used twice, is none or comes
too early, or with other values that a builtin does not take, is an invalid program by its first fault. On the same
calls, both languages give one program, or both fail. -/
theorem builds_script (script : List Invoked) (evaluated : Option String) :
    (∀ language program, Language.compile language script evaluated = .ok program →
      (∀ before invoked after, script = before ++ invoked :: after →
        ∃ node later, language.call invoked (language.run before) = (.ok node, later)) ∧
      (∃ call calls, Assembles script call program.root calls ∧ calls.Perm (List.range script.length)) ∧
      size program.root ≤ maxDecisions ∧ Full program.root ∧ Named program.root) ∧
    (∀ language, ¬ WellUsed script → ∃ before invoked message, FaultsAt language script before invoked message ∧
      language.compile script evaluated = .error (.invalidProgram message)) ∧
    ∀ evaluatedJs, (∀ invoked ∈ script, invoked.args.all capped) → (evaluated = none ↔ evaluatedJs = none) →
      (∃ program, Language.rhai.compile script evaluated = .ok program ∧
        Language.js.compile script evaluatedJs = .ok program) ∨
      ((∃ error, Language.rhai.compile script evaluated = .error error) ∧
        ∃ error, Language.js.compile script evaluatedJs = .error error) := by
  refine ⟨fun language program hcompile => ?_, fun language hmisused => compile_misused hmisused evaluated, ?_⟩
  · obtain ⟨left, hreplay, hroot⟩ := replay_of_compile hcompile
    have hrun := run_replay language script
    rw [hreplay] at hrun
    obtain ⟨hlength, own, hbuilt⟩ := replay_built (List.append_nil script).symm hreplay
    obtain ⟨call, hassembles, hperm⟩ := hbuilt.assembles hroot
    rw [hlength] at hperm
    rw [compile_eq] at hcompile
    obtain ⟨hsize, hfull⟩ := bounded_compiled (bounded language script) hcompile
    exact ⟨hrun.2, ⟨call, own call, hassembles, hperm⟩, hsize, hfull, hassembles.named⟩
  · intro evaluatedJs hcapped hevaluated
    have hrhai := run_replay .rhai script
    have hjs := run_replay .js script
    rw [replay_capped hcapped] at hjs
    rw [compile_eq, compile_eq]
    cases hreplay : Language.rhai.replay [] script with
    | none =>
        rw [hreplay] at hrhai hjs
        obtain ⟨-, -, first, -, hfirst⟩ := hrhai
        obtain ⟨-, -, second, -, hsecond⟩ := hjs
        refine .inr ⟨⟨.invalidProgram first, ?_⟩, .invalidProgram second, ?_⟩
        · unfold compiled
          rw [hfirst]
        · unfold compiled
          rw [hsecond]
    | some left =>
        rw [hreplay] at hrhai hjs
        rw [hrhai.1, hjs.1]
        cases evaluated with
        | some message =>
            cases evaluatedJs with
            | none => exact absurd (hevaluated.mpr rfl) nofun
            | some other => exact .inr ⟨⟨_, rfl⟩, _, rfl⟩
        | none =>
            obtain rfl : evaluatedJs = none := hevaluated.mp rfl
            cases hcompiled : compiled ⟨left, none⟩ none with
            | error error => exact .inr ⟨⟨error, rfl⟩, error, rfl⟩
            | ok program => exact .inl ⟨program, rfl, rfl⟩

end Gol.Script
