import Gol.LibraryCodes
import Gol.LibraryText
import Gol.ProtocolAuthorize

/-! Whose memory a scope is. An owner's id is the parts its scope is kept apart by, each after its length in bytes, so
two ids are equal only if their parts are. -/

namespace Gol
open Library

/-! ### The texts of ids -/

theorem Uuid.length_hex (uuid : Uuid) : (Nat.toDigits 16 uuid.toNat).length ≤ 32 :=
  Nat.toDigits_length 16 uuid.toNat 32 (by decide) uuid.isLt

theorem Uuid.toText_length (uuid : Uuid) : uuid.toText.length = 36 := by
  have hle := uuid.length_hex
  simp only [Uuid.toText, String.length_ofList, List.length_append, List.length_cons, List.length_take,
    List.length_drop, List.length_replicate]
  omega

/-- Where the hyphens stand is fixed, so the text gives back the digits. -/
theorem Uuid.toText_injective : Function.Injective Uuid.toText := by
  intro u v h
  have hchars := congrArg String.toList h
  simp only [Uuid.toText, String.toList_ofList, List.append_assoc, List.cons_append] at hchars
  have hlen : ∀ w : Uuid, (List.replicate (32 - (Nat.toDigits 16 w.toNat).length) '0' ++
      Nat.toDigits 16 w.toNat).length = 32 := by
    intro w
    have hle := w.length_hex
    rw [List.length_append, List.length_replicate]
    omega
  have hu := hlen u
  have hv := hlen v
  have hvalue : ∀ w : Uuid, ofHex
    (List.replicate (32 - (Nat.toDigits 16 w.toNat).length) '0' ++ Nat.toDigits 16 w.toNat) =
      w.toNat := fun w => by rw [ofHex_zeros, ofHex_toDigits]
  have hu' := hvalue u
  have hv' := hvalue v
  generalize List.replicate (32 - (Nat.toDigits 16 u.toNat).length) '0' ++
    Nat.toDigits 16 u.toNat = hex at hchars hu hu'
  generalize List.replicate (32 - (Nat.toDigits 16 v.toNat).length) '0' ++ Nat.toDigits 16 v.toNat =
    hex' at hchars hv hv'
  have hdigits : hex = hex' := by
    obtain ⟨h8, hchars⟩ := List.append_inj hchars (by simp [hu, hv])
    obtain ⟨h4, hchars⟩ := List.append_inj (List.cons.inj hchars).2 (by simp [hu, hv])
    obtain ⟨h4', hchars⟩ := List.append_inj (List.cons.inj hchars).2 (by simp [hu, hv])
    obtain ⟨h4'', hchars⟩ := List.append_inj (List.cons.inj hchars).2 (by simp [hu, hv])
    have h12 := (List.cons.inj hchars).2
    have hsplit : ∀ digits : List Char, digits.length = 32 → digits = digits.take 8 ++ ((digits.drop 8).take 4 ++
        ((digits.drop 12).take 4 ++ ((digits.drop 16).take 4 ++ digits.drop 20))) := by
      intro digits _
      have hjoin : ∀ at_, (digits.drop at_).take 4 ++ digits.drop (at_ + 4) = digits.drop at_ := by
        intro at_
        rw [← List.drop_drop, List.take_append_drop]
      rw [hjoin 16, hjoin 12, hjoin 8, List.take_append_drop]
    rw [hsplit hex hu, hsplit hex' hv, h8, h4, h4', h4'', h12]
  apply BitVec.eq_of_toNat_eq
  rw [← hu', ← hv', hdigits]

/-! ### Joined parts -/

/-- A part's characters, after its length in bytes and a colon. -/
def partChars (part : List Char) : List Char := (Nat.toDigits 10 (part.map Char.utf8Size).sum ++ [':']) ++ part

theorem partChars_splits : Splits partChars :=
  Splits.sized (Splits.of_mark ':' (not_mem_decimal rfl) decimal_injective) Char.utf8Size_pos

theorem joined_toList (parts : List String) :
    (joined parts).toList = parts.flatMap fun part => partChars part.toList := by
  rw [joined, String.toList_join, List.flatMap_map]
  refine List.flatMap_congr fun part _ => ?_
  rw [String.toList_append, String.toList_append, Nat.toString_eq_repr, Nat.toList_repr, utf8ByteSize_eq]
  rfl

/-- As many parts, joined and followed by anything, are read in one way. -/
theorem joined_splits (count : Nat) :
    Splits fun parts : { parts : List String // parts.length = count } => (joined parts).toList := by
  induction count with
  | zero =>
      rintro ⟨parts, hparts⟩ ⟨parts', hparts'⟩ rest rest' heq
      obtain rfl := List.length_eq_zero_iff.mp hparts
      obtain rfl := List.length_eq_zero_iff.mp hparts'
      exact ⟨rfl, heq⟩
  | succ count ih =>
      rintro ⟨parts, hparts⟩ ⟨parts', hparts'⟩ rest rest' heq
      obtain ⟨part, more, rfl⟩ := List.exists_cons_of_length_eq_add_one hparts
      obtain ⟨part', more', rfl⟩ := List.exists_cons_of_length_eq_add_one hparts'
      simp only [joined_toList, List.flatMap_cons, List.append_assoc] at heq
      obtain ⟨hpart, heq⟩ := partChars_splits heq
      simp only [← joined_toList] at heq
      obtain ⟨hmore, hrest⟩ := @ih ⟨more, Nat.succ.inj hparts⟩ ⟨more', Nat.succ.inj hparts'⟩ _ _ heq
      cases hmore
      exact ⟨Subtype.ext (congrArg (· :: more) (String.toList_injective hpart)), hrest⟩

theorem joined_append (parts more : List String) : joined parts ++ joined more = joined (parts ++ more) := by
  rw [joined, joined, joined, List.map_append, String.join_append]

theorem joined_inj {parts parts' : List String} (h : joined parts = joined parts')
    (hlength : parts.length = parts'.length) :
    parts = parts' := by
  have hchars : (joined parts).toList ++ [] = (joined parts').toList ++ [] := by rw [h]
  obtain ⟨hsub, -⟩ := @joined_splits parts'.length ⟨parts, hlength⟩ ⟨parts', rfl⟩ _ _ hchars
  exact congrArg Subtype.val hsub

/-! ### Owners -/

/-- What a scope's memory is kept apart by is the same for two runs, each at a step. Global memory has no owner. -/
def MemoryScope.Shares (scope : MemoryScope) (spec : RunSpec) (step : UInt32) (other : RunSpec)
    (otherStep : UInt32) : Prop :=
  match scope with
  | .step => spec.runId = other.runId ∧ step = otherStep
  | .run => spec.runId = other.runId
  | .agent =>
      spec.owner.issuer = other.owner.issuer ∧ spec.owner.subject = other.owner.subject ∧ spec.agentId = other.agentId
  | .user => spec.owner.issuer = other.owner.issuer ∧ spec.owner.subject = other.owner.subject
  | .organization => spec.owner.issuer = other.owner.issuer ∧ spec.owner.tenant = other.owner.tenant
  | .session =>
      spec.owner.issuer = other.owner.issuer ∧ spec.owner.subject = other.owner.subject ∧
        spec.owner.tenant = other.owner.tenant ∧ spec.metadataGet sessionId = other.metadataGet sessionId
  | .workspace =>
      spec.owner.issuer = other.owner.issuer ∧ spec.owner.tenant = other.owner.tenant ∧
        spec.metadataGet workspaceId = other.metadataGet workspaceId
  | .global => True

instance (scope : MemoryScope) (spec : RunSpec) (step : UInt32) (other : RunSpec) (otherStep : UInt32) :
    Decidable (scope.Shares spec step other otherStep) := by
  unfold MemoryScope.Shares
  cases scope <;> infer_instance

/-- The parts of a session's or a workspace's owner. -/
theorem named_eq {spec : RunSpec} {key : String} {before : List String} {id : String}
    (h : ((((spec.metadataGet key).filter fun id => !id.isEmpty).map fun id => joined [id]).map fun named =>
      joined before ++ named) = some id) :
    ∃ name, spec.metadataGet key = some name ∧ id = joined (before ++ [name]) := by
  obtain ⟨named, hnamed, rfl⟩ := Option.map_eq_some_iff.mp h
  obtain ⟨name, hname, rfl⟩ := Option.map_eq_some_iff.mp hnamed
  obtain ⟨hget, -⟩ := Option.filter_eq_some_iff.mp hname
  exact ⟨name, hget, joined_append before [name]⟩

theorem runId_of_toText {run other : RunId} (h : run.uuid.toText = other.uuid.toText) : run = other :=
  congrArg RunId.mk (Uuid.toText_injective h)

/-- The id of a step's memory: no uuid's text has a slash. -/
theorem stepOwner_inj {run other : RunId} {step otherStep : UInt32}
    (h : run.uuid.toText ++ "/" ++ toString step = other.uuid.toText ++ "/" ++ toString otherStep) :
    run = other ∧ step = otherStep := by
  have hlength : ∀ uuid : Uuid, uuid.toText.toList.length = 36 := by
    intro uuid
    have hle := uuid.length_hex
    simp only [Uuid.toText, String.toList_ofList, List.length_append, List.length_cons, List.length_take,
      List.length_drop, List.length_replicate]
    omega
  have hchars := congrArg String.toList h
  simp only [String.toList_append, List.append_assoc] at hchars
  obtain ⟨hrun, hrest⟩ := List.append_inj hchars (by rw [hlength, hlength])
  have hstep := List.append_cancel_left hrest
  have hdigits : ∀ n : UInt32, (toString n).toList = Nat.toDigits 10 n.toNat := by
    intro n
    show (toString n.toNat).toList = Nat.toDigits 10 n.toNat
    rw [Nat.toString_eq_repr, Nat.toList_repr]
  rw [hdigits, hdigits] at hstep
  exact ⟨runId_of_toText (String.toList_injective hrun), UInt32.toNat_inj.mp (decimal_injective hstep)⟩

/-- Two runs with one memory owner share what its scope is kept apart by. -/
theorem shares_of_memoryOwnerId {spec other : RunSpec} {scope : MemoryScope} {step otherStep : UInt32} {id : String}
    (h : memoryOwnerId spec scope step = some id) (hother : memoryOwnerId other scope otherStep = some id) :
    scope.Shares spec step other otherStep := by
  cases scope with
  | step =>
      simp only [memoryOwnerId, Option.some.injEq] at h hother
      exact stepOwner_inj (h.trans hother.symm)
  | run =>
      simp only [memoryOwnerId, Option.some.injEq] at h hother
      exact runId_of_toText (h.trans hother.symm)
  | agent =>
      simp only [memoryOwnerId, Option.some.injEq, joined_append] at h hother
      have heq := h.trans hother.symm
      have hparts := joined_inj heq (by simp)
      simp only [List.cons_append, List.nil_append, List.cons.injEq, and_true] at hparts
      exact ⟨hparts.1, hparts.2.1, congrArg AgentId.mk (Uuid.toText_injective hparts.2.2)⟩
  | user | organization =>
      simp only [memoryOwnerId, Option.some.injEq] at h hother
      have heq := h.trans hother.symm
      have hparts := joined_inj heq (by simp)
      simp only [List.cons.injEq, and_true] at hparts
      exact hparts
  | session =>
      simp only [memoryOwnerId, joined_append] at h hother
      obtain ⟨name, hname, rfl⟩ := named_eq h
      obtain ⟨other', hname', heq⟩ := named_eq hother
      have hparts := joined_inj heq (by simp)
      simp only [List.cons_append, List.nil_append, List.cons.injEq, and_true] at hparts
      obtain ⟨hissuer, hsubject, htenant, rfl⟩ := hparts
      exact ⟨hissuer, hsubject, htenant, hname.trans hname'.symm⟩
  | workspace =>
      simp only [memoryOwnerId] at h hother
      obtain ⟨name, hname, rfl⟩ := named_eq h
      obtain ⟨other', hname', heq⟩ := named_eq hother
      have hparts := joined_inj heq (by simp)
      simp only [List.cons_append, List.nil_append, List.cons.injEq, and_true] at hparts
      obtain ⟨hissuer, htenant, rfl⟩ := hparts
      exact ⟨hissuer, htenant, hname.trans hname'.symm⟩
  | global => cases h

/-- Two runs that share what a scope is kept apart by have one memory owner. -/
theorem memoryOwnerId_of_shares {spec other : RunSpec} {scope : MemoryScope} {step otherStep : UInt32}
    (h : scope.Shares spec step other otherStep) :
    memoryOwnerId spec scope step = memoryOwnerId other scope otherStep := by
  cases scope with
  | step =>
      obtain ⟨hrun, rfl⟩ := h
      simp only [memoryOwnerId, hrun]
  | run => exact congrArg (fun run : RunId => some run.uuid.toText) h
  | agent =>
      obtain ⟨hissuer, hsubject, hagent⟩ := h
      simp only [memoryOwnerId, hissuer, hsubject, hagent]
  | user | organization =>
      obtain ⟨hissuer, hother⟩ := h
      simp only [memoryOwnerId, hissuer, hother]
  | session =>
      obtain ⟨hissuer, hsubject, htenant, hsession⟩ := h
      simp only [memoryOwnerId, hissuer, hsubject, htenant, hsession]
  | workspace =>
      obtain ⟨hissuer, htenant, hworkspace⟩ := h
      simp only [memoryOwnerId, hissuer, htenant, hworkspace]
  | global => rfl

end Gol
