import Mathlib.Data.List.Basic

/-! A file of framed records that may end in a torn frame. A framing is a writer of records and a reader of the next
one, such that the reader finds a whole frame whatever follows it and nothing in a part of one; then reading a file of
whole frames and a torn one gives its records and where they end. Where the reader finds only what the writer writes,
what it reads of any bytes at all is the frames at their start. -/

namespace Gol.Library

variable {ρ β ε : Type*}

/-- What `frame` writes and `next` reads of it. -/
structure Framing (frame : ρ → Option (List β)) (next : List β → Except ε (Option (ρ × Nat))) : Prop where
  pos : ∀ {record bytes}, frame record = some bytes → 0 < bytes.length
  whole : ∀ {record bytes}, frame record = some bytes → ∀ rest, next (bytes ++ rest) = .ok (some (record, bytes.length))
  torn : ∀ {record bytes}, frame record = some bytes → ∀ part, part <+: bytes → part.length < bytes.length →
    next part = .ok none

/-- The reader finds only what the writer writes. -/
structure ExactFraming (frame : ρ → Option (List β)) (next : List β → Except ε (Option (ρ × Nat))) : Prop
    extends Framing frame next where
  exact : ∀ {bytes record size}, next bytes = .ok (some (record, size)) →
    ∃ written rest, frame record = some written ∧ bytes = written ++ rest ∧ size = written.length

/-- The frames of the records, one after another. -/
def frames (frame : ρ → Option (List β)) (records : List ρ) : List β :=
  records.flatMap fun record => (frame record).getD []

/-- A part of a frame, and not all of it. -/
def Torn (frame : ρ → Option (List β)) (part : List β) : Prop :=
  ∃ record bytes, frame record = some bytes ∧ part <+: bytes ∧ part.length < bytes.length

/-- Reads records until there is none, with how far it read; at most `fuel` of them. -/
def readAll (next : List β → Except ε (Option (ρ × Nat))) : Nat → List β → Except ε (List ρ × Nat)
  | 0, _ => .ok ([], 0)
  | fuel + 1, bytes =>
      match next bytes with
      | .error error => .error error
      | .ok none => .ok ([], 0)
      | .ok (some (record, size)) =>
          (readAll next fuel (bytes.drop size)).map fun (records, whole) => (record :: records, size + whole)

variable {frame : ρ → Option (List β)} {next : List β → Except ε (Option (ρ × Nat))}

@[simp] theorem frames_nil : frames frame [] = [] := rfl

theorem frames_append (records more : List ρ) :
    frames frame (records ++ more) = frames frame records ++ frames frame more :=
  List.flatMap_append

theorem frames_singleton {record : ρ} {bytes : List β} (h : frame record = some bytes) :
    frames frame [record] = bytes := by
  simp [frames, h]

theorem Torn.nil {record : ρ} {bytes : List β} (h : Framing frame next) (hframe : frame record = some bytes) :
    Torn frame [] :=
  ⟨record, bytes, hframe, List.nil_prefix, h.pos hframe⟩

theorem frames_cons {record : ρ} {bytes : List β} (h : frame record = some bytes) (rest : List ρ) :
    frames frame (record :: rest) = bytes ++ frames frame rest := by
  rw [← List.singleton_append, frames_append, frames_singleton h]

/-- Whole frames are read, and then what follows them. -/
theorem Framing.readAll_append (h : Framing frame next) {records : List ρ}
    (hframes : ∀ record ∈ records, (frame record).isSome) (rest : List β) (fuel : Nat) :
    Library.readAll next (records.length + fuel) (frames frame records ++ rest) =
      (Library.readAll next fuel rest).map fun (more, whole) =>
        (records ++ more, (frames frame records).length + whole) := by
  induction records with
  | nil =>
      simp only [List.length_nil, Nat.zero_add, frames_nil, List.nil_append]
      cases Library.readAll next fuel rest <;> rfl
  | cons record others ih =>
      obtain ⟨bytes, hframe⟩ := Option.isSome_iff_exists.mp (hframes record (List.mem_cons_self ..))
      have hothers := ih fun other hother => hframes other (List.mem_cons_of_mem _ hother)
      rw [frames_cons hframe, List.append_assoc, List.length_cons, Nat.add_right_comm]
      simp only [Library.readAll, h.whole hframe, List.drop_left, hothers]
      cases Library.readAll next fuel rest with
      | error error => rfl
      | ok read => simp only [Except.map, List.cons_append, List.length_append, Nat.add_assoc]

/-- No frame is empty, so there are no more records than bytes. -/
theorem Framing.length_le (h : Framing frame next) {records : List ρ}
    (hframes : ∀ record ∈ records, (frame record).isSome) :
    records.length ≤ (frames frame records).length := by
  induction records with
  | nil => exact Nat.zero_le _
  | cons record rest ih =>
      obtain ⟨bytes, hframe⟩ := Option.isSome_iff_exists.mp (hframes record (List.mem_cons_self ..))
      have hrest := ih fun other hother => hframes other (List.mem_cons_of_mem _ hother)
      have hpos := h.pos hframe
      rw [frames_cons hframe, List.length_append, List.length_cons]
      omega

/-- Where the reader finds no frame after the whole ones, the records are all it reads. -/
theorem Framing.readAll_stop (h : Framing frame next) {records : List ρ}
    (hframes : ∀ record ∈ records, (frame record).isSome) {rest : List β} (hrest : next rest = .ok none) {fuel : Nat}
    (hfuel : (frames frame records ++ rest).length < fuel) :
    Library.readAll next fuel (frames frame records ++ rest) = .ok (records, (frames frame records).length) := by
  have hle := h.length_le hframes
  rw [List.length_append] at hfuel
  obtain ⟨more, rfl⟩ : ∃ more, fuel = records.length + (more + 1) := ⟨fuel - records.length - 1, by omega⟩
  rw [h.readAll_append hframes]
  simp only [Library.readAll, hrest, Except.map, List.append_nil, Nat.add_zero]

/-- Where the reader fails after whole frames, it fails. -/
theorem Framing.readAll_error (h : Framing frame next) {records : List ρ}
    (hframes : ∀ record ∈ records, (frame record).isSome) {rest : List β} {error : ε}
    (hrest : next rest = .error error) {fuel : Nat} (hfuel : (frames frame records ++ rest).length < fuel) :
    Library.readAll next fuel (frames frame records ++ rest) = .error error := by
  have hle := h.length_le hframes
  rw [List.length_append] at hfuel
  obtain ⟨more, rfl⟩ : ∃ more, fuel = records.length + (more + 1) := ⟨fuel - records.length - 1, by omega⟩
  rw [h.readAll_append hframes]
  simp only [Library.readAll, hrest, Except.map]

/-- Reading whole frames and a torn one gives the records and where they end. -/
theorem Framing.readAll (h : Framing frame next) {records : List ρ}
    (hframes : ∀ record ∈ records, (frame record).isSome) {part : List β} (hpart : Torn frame part) {fuel : Nat}
    (hfuel : (frames frame records ++ part).length < fuel) :
    readAll next fuel (frames frame records ++ part) = .ok (records, (frames frame records).length) := by
  obtain ⟨record, bytes, hframe, hbegins, hlt⟩ := hpart
  exact h.readAll_stop hframes (h.torn hframe part hbegins hlt) hfuel

/-- Bytes cut anywhere are the whole frames before the cut and a part of the next one. -/
theorem frames_cut {records : List ρ} (hframes : ∀ record ∈ records, (frame record).isSome) {bytes : List β}
    (hcut : bytes <+: frames frame records) :
    bytes = frames frame records ∨ ∃ before record after part, records = before ++ record :: after ∧
      bytes = frames frame before ++ part ∧ ∃ written, frame record = some written ∧ part <+: written ∧
        part.length < written.length := by
  induction records generalizing bytes with
  | nil => exact .inl (List.prefix_nil.mp hcut)
  | cons record rest ih =>
      obtain ⟨written, hframe⟩ := Option.isSome_iff_exists.mp (hframes record (List.mem_cons_self ..))
      rw [frames_cons hframe] at hcut ⊢
      rcases Nat.lt_or_ge bytes.length written.length with hshort | hlong
      · have hpart := List.prefix_of_prefix_length_le hcut (List.prefix_append ..) (Nat.le_of_lt hshort)
        exact .inr ⟨[], record, rest, bytes, rfl, rfl, written, hframe, hpart, hshort⟩
      · obtain ⟨tail, rfl⟩ := List.prefix_of_prefix_length_le (List.prefix_append ..) hcut hlong
        rw [List.prefix_append_right_inj] at hcut
        rcases ih (fun other hother => hframes other (List.mem_cons_of_mem _ hother)) hcut with
          rfl | ⟨before, other, after, part, rfl, rfl, hother⟩
        · exact .inl rfl
        · exact .inr ⟨record :: before, other, after, part, rfl, by rw [frames_cons hframe, List.append_assoc], hother⟩

/-- Whatever the bytes, what is read is the frames at their start. -/
theorem ExactFraming.readAll_exact (h : ExactFraming frame next) {fuel : Nat} {bytes : List β}
    {records : List ρ} {whole : Nat} (hread : Library.readAll next fuel bytes = .ok (records, whole)) :
    (∀ record ∈ records, (frame record).isSome) ∧ whole = (frames frame records).length ∧
      ∃ rest, bytes = frames frame records ++ rest := by
  induction fuel generalizing bytes records whole with
  | zero =>
      cases hread
      exact ⟨nofun, rfl, bytes, rfl⟩
  | succ fuel ih =>
      rw [Library.readAll] at hread
      split at hread
      · cases hread
      · cases hread
        exact ⟨nofun, rfl, bytes, rfl⟩
      · next record size hnext =>
          obtain ⟨written, tail, hframe, rfl, rfl⟩ := h.exact hnext
          rw [List.drop_left] at hread
          cases hmore : Library.readAll next fuel tail with
          | error error => simp [hmore, Except.map] at hread
          | ok read =>
              obtain ⟨others, size⟩ := read
              simp only [hmore, Except.map, Except.ok.injEq, Prod.mk.injEq] at hread
              obtain ⟨rfl, rfl⟩ := hread
              obtain ⟨hframes, rfl, rest, rfl⟩ := ih hmore
              refine ⟨fun other hother => ?_, by rw [frames_cons hframe, List.length_append], rest, ?_⟩
              · rcases List.mem_cons.mp hother with rfl | hother
                · rw [hframe, Option.isSome_some]
                · exact hframes other hother
              · rw [frames_cons hframe, List.append_assoc]

/-- Any fuel past the bytes reads the same. -/
theorem ExactFraming.readAll_fuel (h : ExactFraming frame next) {bytes : List β} {fuel fuel' : Nat}
    (hfuel : bytes.length < fuel) (hfuel' : bytes.length < fuel') :
    Library.readAll next fuel bytes = Library.readAll next fuel' bytes := by
  induction fuel generalizing bytes fuel' with
  | zero => omega
  | succ fuel ih =>
      obtain ⟨more, rfl⟩ : ∃ more, fuel' = more + 1 := ⟨fuel' - 1, by omega⟩
      rw [Library.readAll, Library.readAll]
      cases hnext : next bytes with
      | error error => rfl
      | ok found =>
          cases found with
          | none => rfl
          | some found =>
              obtain ⟨record, size⟩ := found
              obtain ⟨written, rest, hframe, rfl, rfl⟩ := h.exact hnext
              have hpos := h.pos hframe
              rw [List.length_append] at hfuel hfuel'
              simp only [List.drop_left]
              rw [@ih rest more (by omega) (by omega)]

/-- Frames are read back from what they wrote, so no two lists of records have the same bytes. -/
theorem Framing.frames_injective (h : Framing frame next) {records others : List ρ}
    (hframes : ∀ record ∈ records, (frame record).isSome) (hothers : ∀ record ∈ others, (frame record).isSome)
    (heq : frames frame records = frames frame others) : records = others := by
  induction records generalizing others with
  | nil =>
      cases others with
      | nil => rfl
      | cons other rest =>
          have hle := h.length_le hothers
          rw [← heq] at hle
          cases hle
  | cons record rest ih =>
      cases others with
      | nil =>
          have hle := h.length_le hframes
          rw [heq] at hle
          cases hle
      | cons other more =>
          obtain ⟨bytes, hframe⟩ := Option.isSome_iff_exists.mp (hframes record (List.mem_cons_self ..))
          obtain ⟨bytes', hframe'⟩ := Option.isSome_iff_exists.mp (hothers other (List.mem_cons_self ..))
          rw [frames_cons hframe, frames_cons hframe'] at heq
          have hfirst := h.whole hframe (frames frame rest)
          rw [heq, h.whole hframe' (frames frame more), Except.ok.injEq, Option.some.injEq, Prod.mk.injEq] at hfirst
          obtain ⟨rfl, -⟩ := hfirst
          obtain rfl := Option.some.inj (hframe.symm.trans hframe')
          rw [ih (fun r hr => hframes r (List.mem_cons_of_mem _ hr)) (fun r hr => hothers r (List.mem_cons_of_mem _ hr))
            (List.append_cancel_left heq)]

end Gol.Library
