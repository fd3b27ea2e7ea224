import Gol.LibraryCrc
import Gol.RuntimeJournal

/-! The journal's format. A reader finds a record only in the frame that the writer writes of it, so what `decode`
reads of any bytes is the frames at their start, and a journal with one byte changed is refused or cut short. -/

namespace Gol.Journal
open Library

/-! ### What the readers take -/

theorem takeU32_eq_some {bytes rest : Bytes} {n : Nat} (h : takeU32 bytes = some (n, rest)) :
    n < 2 ^ 32 ∧ bytes = leBytes n ++ rest := by
  match bytes with
  | [] | [_] | [_, _] | [_, _, _] => cases h
  | a :: b :: c :: d :: tail =>
      simp only [takeU32, Option.some.injEq, Prod.mk.injEq] at h
      obtain ⟨rfl, rfl⟩ := h
      have ha := a.toNat_lt
      have hb := b.toNat_lt
      have hc := c.toNat_lt
      have hd := d.toNat_lt
      have hfirst : (a.toNat + b.toNat * 2 ^ 8 + c.toNat * 2 ^ 16 + d.toNat * 2 ^ 24).toUInt8 = a := by
        refine UInt8.toNat_inj.mp ?_
        rw [Nat.toUInt8, UInt8.toNat_ofNat']
        omega
      have hsecond : ((a.toNat + b.toNat * 2 ^ 8 + c.toNat * 2 ^ 16 + d.toNat * 2 ^ 24) / 2 ^ 8).toUInt8 = b := by
        refine UInt8.toNat_inj.mp ?_
        rw [Nat.toUInt8, UInt8.toNat_ofNat']
        omega
      have hthird : ((a.toNat + b.toNat * 2 ^ 8 + c.toNat * 2 ^ 16 + d.toNat * 2 ^ 24) / 2 ^ 16).toUInt8 = c := by
        refine UInt8.toNat_inj.mp ?_
        rw [Nat.toUInt8, UInt8.toNat_ofNat']
        omega
      have hfourth : ((a.toNat + b.toNat * 2 ^ 8 + c.toNat * 2 ^ 16 + d.toNat * 2 ^ 24) / 2 ^ 24).toUInt8 = d := by
        refine UInt8.toNat_inj.mp ?_
        rw [Nat.toUInt8, UInt8.toNat_ofNat']
        omega
      refine ⟨by omega, ?_⟩
      rw [leBytes, hfirst, hsecond, hthird, hfourth]
      rfl

theorem splitAtChecked_eq_some {at_ : Nat} {bytes head rest : Bytes}
    (h : splitAtChecked at_ bytes = some (head, rest)) :
    bytes = head ++ rest ∧ head.length = at_ := by
  rw [splitAtChecked] at h
  split at h
  · next hle =>
      rw [List.splitAt_eq, Option.some.injEq, Prod.mk.injEq] at h
      obtain ⟨rfl, rfl⟩ := h
      exact ⟨(List.take_append_drop ..).symm, List.length_take_of_le hle⟩
  · cases h

theorem takeString_ok {bytes rest : Bytes} {text : String} (h : takeString bytes = .ok (text, rest)) :
    (bytesOf text).length < 2 ^ 32 ∧ bytes = leBytes (bytesOf text).length ++ bytesOf text ++ rest := by
  rw [takeString] at h
  split at h
  · cases h
  · next len more hlen =>
      split at h
      · cases h
      · next taken more' hsplit =>
          split at h
          · cases h
          · next read htext =>
              cases h
              obtain ⟨hlt, rfl⟩ := takeU32_eq_some hlen
              obtain ⟨rfl, rfl⟩ := splitAtChecked_eq_some hsplit
              rw [textOf_eq_some] at htext
              subst htext
              exact ⟨hlt, by rw [List.append_assoc]⟩

/-- A text ends where its length says, whatever follows. -/
theorem takeString_append {bytes rest : Bytes} {text : String}
    (h : takeString bytes = .ok (text, rest)) (more : Bytes) :
    takeString (bytes ++ more) = .ok (text, rest ++ more) := by
  obtain ⟨hlt, rfl⟩ := takeString_ok h
  rw [takeString, List.append_assoc, List.append_assoc, takeU32_leBytes hlt]
  simp only [splitAtChecked_append, textOf_bytesOf]

theorem putString_ok {text : String} (h : (bytesOf text).length < 2 ^ 32) (payload : Bytes) :
    putString payload text = .ok (payload ++ (leBytes (bytesOf text).length ++ bytesOf text)) := by
  rw [putString, if_pos h, List.append_assoc]

/-- A payload that reads as a record is that record's texts. -/
theorem record_ok {kind : UInt8} {payload : Bytes} {read : Record} (h : record kind payload = .ok read) :
    (∃ name output rest, kind = toolResult ∧ read = .tool name output ∧ takeString payload = .ok (name, rest) ∧
      takeString rest = .ok (output, [])) ∨
    ∃ agent, kind = agentSpawned ∧ read = .agentSpawned agent ∧ takeString payload = .ok (agent, []) := by
  simp only [record, bind, Except.bind, pure, Except.pure] at h
  by_cases htool : kind = toolResult
  · simp only [if_pos htool] at h
    cases hname : takeString payload with
    | error error => simp [hname] at h
    | ok taken =>
        obtain ⟨name, rest⟩ := taken
        cases houtput : takeString rest with
        | error error => simp [hname, houtput] at h
        | ok taken =>
            obtain ⟨output, tail⟩ := taken
            simp only [hname, houtput] at h
            split at h
            · next hempty =>
                obtain rfl := List.isEmpty_iff.mp hempty
                exact .inl ⟨name, output, rest, htool, (Except.ok.inj h).symm, rfl, houtput⟩
            · cases h
  · simp only [if_neg htool] at h
    by_cases hagent : kind = agentSpawned
    · simp only [if_pos hagent] at h
      cases htaken : takeString payload with
      | error error => simp [htaken] at h
      | ok taken =>
          obtain ⟨agent, tail⟩ := taken
          simp only [htaken] at h
          split at h
          · next hempty =>
              obtain rfl := List.isEmpty_iff.mp hempty
              exact .inr ⟨agent, hagent, (Except.ok.inj h).symm, rfl⟩
          · cases h
    · simp [if_neg hagent] at h

/-- No payload of a record begins another of the same kind. -/
theorem record_append {kind : UInt8} {payload more : Bytes} {read other : Record} (h : record kind payload = .ok read)
    (hmore : record kind (payload ++ more) = .ok other) : more = [] := by
  rcases record_ok h with ⟨name, output, rest, rfl, -, hname, houtput⟩ | ⟨agent, rfl, -, hagent⟩
  · rcases record_ok hmore with ⟨name', output', rest', -, -, hname', houtput'⟩ | ⟨_, hkind, -⟩
    · rw [takeString_append hname] at hname'
      cases hname'
      rw [takeString_append houtput] at houtput'
      cases houtput'
      rfl
    · cases hkind
  · rcases record_ok hmore with ⟨_, _, _, hkind, -⟩ | ⟨agent', -, -, hagent'⟩
    · cases hkind
    · rw [takeString_append hagent] at hagent'
      cases hagent'
      rfl

section Crc

variable {crc : Bytes → UInt32}

/-- A record that reads from a payload is written as it. -/
theorem frame_record {kind : UInt8} {payload : Bytes} {read : Record} (h : record kind payload = .ok read) :
    frame crc read = if maxLen < 1 + payload.length then .error tooLong else .ok (framed crc kind payload) := by
  rcases record_ok h with ⟨name, output, rest, rfl, rfl, hname, houtput⟩ | ⟨agent, rfl, rfl, hagent⟩
  · obtain ⟨hlt, rfl⟩ := takeString_ok hname
    obtain ⟨hlt', rfl⟩ := takeString_ok houtput
    simp only [frame, putString_ok hlt, putString_ok hlt', bind, Except.bind, pure, Except.pure, List.nil_append,
      List.append_nil]
  · obtain ⟨hlt, rfl⟩ := takeString_ok hagent
    simp only [frame, putString_ok hlt, bind, Except.bind, pure, Except.pure, List.nil_append, List.append_nil]

/-- A frame is found only where it is written. -/
theorem nextFrame_ok {bytes : Bytes} {read : Record} {size : Nat} (h : nextFrame crc bytes = .ok (some (read, size))) :
    ∃ kind payload rest, bytes = framed crc kind payload ++ rest ∧ size = (framed crc kind payload).length ∧
      1 + payload.length ≤ maxLen ∧ record kind payload = .ok read := by
  rw [nextFrame] at h
  split at h
  · cases h
  · next len tail hlen =>
      split at h
      · cases h
      · next hfits =>
          split at h
          · cases h
          · next whole rest hsplit =>
              split at h
              · cases h
              · next sum after hsum =>
                  split at h
                  · cases h
                  · next hcrc =>
                      split at h
                      · next kind payload hdrop =>
                          cases hrecord : record kind payload with
                          | error error => simp [hrecord, Except.map] at h
                          | ok found =>
                              simp only [hrecord, Except.map, Except.ok.injEq, Option.some.injEq, Prod.mk.injEq] at h
                              obtain ⟨rfl, rfl⟩ := h
                              obtain ⟨hlt, hbytes⟩ := takeU32_eq_some hlen
                              obtain ⟨hbytes', hwhole⟩ := splitAtChecked_eq_some hsplit
                              obtain ⟨-, rfl⟩ := takeU32_eq_some hsum
                              -- The body is the length that was read, the kind and the payload.
                              have htake : whole.take 4 = leBytes len := by
                                have hstart : bytes.take 4 = whole.take 4 := by
                                  rw [hbytes', List.take_append_of_le_length (by omega)]
                                rw [← hstart, hbytes]
                                rfl
                              have hsplit' : whole = leBytes len ++ kind :: payload := by
                                rw [← htake, ← hdrop, List.take_append_drop]
                              have hlen' : len = 1 + payload.length := by
                                have hcount := congrArg List.length hsplit'
                                rw [List.length_append, leBytes_length, List.length_cons] at hcount
                                omega
                              have hbody : whole = body kind payload := by rw [hsplit', body, hlen']
                              rw [ne_eq, Decidable.not_not] at hcrc
                              refine ⟨kind, payload, after, ?_, ?_, by omega, hrecord⟩
                              · rw [framed_eq, ← hbody, hcrc, List.append_assoc]
                                exact hbytes'
                              · rw [framed_eq, ← hbody, List.length_append, leBytes_length]
                      · cases h

/-- The reader finds only what a commit writes. -/
theorem exactFraming : ExactFraming (frameOf crc) (nextFrame crc) where
  toFraming := framing
  exact h := by
    obtain ⟨kind, payload, rest, hbytes, hsize, hfits, hrecord⟩ := nextFrame_ok h
    refine ⟨framed crc kind payload, rest, frameOf_eq_some.mpr ?_, hbytes, hsize⟩
    rw [frame_record hrecord, if_neg (by omega)]

/-- A refusal to read is `InvalidData`. -/
def Refuses (error : IoError) : Prop := ∃ message, error = invalid message

theorem takeString_error {bytes : Bytes} {error : IoError} (h : takeString bytes = .error error) : Refuses error := by
  rw [takeString] at h
  split at h
  · cases h
    exact ⟨_, rfl⟩
  · split at h
    · cases h
      exact ⟨_, rfl⟩
    · split at h
      · cases h
        exact ⟨_, rfl⟩
      · cases h

theorem record_error {kind : UInt8} {payload : Bytes} {error : IoError} (h : record kind payload = .error error) :
    Refuses error := by
  simp only [record, bind, Except.bind, pure, Except.pure] at h
  by_cases htool : kind = toolResult
  · simp only [if_pos htool] at h
    cases hname : takeString payload with
    | error error =>
        simp only [hname, Except.error.injEq] at h
        exact h ▸ takeString_error hname
    | ok taken =>
        cases houtput : takeString taken.2 with
        | error error =>
            simp only [hname, houtput, Except.error.injEq] at h
            exact h ▸ takeString_error houtput
        | ok tail =>
            simp only [hname, houtput] at h
            split at h <;> cases h
            exact ⟨_, rfl⟩
  · simp only [if_neg htool] at h
    by_cases hagent : kind = agentSpawned
    · simp only [if_pos hagent] at h
      cases htaken : takeString payload with
      | error error =>
          simp only [htaken, Except.error.injEq] at h
          exact h ▸ takeString_error htaken
      | ok taken =>
          simp only [htaken] at h
          split at h <;> cases h
          exact ⟨_, rfl⟩
    · simp only [if_neg hagent, Except.error.injEq] at h
      exact ⟨_, h.symm⟩

theorem nextFrame_error {bytes : Bytes} {error : IoError} (h : nextFrame crc bytes = .error error) : Refuses error := by
  rw [nextFrame] at h
  split at h
  · cases h
  · split at h
    · cases h
      exact ⟨_, rfl⟩
    · split at h
      · cases h
      · split at h
        · cases h
        · split at h
          · cases h
            exact ⟨_, rfl⟩
          · split at h
            · next kind payload _ =>
                cases hrecord : record kind payload with
                | error error =>
                    simp only [hrecord, Except.map, Except.error.injEq] at h
                    exact h ▸ record_error hrecord
                | ok found => simp [hrecord, Except.map] at h
            · cases h
              exact ⟨_, rfl⟩

/-! ### Reads as the source writes them -/

section Indexed

variable (crc)

/-- `nextFrame` with its indices: `none` where one is out of range. -/
def nextFrameIndexed (bytes : Bytes) : Option (Except IoError (Option (Record × Nat))) :=
  match takeU32 bytes with
  | none => some (.ok none)
  | some (len, _) =>
      if len = 0 ∨ maxLen < len then some (.error (invalid "record length")) else
      match splitAtChecked (4 + len) bytes with
      | none => some (.ok none)
      | some (body, rest) =>
          match takeU32 rest with
          | none => some (.ok none)
          | some (sum, _) =>
              if (crc body).toNat ≠ sum then some (.error (invalid "record checksum")) else
              match body[4]? with
              | none => none
              | some kind =>
                  if body.length < 5 then none
                  else some ((record kind (body.drop 5)).map fun record => some (record, body.length + 4))

/-- The loop of `decode` from `whole` on: `none` where it slices out of range or runs out of fuel. -/
def decodeFrom (bytes : Bytes) : Nat → List Record → Nat → Option (Except IoError Decoded)
  | 0, _, _ => none
  | fuel + 1, records, whole =>
      if bytes.length < whole then none else
      match nextFrameIndexed crc (bytes.drop whole) with
      | none => none
      | some (.error error) => some (.error error)
      | some (.ok none) => some (.ok ⟨records, whole⟩)
      | some (.ok (some (record, size))) => decodeFrom bytes fuel (records ++ [record]) (whole + size)

/-- `decode` with its loop and its indices. -/
def decodeIndexed (fuel : Nat) (bytes : Bytes) : Option (Except IoError Decoded) :=
  let start := startFrame crc
  if bytes.length < start.length ∧ bytes.isPrefixOf start then some (.ok ⟨[], 0⟩)
  else if ¬ start.isPrefixOf bytes then some (.error (invalid "not a gol-journal v1 file"))
  else decodeFrom crc bytes fuel [] start.length

end Indexed

theorem nextFrameIndexed_eq (bytes : Bytes) : nextFrameIndexed crc bytes = some (nextFrame crc bytes) := by
  rw [nextFrameIndexed, nextFrame]
  cases hlen : takeU32 bytes with
  | none => rfl
  | some taken =>
      obtain ⟨len, tail⟩ := taken
      simp only []
      split
      · rfl
      · next hfits =>
          cases hsplit : splitAtChecked (4 + len) bytes with
          | none => rfl
          | some parts =>
              obtain ⟨whole, rest⟩ := parts
              simp only []
              cases hsum : takeU32 rest with
              | none => rfl
              | some read =>
                  obtain ⟨sum, after⟩ := read
                  simp only []
                  by_cases hcrc : (crc whole).toNat ≠ sum
                  · rw [if_pos hcrc, if_pos hcrc]
                  · -- The length counts the kind byte, so the body has a fifth byte.
                    have hlength := (splitAtChecked_eq_some hsplit).2
                    have hlong : 4 < whole.length := by omega
                    have hdrop : whole.drop 4 = whole[4] :: whole.drop 5 := List.drop_eq_getElem_cons hlong
                    rw [if_neg hcrc, if_neg hcrc, hdrop, List.getElem?_eq_getElem hlong]
                    exact if_neg (by omega)

/-- The loop reads what `readAll` reads. -/
theorem decodeFrom_eq {bytes : Bytes} {fuel whole : Nat} (hwhole : whole ≤ bytes.length)
    (hfuel : bytes.length - whole < fuel) (records : List Record) :
    decodeFrom crc bytes fuel records whole =
      some ((readAll (nextFrame crc) fuel (bytes.drop whole)).map fun (more, size) =>
        ⟨records ++ more, whole + size⟩) := by
  induction fuel generalizing records whole with
  | zero => omega
  | succ fuel ih =>
      rw [decodeFrom, if_neg (by omega), nextFrameIndexed_eq, readAll]
      cases hnext : nextFrame crc (bytes.drop whole) with
      | error error => rfl
      | ok found =>
          cases found with
          | none => simp [Except.map]
          | some found =>
              obtain ⟨record, size⟩ := found
              obtain ⟨written, rest, hframe, hdrop, rfl⟩ := exactFraming.exact hnext
              have hpos := framing.pos hframe
              have hcount := congrArg List.length hdrop
              rw [List.length_drop, List.length_append] at hcount
              simp only []
              rw [ih (by omega) (by omega), List.drop_drop]
              cases readAll (nextFrame crc) fuel (bytes.drop (whole + written.length)) with
              | error error => rfl
              | ok read => simp [Except.map, Nat.add_assoc]

/-- `decode` ends, and indexes no byte out of range. -/
theorem decodeIndexed_eq (bytes : Bytes) {fuel : Nat} (hfuel : bytes.length < fuel) :
    decodeIndexed crc fuel bytes = some (decode crc bytes) := by
  rw [decodeIndexed, decode]
  split
  · rfl
  · split
    · rfl
    · next hbegins =>
        rw [Decidable.not_not, List.isPrefixOf_iff_prefix] at hbegins
        have hle := hbegins.length_le
        rw [decodeFrom_eq hle (by omega)]
        have hshort : (bytes.drop (startFrame crc).length).length < fuel := by
          rw [List.length_drop]
          omega
        have hshort' : (bytes.drop (startFrame crc).length).length < bytes.length + 1 := by
          rw [List.length_drop]
          omega
        rw [exactFraming.readAll_fuel hshort hshort']
        simp only [List.nil_append]

/-- A journal's bytes. -/
def journalBytes (crc : Bytes → UInt32) (records : List Record) : Bytes :=
  startFrame crc ++ frames (frameOf crc) records

/-- Past its `Start` frame, a file reads as its frames do. -/
theorem decode_append (rest : Bytes) :
    decode crc (startFrame crc ++ rest) = (readAll (nextFrame crc) (rest.length + 1) rest).map fun (records, whole) =>
      ⟨records, (startFrame crc).length + whole⟩ := by
  have hlong : ¬ ((startFrame crc ++ rest).length < (startFrame crc).length ∧
      (startFrame crc ++ rest).isPrefixOf (startFrame crc) = true) := by
    rintro ⟨hlt, -⟩
    rw [List.length_append] at hlt
    omega
  have hfuel : rest.length < (startFrame crc ++ rest).length + 1 := by
    rw [List.length_append]
    omega
  rw [decode, if_neg hlong, if_neg (by simp), List.drop_left, exactFraming.readAll_fuel hfuel (Nat.lt_succ_self _)]

/-- What is read of any bytes is the journal at their start. -/
theorem decode_exact {bytes : Bytes} {records : List Record} {whole : Nat}
    (h : decode crc bytes = .ok ⟨records, whole⟩) :
    (whole = 0 ∧ records = [] ∧ bytes <+: startFrame crc ∧ bytes.length < (startFrame crc).length) ∨
    ((∀ record ∈ records, (frameOf crc record).isSome) ∧ whole = (journalBytes crc records).length ∧
      bytes.take whole = journalBytes crc records) := by
  by_cases hshort : bytes.length < (startFrame crc).length ∧ bytes.isPrefixOf (startFrame crc) = true
  · rw [decode, if_pos hshort] at h
    cases h
    exact .inl ⟨rfl, rfl, List.isPrefixOf_iff_prefix.mp hshort.2, hshort.1⟩
  · by_cases hbegins : (startFrame crc).isPrefixOf bytes = true
    · obtain ⟨rest, rfl⟩ := List.isPrefixOf_iff_prefix.mp hbegins
      rw [decode_append] at h
      cases hread : readAll (nextFrame crc) (rest.length + 1) rest with
      | error error => simp [hread, Except.map] at h
      | ok read =>
          obtain ⟨read, size⟩ := read
          simp only [hread, Except.map, Except.ok.injEq, Decoded.mk.injEq] at h
          obtain ⟨rfl, rfl⟩ := h
          obtain ⟨hframes, rfl, more, rfl⟩ := exactFraming.readAll_exact hread
          have hwhole : (startFrame crc).length + (frames (frameOf crc) read).length =
              (journalBytes crc read).length := by
            rw [journalBytes, List.length_append]
          refine .inr ⟨hframes, hwhole, ?_⟩
          rw [hwhole, ← List.append_assoc]
          exact List.take_left
    · rw [decode, if_neg hshort, if_pos hbegins] at h
      cases h

/-- A journal cut anywhere reads as its whole frames. -/
theorem decode_cut {records : List Record} (hframes : ∀ record ∈ records, (frameOf crc record).isSome) {part : Bytes}
    (hcut : part <+: journalBytes crc records) :
    (part.length < (startFrame crc).length ∧ decode crc part = .ok ⟨[], 0⟩) ∨
    ∃ before after, records = before ++ after ∧ journalBytes crc before <+: part ∧
      (∀ next rest, after = next :: rest → part.length < (journalBytes crc (before ++ [next])).length) ∧
      decode crc part = .ok ⟨before, (journalBytes crc before).length⟩ := by
  rcases Nat.lt_or_ge part.length (startFrame crc).length with hshort | hlong
  · have hbegins := List.prefix_of_prefix_length_le hcut (List.prefix_append ..) (Nat.le_of_lt hshort)
    exact .inl ⟨hshort, decode_start hbegins hshort⟩
  · obtain ⟨rest, rfl⟩ := List.prefix_of_prefix_length_le (List.prefix_append ..) hcut hlong
    rw [journalBytes, List.prefix_append_right_inj] at hcut
    rcases frames_cut hframes hcut with rfl | ⟨before, record, after, torn, rfl, rfl, written, hframe, hbegins, hlt⟩
    · have hread := decode_frames hframes (@torn_nil crc)
      rw [List.append_nil] at hread
      exact .inr ⟨records, [], (List.append_nil _).symm, List.prefix_rfl, nofun, hread⟩
    · have hbefore : ∀ other ∈ before, (frameOf crc other).isSome := fun other hother =>
        hframes other (List.mem_append_left _ hother)
      have hread := decode_frames hbefore ⟨record, written, hframe, hbegins, hlt⟩
      refine .inr ⟨before, record :: after, rfl, ⟨torn, by rw [journalBytes, List.append_assoc]⟩, ?_, ?_⟩
      · rintro next tail heq
        cases heq
        rw [journalBytes, frames_append, frames_singleton hframe]
        simp only [List.length_append]
        omega
      · rw [← List.append_assoc]
        exact hread

/-- The journal's format: a journal cut anywhere reads as its whole frames; any bytes at all are read to an end, and
what they read as is a journal at their start; and no two lists of records have one journal. -/
theorem journal_format (crc : Bytes → UInt32) :
    (∀ records, (∀ record ∈ records, (frameOf crc record).isSome) → ∀ part, part <+: journalBytes crc records →
      (part.length < (startFrame crc).length ∧ decode crc part = .ok ⟨[], 0⟩) ∨
      ∃ before after, records = before ++ after ∧ journalBytes crc before <+: part ∧
        (∀ next rest, after = next :: rest → part.length < (journalBytes crc (before ++ [next])).length) ∧
        decode crc part = .ok ⟨before, (journalBytes crc before).length⟩) ∧
    (∀ bytes fuel, bytes.length < fuel → decodeIndexed crc fuel bytes = some (decode crc bytes)) ∧
    (∀ bytes records whole, decode crc bytes = .ok ⟨records, whole⟩ →
      (whole = 0 ∧ records = [] ∧ bytes <+: startFrame crc ∧ bytes.length < (startFrame crc).length) ∨
      ((∀ record ∈ records, (frameOf crc record).isSome) ∧ whole = (journalBytes crc records).length ∧
        bytes.take whole = journalBytes crc records)) ∧
    ∀ records others, (∀ record ∈ records, (frameOf crc record).isSome) →
      (∀ record ∈ others, (frameOf crc record).isSome) →
      journalBytes crc records = journalBytes crc others → records = others := by
  refine ⟨fun records hframes part hcut => decode_cut hframes hcut,
    fun bytes fuel hfuel => decodeIndexed_eq bytes hfuel, fun bytes records whole h => decode_exact h,
    fun records others hframes hothers heq => ?_⟩
  exact framing.frames_injective hframes hothers (List.append_cancel_left heq)

/-! ### A damaged byte -/

/-- Two texts that differ in one byte have two sums. -/
def DetectsByte (crc : Bytes → UInt32) : Prop :=
  ∀ before after a b, crc (before ++ a :: after) = crc (before ++ b :: after) → a = b

theorem detectsByte_crc32 : DetectsByte Crc.crc32 := fun _ _ _ _ => Crc.crc32_byte

theorem DetectsByte.set (hcrc : DetectsByte crc) {bytes : Bytes} {at_ : Nat} (hlt : at_ < bytes.length) {value : UInt8}
    (hsum : crc (bytes.set at_ value) = crc bytes) : bytes[at_] = value := by
  have hbytes : bytes = bytes.take at_ ++ bytes[at_] :: bytes.drop (at_ + 1) := by
    rw [← List.drop_eq_getElem_cons hlt, List.take_append_drop]
  have hset : bytes.set at_ value = bytes.take at_ ++ value :: bytes.drop (at_ + 1) :=
    List.set_eq_take_append_cons_drop.trans (if_pos hlt)
  refine (hcrc (bytes.take at_) (bytes.drop (at_ + 1)) value bytes[at_] ?_).symm
  rw [← hset, ← hbytes, hsum]

theorem leBytes_injective {n m : Nat} (hn : n < 2 ^ 32) (hm : m < 2 ^ 32) (h : leBytes n = leBytes m) : n = m := by
  have htaken := takeU32_leBytes hn []
  rw [h, takeU32_leBytes hm] at htaken
  cases htaken
  rfl

theorem set_getElem {bytes : Bytes} {at_ : Nat} (hlt : at_ < bytes.length) {value : UInt8}
    (h : bytes.set at_ value = bytes) :
    bytes[at_] = value := by
  have hget : (bytes.set at_ value)[at_]? = bytes[at_]? := by rw [h]
  rw [List.getElem?_set_self hlt, List.getElem?_eq_getElem hlt, Option.some.injEq] at hget
  exact hget.symm

/-- A frame with one byte changed is no frame, whatever follows. -/
theorem framed_set (hcrc : DetectsByte crc) {kind kind' : UInt8} {payload payload' rest rest' : Bytes}
    {written found : Record} (hfits : 1 + payload.length ≤ maxLen) (hfits' : 1 + payload'.length ≤ maxLen)
    (hwritten : record kind payload = .ok written) (hfound : record kind' payload' = .ok found)
    {at_ : Nat} {value : UInt8} (hlt : at_ < (framed crc kind payload).length)
    (h : (framed crc kind payload).set at_ value ++ rest = framed crc kind' payload' ++ rest') :
    (framed crc kind payload)[at_] = value := by
  rcases Nat.lt_or_ge at_ 4 with hhead | htail
  · -- The length is another, but the payload begins in the same place and its texts say where it ends.
    have hsplit : ∀ (k : UInt8) (p : Bytes),
        framed crc k p = leBytes (1 + p.length) ++ k :: (p ++ leBytes (crc (body k p)).toNat) :=
      fun k p => by rw [framed_eq, body, List.append_assoc, List.cons_append]
    have hset : (framed crc kind payload).set at_ value = (leBytes (1 + payload.length)).set at_ value ++
        kind :: (payload ++ leBytes (crc (body kind payload)).toNat) := by
      rw [hsplit, List.set_append_left _ _ (by rw [leBytes_length]; exact hhead)]
    rw [hset, hsplit kind' payload', List.append_assoc, List.append_assoc] at h
    obtain ⟨hlen, hrest⟩ := List.append_inj h (by rw [List.length_set, leBytes_length, leBytes_length])
    simp only [List.cons_append, List.append_assoc, List.cons.injEq] at hrest
    obtain ⟨rfl, hrest⟩ := hrest
    have hpayload : payload = payload' := by
      rcases List.append_eq_append_iff.mp hrest with ⟨more, rfl, -⟩ | ⟨more, rfl, -⟩
      · rw [record_append hwritten hfound, List.append_nil]
      · rw [record_append hfound hwritten, List.append_nil]
    subst hpayload
    have hsame := set_getElem (by rw [leBytes_length]; exact hhead) hlen
    simp only [hsplit]
    rw [List.getElem_append_left (by rw [leBytes_length]; exact hhead)]
    exact hsame
  · have hlength : payload.length = payload'.length := by
      have htake := congrArg (List.take 4) h
      rw [List.take_append_of_le_length (by rw [List.length_set, framed_length]; omega),
        List.take_append_of_le_length (by rw [framed_length]; omega), List.take_set_of_le htail] at htake
      have hlen := leBytes_injective (fits_lt hfits) (fits_lt hfits') htake
      omega
    obtain ⟨hframe, -⟩ := List.append_inj h (by rw [List.length_set, framed_length, framed_length, hlength])
    simp only [framed_eq] at hframe ⊢
    rcases Nat.lt_or_ge at_ (body kind payload).length with hbody | hsum
    · rw [List.set_append_left _ _ hbody] at hframe
      obtain ⟨hbodies, hsums⟩ := List.append_inj hframe (by rw [List.length_set, body_length, body_length, hlength])
      have hcrcs := leBytes_injective (UInt32.toNat_lt _) (UInt32.toNat_lt _) hsums
      rw [List.getElem_append_left hbody]
      exact hcrc.set hbody (by rw [hbodies, UInt32.toNat_inj.mp hcrcs])
    · rw [List.set_append_right _ _ hsum] at hframe
      obtain ⟨hbodies, hsums⟩ := List.append_inj hframe (by rw [body_length, body_length, hlength])
      rw [← hbodies] at hsums
      rw [List.getElem_append_right hsum]
      exact set_getElem _ hsums

/-- The record that a frame with one byte changed holds is not read. -/
theorem nextFrame_damaged (hcrc : DetectsByte crc) {written : Record} {bytes : Bytes}
    (hframe : frameOf crc written = some bytes) {at_ : Nat} (hlt : at_ < bytes.length) {value : UInt8}
    (hchanged : bytes[at_] ≠ value) (rest : Bytes) :
    nextFrame crc (bytes.set at_ value ++ rest) = .ok none ∨
    ∃ error, nextFrame crc (bytes.set at_ value ++ rest) = .error error ∧ Refuses error := by
  cases hnext : nextFrame crc (bytes.set at_ value ++ rest) with
  | error error => exact .inr ⟨error, rfl, nextFrame_error hnext⟩
  | ok found =>
      cases found with
      | none => exact .inl rfl
      | some found =>
          obtain ⟨kind, payload, rfl, hfits, hwritten⟩ := frame_ok (frameOf_eq_some.mp hframe)
          obtain ⟨kind', payload', rest', hbytes, -, hfits', hfound⟩ := nextFrame_ok hnext
          exact absurd (framed_set hcrc hfits hfits' hwritten hfound hlt hbytes) hchanged

/-- A journal with one byte changed past its `Start` frame is refused and left as it is, or is read and cut to fewer
of the records it was written with. -/
theorem damaged_byte (hcrc : DetectsByte crc) (records : List Record)
    (hframes : ∀ record ∈ records, (frameOf crc record).isSome) (at_ : Nat) (value : UInt8)
    (hpast : (startFrame crc).length ≤ at_) (hlt : at_ < (journalBytes crc records).length)
    (hchanged : (journalBytes crc records)[at_] ≠ value) :
    (∃ message, ∀ how, open_ crc ((journalBytes crc records).set at_ value) how =
      (.returned (.error ⟨.invalidData, message⟩), (journalBytes crc records).set at_ value)) ∨
    ∃ kept, kept <+: records ∧ kept.length < records.length ∧
      history crc ((journalBytes crc records).set at_ value) = .ok kept ∧
      ∀ write, open_ crc ((journalBytes crc records).set at_ value) (.start write) =
        (.returned (.ok ()), journalBytes crc kept) ∧ history crc (journalBytes crc kept) = .ok kept := by
  obtain ⟨i, rfl⟩ := Nat.exists_eq_add_of_le hpast
  have hi : i < (frames (frameOf crc) records).length := by
    rw [journalBytes, List.length_append] at hlt
    omega
  have hold : (frames (frameOf crc) records)[i] ≠ value := by
    simpa [journalBytes] using hchanged
  have hset : (journalBytes crc records).set ((startFrame crc).length + i) value =
      startFrame crc ++ (frames (frameOf crc) records).set i value := by
    rw [journalBytes, List.set_append_right _ _ (Nat.le_add_right ..), Nat.add_sub_cancel_left]
  rw [hset]
  -- The byte is in the frame of one of the records.
  rcases frames_cut hframes (List.take_prefix i _) with hall |
    ⟨before, record, after, part, rfl, htake, bytes, hframe, -, hpart⟩
  · have hlength := congrArg List.length hall
    rw [List.length_take] at hlength
    omega
  · have hbefore : ∀ other ∈ before, (frameOf crc other).isSome := fun other hother =>
      hframes other (List.mem_append_left _ hother)
    have hat : i = (frames (frameOf crc) before).length + part.length := by
      have hlength := congrArg List.length htake
      rw [List.length_take, List.length_append] at hlength
      omega
    have hbytes : frames (frameOf crc) (before ++ record :: after) =
        frames (frameOf crc) before ++ (bytes ++ frames (frameOf crc) after) := by
      rw [frames_append, frames_cons hframe]
    have hdamaged : (frames (frameOf crc) (before ++ record :: after)).set i value =
        frames (frameOf crc) before ++ (bytes.set part.length value ++ frames (frameOf crc) after) := by
      rw [hbytes, hat, List.set_append_right _ _ (Nat.le_add_right ..), Nat.add_sub_cancel_left,
        List.set_append_left _ _ hpart]
    have hother : bytes[part.length] ≠ value := by
      intro hsame
      refine hold ?_
      simp only [hbytes, hat]
      rw [List.getElem_append_right (Nat.le_add_right ..)]
      simp only [Nat.add_sub_cancel_left]
      rw [List.getElem_append_left hpart, hsame]
    rw [hdamaged]
    generalize hrest : bytes.set part.length value ++ frames (frameOf crc) after = rest
    rcases hrest ▸ nextFrame_damaged hcrc hframe hpart hother (frames (frameOf crc) after) with
      hnone | ⟨error, herror, message, rfl⟩
    · have hread : decode crc (startFrame crc ++ (frames (frameOf crc) before ++ rest)) =
          .ok ⟨before, (journalBytes crc before).length⟩ := by
        rw [decode_append, framing.readAll_stop hbefore hnone (Nat.lt_succ_self _), journalBytes, List.length_append]
        rfl
      have hwhole : startFrame crc ++ (frames (frameOf crc) before ++ rest) = journalBytes crc before ++ rest := by
        rw [journalBytes, List.append_assoc]
      refine .inr ⟨before, List.prefix_append .., by simp, by rw [history, hread]; rfl, fun write => ⟨?_, ?_⟩⟩
      · have hpos : (journalBytes crc before).length ≠ 0 := by
          have hstart := @startFrame_pos crc
          rw [journalBytes, List.length_append]
          omega
        have hcut : (if (journalBytes crc before).length < (journalBytes crc before ++ rest).length
            then (journalBytes crc before ++ rest).take (journalBytes crc before).length
            else journalBytes crc before ++ rest) = journalBytes crc before := by
          split
          · exact List.take_left
          · next hall =>
              rw [List.length_append] at hall
              rw [List.eq_nil_of_length_eq_zero (l := rest) (by omega), List.append_nil]
        rw [hwhole] at hread ⊢
        rw [open_, hread]
        simp only [hcut, if_neg hpos]
      · have hbare := decode_frames hbefore (@torn_nil crc)
        rw [List.append_nil] at hbare
        rw [history, journalBytes, hbare]
        rfl
    · have hread : decode crc (startFrame crc ++ (frames (frameOf crc) before ++ rest)) = .error (invalid message) := by
        rw [decode_append, framing.readAll_error hbefore herror (Nat.lt_succ_self _)]
        rfl
      refine .inl ⟨message, fun how => ?_⟩
      rw [open_, hread]
      rfl

/-- The first byte of the only record's length is changed from 8 to 9, and the file then ends inside the frame. -/
theorem damaged_byte_length :
    (∃ message, ∀ how, open_ Crc.crc32 ((journalBytes Crc.crc32 [.agentSpawned "abc"]).set 24 9) how =
      (.returned (.error ⟨.invalidData, message⟩), (journalBytes Crc.crc32 [.agentSpawned "abc"]).set 24 9)) ∨
    ∃ kept, kept <+: [.agentSpawned "abc"] ∧ kept.length < 1 ∧
      history Crc.crc32 ((journalBytes Crc.crc32 [.agentSpawned "abc"]).set 24 9) = .ok kept ∧
      ∀ write, open_ Crc.crc32 ((journalBytes Crc.crc32 [.agentSpawned "abc"]).set 24 9) (.start write) =
        (.returned (.ok ()), journalBytes Crc.crc32 kept) ∧
          history Crc.crc32 (journalBytes Crc.crc32 kept) = .ok kept :=
  damaged_byte detectsByte_crc32 [.agentSpawned "abc"] (by decide +kernel) 24 9 (by decide +kernel) (by decide +kernel)
    (by decide +kernel)

end Crc

end Gol.Journal
