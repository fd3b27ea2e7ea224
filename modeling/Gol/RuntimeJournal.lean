import Gol.LibraryFrames
import Gol.LibraryText
import Gol.WorkflowProgram

/-! A workflow run's journal (`journal.rs`): one file of framed records. A frame is `[len u32][kind
u8][payload][crc32]`, little-endian; `len` counts the kind and the payload, the CRC covers all but itself, and the
file starts with a `Start` frame that names the format. Each commit appends one frame, so a process killed in it
leaves a part of its last frame. -/

namespace Gol
open Library

inductive ErrorKind where
  | invalidData
  | invalidInput
  /-- A write the system failed. -/
  | other
  deriving DecidableEq

structure IoError where
  kind : ErrorKind
  message : String
  deriving DecidableEq

namespace Journal

/-- The format's name and its version. -/
def magic : Bytes := bytesOf "gol-journal"
def version : Nat := 1

def startKind : UInt8 := 0
def toolResult : UInt8 := 1
def agentSpawned : UInt8 := 2

/-- The largest `len` a frame holds: 16 MiB of kind and payload. -/
def maxLen : Nat := 16 * 2 ^ 20

def invalid (message : String) : IoError := ⟨.invalidData, message⟩

def tooLong : IoError := ⟨.invalidInput, "record longer than a frame holds"⟩

def leBytes (n : Nat) : Bytes := [n.toUInt8, (n / 2 ^ 8).toUInt8, (n / 2 ^ 16).toUInt8, (n / 2 ^ 24).toUInt8]

def takeU32 : Bytes → Option (Nat × Bytes)
  | a :: b :: c :: d :: rest => some (a.toNat + b.toNat * 2 ^ 8 + c.toNat * 2 ^ 16 + d.toNat * 2 ^ 24, rest)
  | _ => none

/-- `bytes` in two at `at_`, if it is that long. -/
def splitAtChecked (at_ : Nat) (bytes : Bytes) : Option (Bytes × Bytes) :=
  if at_ ≤ bytes.length then some (bytes.splitAt at_) else none

def putString (payload : Bytes) (text : String) : Except IoError Bytes :=
  if (bytesOf text).length < 2 ^ 32 then .ok (payload ++ leBytes (bytesOf text).length ++ bytesOf text)
  else .error tooLong

def takeString (bytes : Bytes) : Except IoError (String × Bytes) :=
  match takeU32 bytes with
  | none => .error (invalid "record payload")
  | some (len, rest) =>
      match splitAtChecked len rest with
      | none => .error (invalid "record payload")
      | some (text, rest) =>
          match textOf text with
          | none => .error (invalid "record payload")
          | some text => .ok (text, rest)

/-- The record of a kind and a payload. -/
def record (kind : UInt8) (payload : Bytes) : Except IoError Record := do
  let (record, rest) ←
    if kind = toolResult then do
      let (name, rest) ← takeString payload
      let (output, rest) ← takeString rest
      pure (Record.tool name output, rest)
    else if kind = agentSpawned then do
      let (agent, rest) ← takeString payload
      pure (Record.agentSpawned agent, rest)
    else .error (invalid "record kind")
  if rest.isEmpty then .ok record else .error (invalid "record payload")

section Crc

variable (crc : Bytes → UInt32)

/-- `kind` and `payload` as one frame; the caller has checked that they fit. -/
def framed (kind : UInt8) (payload : Bytes) : Bytes :=
  let frame := leBytes (1 + payload.length) ++ kind :: payload
  frame ++ leBytes (crc frame).toNat

def startFrame : Bytes := framed crc startKind (magic ++ leBytes version)

/-- The record as the frame a commit appends. -/
def frame (record : Record) : Except IoError Bytes := do
  let (kind, payload) ← match record with
    | .tool name output => do
        let payload ← putString [] name
        let payload ← putString payload output
        pure (toolResult, payload)
    | .agentSpawned agent => do
        let payload ← putString [] agent
        pure (agentSpawned, payload)
  if maxLen < 1 + payload.length then .error tooLong else .ok (framed crc kind payload)

/-- The record in the first frame of `bytes` and the frame's size, or `none` where there is no whole frame. -/
def nextFrame (bytes : Bytes) : Except IoError (Option (Record × Nat)) :=
  match takeU32 bytes with
  | none => .ok none
  | some (len, _) =>
      if len = 0 ∨ maxLen < len then .error (invalid "record length") else
      match splitAtChecked (4 + len) bytes with
      | none => .ok none
      | some (body, rest) =>
          match takeU32 rest with
          | none => .ok none
          | some (sum, _) =>
              if (crc body).toNat ≠ sum then .error (invalid "record checksum") else
              -- `len` counts the kind byte, so the body holds it.
              match body.drop 4 with
              | kind :: payload => (record kind payload).map fun record => some (record, body.length + 4)
              | [] => .error (invalid "record payload")

/-- A journal's records and the length of its whole frames, `Start` included. -/
structure Decoded where
  records : List Record
  whole : Nat

def decode (bytes : Bytes) : Except IoError Decoded :=
  let start := startFrame crc
  if bytes.length < start.length ∧ bytes.isPrefixOf start then .ok ⟨[], 0⟩
  else if ¬ start.isPrefixOf bytes then .error (invalid "not a gol-journal v1 file")
  else
    -- Every frame takes a byte, so there are no more of them than bytes.
    (readAll (nextFrame crc) (bytes.length + 1) (bytes.drop start.length)).map fun (records, whole) =>
      ⟨records, start.length + whole⟩

/-- The records committed so far. -/
def history (file : Bytes) : Except IoError History := (decode crc file).map (·.records)

/-- How a write ends: whole, failed after some of its bytes and rolled back, or cut by a kill after some of them. -/
inductive Write where
  | done
  | failed (bytes : Nat)
  | killed (bytes : Nat)

/-- What a call answers, unless a kill ends it. -/
inductive Ended (α : Type) where
  | returned (answer : Except IoError α)
  | killed

/-- Appends the frame; a write that failed is rolled back to the file's end. -/
def append (file frame : Bytes) : Write → Ended Unit × Bytes
  | .done => (.returned (.ok ()), file ++ frame)
  | .failed bytes =>
      let written := file ++ frame.take bytes
      (.returned (.error ⟨.other, "write"⟩), if written.length ≠ file.length then written.take file.length else written)
  | .killed bytes => (.killed, file ++ frame.take bytes)

def commit (file : Bytes) (record : Record) (write : Write) : Ended Unit × Bytes :=
  match frame crc record with
  | .error error => (.returned (.error error), file)
  | .ok frame => append file frame write

/-- How an open ends: cut by a kill before it cut the torn tail off, or after, or with its write of the `Start` frame.
-/
inductive Open where
  | killedReading
  | killedCut
  | start (write : Write)

/-- Opens the file: cuts a torn tail off and writes the `Start` frame if nothing is left. -/
def open_ (file : Bytes) (how : Open) : Ended Unit × Bytes :=
  match decode crc file with
  | .error error => (.returned (.error error), file)
  | .ok decoded =>
      let cut := if decoded.whole < file.length then file.take decoded.whole else file
      match how with
      | .killedReading => (.killed, file)
      | .killedCut => (.killed, cut)
      | .start write => if decoded.whole = 0 then append cut (startFrame crc) write else (.returned (.ok ()), cut)

end Crc

/-! ### Frames -/

theorem leBytes_length (n : Nat) : (leBytes n).length = 4 := rfl

theorem takeU32_leBytes {n : Nat} (h : n < 2 ^ 32) (rest : Bytes) : takeU32 (leBytes n ++ rest) = some (n, rest) := by
  simp only [leBytes, takeU32, List.cons_append, List.nil_append, Nat.toUInt8, UInt8.toNat_ofNat', Option.some.injEq,
    Prod.mk.injEq, and_true]
  omega

theorem takeU32_eq_none {bytes : Bytes} (h : bytes.length < 4) : takeU32 bytes = none := by
  match bytes with
  | [] | [_] | [_, _] | [_, _, _] => rfl
  | _ :: _ :: _ :: _ :: rest => simp at h; omega

theorem splitAtChecked_append (head rest : Bytes) : splitAtChecked head.length (head ++ rest) = some (head, rest) := by
  rw [splitAtChecked, if_pos (by simp), List.splitAt_eq, List.take_left, List.drop_left]

theorem splitAtChecked_eq_none {at_ : Nat} {bytes : Bytes} (h : bytes.length < at_) : splitAtChecked at_ bytes = none :=
  if_neg (by omega)

/-- A text is read back from where it was written. -/
theorem takeString_putString {payload bytes : Bytes} {text : String} (h : putString payload text = .ok bytes) :
    ∃ written, bytes = payload ++ written ∧ ∀ rest, takeString (written ++ rest) = .ok (text, rest) := by
  rw [putString] at h
  split at h
  · next hsize =>
      rw [Except.ok.injEq] at h
      refine ⟨leBytes (bytesOf text).length ++ bytesOf text, by rw [← h, List.append_assoc], fun rest => ?_⟩
      rw [takeString, List.append_assoc, takeU32_leBytes hsize]
      simp only [splitAtChecked_append, textOf_bytesOf]
  · cases h

section Crc

variable {crc : Bytes → UInt32}

/-- A frame holds a kind and a payload that read back as the record. -/
theorem frame_ok {written : Record} {bytes : Bytes} (h : frame crc written = .ok bytes) :
    ∃ kind payload, bytes = framed crc kind payload ∧ 1 + payload.length ≤ maxLen ∧
      record kind payload = .ok written := by
  have hframed : ∀ {kind payload},
    (if maxLen < 1 + payload.length then .error tooLong else .ok (framed crc kind payload)) =
      Except.ok bytes → bytes = framed crc kind payload ∧ 1 + payload.length ≤ maxLen := by
    intro kind payload hframe
    split at hframe
    · cases hframe
    · next hfits => exact ⟨(Except.ok.inj hframe).symm, Nat.not_lt.mp hfits⟩
  cases written with
  | tool name output =>
      cases hname : putString [] name with
      | error error => simp [frame, hname, bind, Except.bind] at h
      | ok first =>
          cases houtput : putString first output with
          | error error => simp [frame, hname, houtput, bind, Except.bind] at h
          | ok payload =>
              simp only [frame, hname, houtput, bind, Except.bind, pure, Except.pure] at h
              obtain ⟨rfl, hfits⟩ := hframed h
              refine ⟨toolResult, payload, rfl, hfits, ?_⟩
              obtain ⟨name', hfirst, hreadName⟩ := takeString_putString hname
              obtain ⟨output', hpayload, hreadOutput⟩ := takeString_putString houtput
              have hrest := hreadOutput []
              rw [List.append_nil] at hrest
              rw [hfirst, List.nil_append] at hpayload
              simp only [record, if_true, hpayload, hreadName, hrest, bind, Except.bind, pure, Except.pure,
                List.isEmpty_nil]
  | agentSpawned agent =>
      cases hagent : putString [] agent with
      | error error => simp [frame, hagent, bind, Except.bind] at h
      | ok payload =>
          simp only [frame, hagent, bind, Except.bind, pure, Except.pure] at h
          obtain ⟨rfl, hfits⟩ := hframed h
          refine ⟨agentSpawned, payload, rfl, hfits, ?_⟩
          obtain ⟨agent', hpayload, hread⟩ := takeString_putString hagent
          have hrest := hread []
          rw [List.append_nil] at hrest
          rw [List.nil_append] at hpayload
          have hkind : agentSpawned ≠ toolResult := by decide
          simp only [record, if_neg hkind, if_true, hpayload, hrest, bind, Except.bind, pure, Except.pure,
            List.isEmpty_nil]

/-- A frame is its body and the body's sum. -/
def body (kind : UInt8) (payload : Bytes) : Bytes := leBytes (1 + payload.length) ++ kind :: payload

theorem framed_eq (kind : UInt8) (payload : Bytes) :
    framed crc kind payload = body kind payload ++ leBytes (crc (body kind payload)).toNat := rfl

theorem body_length (kind : UInt8) (payload : Bytes) : (body kind payload).length = 4 + (1 + payload.length) := by
  rw [body, List.length_append, leBytes_length, List.length_cons, Nat.add_comm payload.length]

theorem framed_length (kind : UInt8) (payload : Bytes) : (framed crc kind payload).length = 9 + payload.length := by
  rw [framed_eq, List.length_append, body_length, leBytes_length]
  omega

theorem fits_lt {len : Nat} (h : len ≤ maxLen) : len < 2 ^ 32 := Nat.lt_of_le_of_lt h (by decide)

theorem nextFrame_framed {kind : UInt8} {payload : Bytes} {written : Record} (hfits : 1 + payload.length ≤ maxLen)
    (hrecord : record kind payload = .ok written) (rest : Bytes) :
    nextFrame crc (framed crc kind payload ++ rest) = .ok (some (written, (framed crc kind payload).length)) := by
  have hlen : takeU32 (framed crc kind payload ++ rest) =
      some (1 + payload.length, (kind :: payload) ++ (leBytes (crc (body kind payload)).toNat ++ rest)) := by
    rw [framed_eq, body, List.append_assoc, List.append_assoc, takeU32_leBytes (fits_lt hfits)]
  have hsplit : splitAtChecked (4 + (1 + payload.length)) (framed crc kind payload ++ rest) =
      some (body kind payload, leBytes (crc (body kind payload)).toNat ++ rest) := by
    rw [framed_eq, List.append_assoc, ← body_length kind, splitAtChecked_append]
  have hsum := takeU32_leBytes (UInt32.toNat_lt (crc (body kind payload))) rest
  have hok : ¬ (1 + payload.length = 0 ∨ maxLen < 1 + payload.length) := by omega
  have hdrop : (body kind payload).drop 4 = kind :: payload := rfl
  have hsize : (framed crc kind payload).length = (body kind payload).length + 4 := by
    rw [framed_eq, List.length_append, leBytes_length]
  simp only [nextFrame, hlen, if_neg hok, hsplit, hsum, ne_eq, not_true_eq_false, if_false, hdrop, hrecord,
    Except.map, hsize]

/-- A part of a frame ends in its length, in its body or in its sum. -/
theorem nextFrame_torn {kind : UInt8} {payload part : Bytes} (hfits : 1 + payload.length ≤ maxLen)
    (hbegins : part <+: framed crc kind payload) (hlt : part.length < (framed crc kind payload).length) :
    nextFrame crc part = .ok none := by
  rw [framed_length] at hlt
  by_cases hshort : part.length < 4
  · rw [nextFrame, takeU32_eq_none hshort]
  · obtain ⟨more, rfl⟩ : leBytes (1 + payload.length) <+: part :=
      List.prefix_of_prefix_length_le ⟨_, by rw [framed_eq, body, List.append_assoc]⟩ hbegins
        (by rw [leBytes_length]; omega)
    have hok : ¬ (1 + payload.length = 0 ∨ maxLen < 1 + payload.length) := by omega
    simp only [nextFrame, takeU32_leBytes (fits_lt hfits), if_neg hok]
    by_cases hbody : (leBytes (1 + payload.length) ++ more).length < 4 + (1 + payload.length)
    · rw [splitAtChecked_eq_none hbody]
    · obtain ⟨sum, hsum⟩ : body kind payload <+: leBytes (1 + payload.length) ++ more :=
        List.prefix_of_prefix_length_le ⟨_, (framed_eq kind payload).symm⟩ hbegins (by rw [body_length]; omega)
      have hsumShort : sum.length < 4 := by
        have hlength := congrArg List.length hsum
        rw [List.length_append, body_length] at hlength
        omega
      rw [← hsum, ← body_length kind, splitAtChecked_append]
      simp only [takeU32_eq_none hsumShort]

/-- The frame of a record, if it has one. -/
def frameOf (crc : Bytes → UInt32) (record : Record) : Option Bytes := (frame crc record).toOption

theorem frameOf_eq_some {written : Record} {bytes : Bytes} :
    frameOf crc written = some bytes ↔ frame crc written = .ok bytes := by
  rw [frameOf]
  cases frame crc written <;> simp [Except.toOption]

/-- The journal's frames read back. -/
theorem framing : Framing (frameOf crc) (nextFrame crc) where
  pos h := by
    obtain ⟨kind, payload, rfl, -, -⟩ := frame_ok (frameOf_eq_some.mp h)
    rw [framed_length]
    omega
  whole h rest := by
    obtain ⟨kind, payload, rfl, hfits, hrecord⟩ := frame_ok (frameOf_eq_some.mp h)
    exact nextFrame_framed hfits hrecord rest
  torn h part hbegins hlt := by
    obtain ⟨kind, payload, rfl, hfits, -⟩ := frame_ok (frameOf_eq_some.mp h)
    exact nextFrame_torn hfits hbegins hlt

/-- A file that ends on a whole frame has no part of one. -/
theorem torn_nil : Torn (frameOf crc) [] := by
  have hframe : frameOf crc (.agentSpawned "") = some (framed crc agentSpawned [0, 0, 0, 0]) := frameOf_eq_some.mpr rfl
  exact .nil framing hframe

theorem decode_start {part : Bytes} (hbegins : part <+: startFrame crc) (hlt : part.length < (startFrame crc).length) :
    decode crc part = .ok ⟨[], 0⟩ := if_pos ⟨hlt, List.isPrefixOf_iff_prefix.mpr hbegins⟩

theorem decode_frames {records : List Record} (hframes : ∀ record ∈ records, (frameOf crc record).isSome) {part : Bytes}
    (hpart : Torn (frameOf crc) part) :
    decode crc (startFrame crc ++ frames (frameOf crc) records ++ part) =
      .ok ⟨records, (startFrame crc ++ frames (frameOf crc) records).length⟩ := by
  have hlong : ¬ ((startFrame crc ++ frames (frameOf crc) records ++ part).length < (startFrame crc).length ∧
      (startFrame crc ++ frames (frameOf crc) records ++ part).isPrefixOf (startFrame crc) = true) := by
    rintro ⟨hlt, -⟩
    rw [List.length_append, List.length_append] at hlt
    omega
  have hfuel : (frames (frameOf crc) records ++ part).length <
      (startFrame crc ++ frames (frameOf crc) records ++ part).length + 1 := by
    simp only [List.length_append]
    omega
  have hread := framing.readAll hframes hpart hfuel
  rw [decode, if_neg hlong, if_neg (by simp), List.append_assoc, List.drop_left, ← List.append_assoc, hread]
  simp only [Except.map, List.length_append]

/-! ### Runs of the journal -/

/-- A call on the journal's file, or the end of its process. Reading the history changes nothing. -/
inductive Op where
  | open_ (how : Open)
  | commit (record : Record) (write : Write)
  | kill

structure State where
  file : Bytes
  /-- A process has the journal open. -/
  opened : Bool
  /-- The records whose commits wrote all their bytes, and whether the commit returned Ok or a kill cut it. -/
  landed : List (Record × Bool)

def State.empty : State := ⟨[], false, []⟩

/-- The records landed. -/
def State.records (s : State) : List Record := s.landed.map Prod.fst

/-- One call. A commit is made only on an open journal. -/
def State.step (crc : Bytes → UInt32) (s : State) : Op → State
  | .open_ how =>
      match open_ crc s.file how with
      | (.returned (.ok _), file) => { s with file := file, opened := true }
      | (.returned (.error _), file) => { s with file := file }
      | (.killed, file) => { s with file := file, opened := false }
  | .commit record write =>
      if s.opened then
        match commit crc s.file record write with
        | (.returned (.ok _), file) => ⟨file, true, s.landed ++ [(record, true)]⟩
        | (.returned (.error _), file) => { s with file := file }
        | (.killed, file) =>
            let whole := (frameOf crc record).any fun bytes => file = s.file ++ bytes
            ⟨file, false, s.landed ++ if whole then [(record, false)] else []⟩
      else s
  | .kill => { s with opened := false }

def State.run (crc : Bytes → UInt32) (ops : List Op) : State := ops.foldl (State.step crc) .empty

/-- The file is a part of the `Start` frame, or that and whole frames and a part of one. -/
def Shaped (crc : Bytes → UInt32) (file : Bytes) : Prop :=
  (file <+: startFrame crc ∧ file.length < (startFrame crc).length) ∨
  ∃ records part, (∀ record ∈ records, (frameOf crc record).isSome) ∧ Torn (frameOf crc) part ∧
    file = startFrame crc ++ frames (frameOf crc) records ++ part

/-- The file has the frames of the records landed; an open one ends on a whole frame. -/
def State.Sound (crc : Bytes → UInt32) (s : State) : Prop :=
  (s.opened = false ∧ s.landed = [] ∧ s.file <+: startFrame crc ∧ s.file.length < (startFrame crc).length) ∨
  ∃ part, (∀ record ∈ s.records, (frameOf crc record).isSome) ∧ Torn (frameOf crc) part ∧
    (s.opened = true → part = []) ∧ s.file = startFrame crc ++ frames (frameOf crc) s.records ++ part

theorem startFrame_pos : 0 < (startFrame crc).length := by
  rw [startFrame, framed_length]
  omega

/-- A write that fails leaves the file as it was. -/
theorem append_failed (file frame : Bytes) (bytes : Nat) :
    append file frame (.failed bytes) = (.returned (.error ⟨.other, "write"⟩), file) := by
  have hrolled : (if (file ++ frame.take bytes).length ≠ file.length then (file ++ frame.take bytes).take file.length
      else file ++ frame.take bytes) = file := by
    split
    · exact List.take_left' rfl
    · next hsame =>
        rw [List.length_append] at hsame
        rw [List.eq_nil_of_length_eq_zero (l := frame.take bytes) (by omega), List.append_nil]
  rw [append, hrolled]

/-- Opening a file whose `Start` frame is cut short, if it has any of it. -/
theorem open_start {part : Bytes} (hbegins : part <+: startFrame crc)
    (hlt : part.length < (startFrame crc).length) (how : Open) :
    open_ crc part how = match how with
      | .killedReading => (.killed, part)
      | .killedCut => (.killed, [])
      | .start write => append [] (startFrame crc) write := by
  have hcut : (if 0 < part.length then part.take 0 else part) = [] := by
    split
    · rfl
    · next hempty => exact List.eq_nil_of_length_eq_zero (by omega)
  rw [open_, decode_start hbegins hlt]
  cases how <;> simp only [hcut, if_true]

/-- Opening a file with its `Start` frame cuts the part of a frame off. -/
theorem open_frames {records : List Record} (hframes : ∀ record ∈ records, (frameOf crc record).isSome) {part : Bytes}
    (hpart : Torn (frameOf crc) part) (how : Open) :
    open_ crc (startFrame crc ++ frames (frameOf crc) records ++ part) how = match how with
      | .killedReading => (.killed, startFrame crc ++ frames (frameOf crc) records ++ part)
      | .killedCut => (.killed, startFrame crc ++ frames (frameOf crc) records)
      | .start _ => (.returned (.ok ()), startFrame crc ++ frames (frameOf crc) records) := by
  generalize hwhole : startFrame crc ++ frames (frameOf crc) records = whole
  have hcut : (if whole.length < (whole ++ part).length then (whole ++ part).take whole.length else whole ++ part) =
      whole := by
    split
    · exact List.take_left
    · next hsame =>
        rw [List.length_append] at hsame
        rw [List.eq_nil_of_length_eq_zero (l := part) (by omega), List.append_nil]
  have hpos : whole.length ≠ 0 := by
    have hstart := @startFrame_pos crc
    rw [← hwhole, List.length_append]
    omega
  have hdecode := decode_frames hframes hpart
  rw [hwhole] at hdecode
  rw [open_, hdecode]
  cases how <;> simp only [hcut, if_neg hpos]

theorem State.Sound.open_ {s : State} (h : s.Sound crc) (how : Open) : (s.step crc (.open_ how)).Sound crc := by
  rcases h with ⟨hclosed, hlanded, hbegins, hlt⟩ | ⟨part, hframes, hpart, hopened, hfile⟩
  · have hnone : ∀ record ∈ s.records, (frameOf crc record).isSome := by simp [State.records, hlanded]
    have hstart : startFrame crc = startFrame crc ++ frames (frameOf crc) s.records ++ [] := by
      simp [State.records, hlanded]
    have hempty : ([] : Bytes) <+: startFrame crc ∧ ([] : Bytes).length < (startFrame crc).length :=
      ⟨List.nil_prefix, startFrame_pos⟩
    rw [State.step, open_start hbegins hlt]
    cases how with
    | killedReading => exact .inl ⟨rfl, hlanded, hbegins, hlt⟩
    | killedCut => exact .inl ⟨rfl, hlanded, hempty⟩
    | start write =>
        cases write with
        | done => exact .inr ⟨[], hnone, torn_nil, fun _ => rfl, hstart⟩
        | failed bytes =>
            simp only [append_failed]
            exact .inl ⟨hclosed, hlanded, hempty⟩
        | killed bytes =>
            -- The kill may come after the frame's last byte.
            have hwritten : (startFrame crc).take bytes <+: startFrame crc := List.take_prefix ..
            rcases Nat.lt_or_ge bytes (startFrame crc).length with hcut | hwhole
            · refine .inl ⟨rfl, hlanded, hwritten, ?_⟩
              simp only [append, List.nil_append, List.length_take]
              omega
            · refine .inr ⟨[], hnone, torn_nil, nofun, ?_⟩
              simp only [append, List.nil_append, List.take_of_length_le hwhole]
              exact hstart
  · rw [State.step, hfile, open_frames hframes hpart]
    cases how with
    | killedReading => exact .inr ⟨part, hframes, hpart, nofun, rfl⟩
    | killedCut => exact .inr ⟨[], hframes, torn_nil, nofun, (List.append_nil _).symm⟩
    | start write => exact .inr ⟨[], hframes, torn_nil, fun _ => rfl, (List.append_nil _).symm⟩

theorem State.Sound.commit {s : State} (h : s.Sound crc) (record : Record) (write : Write) :
    (s.step crc (.commit record write)).Sound crc := by
  cases hopen : s.opened with
  | false =>
      rw [State.step, hopen, if_neg Bool.false_ne_true]
      exact h
  | true =>
      rcases h with ⟨hclosed, -⟩ | ⟨part, hframes, hpart, hopened, hfile⟩
      · rw [hopen] at hclosed
        cases hclosed
      · obtain rfl := hopened hopen
        rw [List.append_nil] at hfile
        simp only [State.step, hopen, if_true, Journal.commit]
        cases hframe : frame crc record with
        | error error => exact .inr ⟨[], hframes, torn_nil, fun _ => rfl, by rw [List.append_nil]; exact hfile⟩
        | ok bytes =>
            have hsome : frameOf crc record = some bytes := frameOf_eq_some.mpr hframe
            have hmore : ∀ returned, (∀ other ∈ (State.mk [] false (s.landed ++ [(record, returned)])).records,
                (frameOf crc other).isSome) ∧ s.file ++ bytes = startFrame crc ++
                  frames (frameOf crc) (State.mk [] false (s.landed ++ [(record, returned)])).records := by
              intro returned
              simp only [State.records, List.map_append, List.map_cons, List.map_nil]
              refine ⟨fun other hother => ?_, ?_⟩
              · rcases List.mem_append.mp hother with hother | hother
                · exact hframes other hother
                · rw [List.mem_singleton.mp hother, hsome, Option.isSome_some]
              · rw [hfile, frames_append, frames_singleton hsome, List.append_assoc, State.records]
            cases write with
            | done =>
                obtain ⟨hall, hbytes⟩ := hmore true
                exact .inr ⟨[], hall, torn_nil, fun _ => rfl, by rw [List.append_nil]; exact hbytes⟩
            | failed count =>
                simp only [append_failed]
                exact .inr ⟨[], hframes, torn_nil, fun _ => rfl, by rw [List.append_nil]; exact hfile⟩
            | killed count =>
                rcases Nat.lt_or_ge count bytes.length with hcut | hwhole
                · have hpartial : ¬ s.file ++ bytes.take count = s.file ++ bytes := by
                    intro hsame
                    have hlength := congrArg List.length (List.append_cancel_left hsame)
                    rw [List.length_take] at hlength
                    omega
                  simp only [append, hsome, Option.any_some, hpartial, decide_false, Bool.false_eq_true, if_false,
                    List.append_nil]
                  refine .inr ⟨bytes.take count, hframes, ⟨record, bytes, hsome, List.take_prefix .., ?_⟩, nofun, ?_⟩
                  · rw [List.length_take]
                    omega
                  · exact congrArg (· ++ bytes.take count) hfile
                · obtain ⟨hall, hbytes⟩ := hmore false
                  simp only [append, hsome, Option.any_some, List.take_of_length_le hwhole, decide_true, if_true]
                  exact .inr ⟨[], hall, torn_nil, nofun, by rw [List.append_nil]; exact hbytes⟩

theorem State.Sound.step {s : State} (h : s.Sound crc) (op : Op) : (s.step crc op).Sound crc := by
  cases op with
  | open_ how => exact h.open_ how
  | commit record write => exact h.commit record write
  | kill =>
      rcases h with ⟨-, hrest⟩ | ⟨part, hframes, hpart, -, hfile⟩
      · exact .inl ⟨rfl, hrest⟩
      · exact .inr ⟨part, hframes, hpart, nofun, hfile⟩

theorem sound_run (ops : List Op) : (State.run crc ops).Sound crc := by
  suffices hall : ∀ s : State, s.Sound crc → (ops.foldl (State.step crc) s).Sound crc from
    hall .empty (.inl ⟨rfl, rfl, List.nil_prefix, startFrame_pos⟩)
  induction ops with
  | nil => exact fun s h => h
  | cons op rest ih => exact fun s h => ih _ (h.step op)

/-- A commit lands its record or leaves the records. -/
theorem State.records_commit (s : State) (record : Record) (write : Write) :
    (s.step crc (.commit record write)).records = s.records ∨
    (s.step crc (.commit record write)).records = s.records ++ [record] := by
  rw [State.step]
  split
  · split
    · exact .inr (by simp [State.records])
    · exact .inl rfl
    · simp only [State.records]
      split
      · exact .inr (by simp)
      · exact .inl (by simp)
  · exact .inl rfl

@[simp] theorem State.records_open (s : State) (how : Open) : (s.step crc (.open_ how)).records = s.records := by
  rw [State.step]
  split <;> rfl

/-- A commit whose write is not cut lands a record that has a frame. -/
theorem State.step_commit_done {s : State} {record : Record} {bytes : Bytes} (hopened : s.opened = true)
    (hframe : frameOf crc record = some bytes) :
    s.step crc (.commit record .done) = ⟨s.file ++ bytes, true, s.landed ++ [(record, true)]⟩ := by
  simp only [State.step, hopened, if_true, Journal.commit, frameOf_eq_some.mp hframe, append]

theorem State.Sound.framed {s : State} (h : s.Sound crc) {record : Record} (hmem : record ∈ s.records) :
    ∃ bytes, frameOf crc record = some bytes := by
  rcases h with ⟨-, hlanded, -⟩ | ⟨part, hframes, -⟩
  · simp [State.records, hlanded] at hmem
  · exact Option.isSome_iff_exists.mp (hframes record hmem)

theorem State.Sound.history {s : State} (h : s.Sound crc) (hopened : s.opened = true) :
    history crc s.file = .ok s.records := by
  rcases h with ⟨hclosed, -⟩ | ⟨part, hframes, hpart, -, hfile⟩
  · rw [hopened] at hclosed
    cases hclosed
  · rw [Journal.history, hfile, decode_frames hframes hpart]
    rfl

/-- A later open fails only by its own write. -/
theorem State.Sound.open_error {s : State} (h : s.Sound crc) {how : Open} {error : IoError}
    (hopen : (Journal.open_ crc s.file how).1 = .returned (.error error)) : ∃ bytes, how = .start (.failed bytes) := by
  rcases h with ⟨-, -, hbegins, hlt⟩ | ⟨part, hframes, hpart, -, hfile⟩
  · rw [open_start hbegins hlt] at hopen
    cases how with
    | killedReading | killedCut => cases hopen
    | start write =>
        cases write with
        | failed bytes => exact ⟨bytes, rfl⟩
        | done | killed => cases hopen
  · rw [hfile, open_frames hframes hpart] at hopen
    cases how with
    | killedReading | killedCut | start => cases hopen

theorem State.Sound.open_done {s : State} (h : s.Sound crc) :
    (Journal.open_ crc s.file (.start .done)).1 = .returned (.ok ()) := by
  rcases h with ⟨-, -, hbegins, hlt⟩ | ⟨part, hframes, hpart, -, hfile⟩
  · rw [open_start hbegins hlt]
    rfl
  · rw [hfile, open_frames hframes hpart]

/-- Whatever kills and failed writes a journal's file went through, it has its shape, an open fails only by its own
write, and the history is the records of the commits that returned Ok and of those cut after their last byte, in
order. -/
theorem journal_survives (crc : Bytes → UInt32) (ops : List Op) :
    Shaped crc (State.run crc ops).file ∧
    (open_ crc (State.run crc ops).file (.start .done)).1 = .returned (.ok ()) ∧
    (∀ how error, (open_ crc (State.run crc ops).file how).1 = .returned (.error error) →
      ∃ bytes, how = .start (.failed bytes)) ∧
    (∀ how, (open_ crc (State.run crc ops).file how).1 = .returned (.ok ()) →
      history crc (open_ crc (State.run crc ops).file how).2 = .ok (State.run crc ops).records) ∧
    ((State.run crc ops).opened = true → history crc (State.run crc ops).file = .ok (State.run crc ops).records) := by
  have hsound := @sound_run crc ops
  refine ⟨?_, hsound.open_done, fun how error => hsound.open_error, fun how hok => ?_, hsound.history⟩
  · rcases hsound with ⟨-, -, hbegins⟩ | ⟨part, hframes, hpart, -, hfile⟩
    · exact .inl hbegins
    · exact .inr ⟨_, part, hframes, hpart, hfile⟩
  · have hopened := hsound.open_ how
    simp only [State.step] at hopened
    generalize Journal.open_ crc (State.run crc ops).file how = result at hok hopened
    obtain ⟨answer, file⟩ := result
    cases hok
    exact hopened.history rfl

end Crc

end Journal
end Gol
