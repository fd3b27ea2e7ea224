import Gol.LibraryCodes
import Gol.LibraryPanics
import Gol.LibraryText
import Mathlib.Data.List.Induction

/-! Signed webhook requests (`crates/server/src/webhook.rs`). The MAC is a parameter. -/

namespace Gol.Webhook
open Gol.Library

/-! ### The request's headers -/

/-- How far a request's timestamp may be from the server's clock, in seconds. -/
def maxSkewS : Int64 := 300

/-- The longest event id a sender may name. -/
def maxEventId : Nat := 128

/-- The 32 bytes of a MAC. -/
structure Tag where
  bytes : Bytes
  sized : bytes.length = 32

def hexDigit (digit : UInt8) : Panics (Option UInt8) :=
  if 48 ≤ digit ∧ digit ≤ 57 then do return some (← U8.sub digit 48)
  else if 97 ≤ digit ∧ digit ≤ 102 then do return some (← U8.add (← U8.sub digit 97) 10)
  else if 65 ≤ digit ∧ digit ≤ 70 then do return some (← U8.add (← U8.sub digit 65) 10)
  else return none

/-- `tag`'s bytes, each set to what the next two digits write. -/
def fillTag : Bytes → Bytes → Panics (Option Bytes)
  | _ :: tag, high :: low :: hex => do
      let some high ← hexDigit high | return none
      let some low ← hexDigit low | return none
      let some tag ← fillTag tag hex | return none
      return some ((high <<< 4 ||| low) :: tag)
  | tag, _ => return some tag

/-- The digit of a half byte, in either case. -/
def Writes (digit : UInt8) (half : Nat) : Prop :=
  (bytesOf "0123456789abcdef")[half]? = some digit ∨ (bytesOf "0123456789ABCDEF")[half]? = some digit

instance : DecidableRel Writes := fun digit half => by unfold Writes; infer_instance

/-- A half byte's digit is read as it. -/
theorem Writes.hexDigit_eq {digit : UInt8} {half : Nat} (h : Writes digit half) :
    hexDigit digit = .ok (some (.ofNat half)) ∧ half < 16 := by
  have hall : ∀ half < 16, ∀ digit ∈ [(bytesOf "0123456789abcdef")[half]?, (bytesOf "0123456789ABCDEF")[half]?],
      digit.map hexDigit = some (.ok (some (.ofNat half))) := by
    decide +kernel
  have hlt : half < 16 := by
    rcases h with h | h
    · exact (List.getElem?_eq_some_iff.mp h).1
    · exact (List.getElem?_eq_some_iff.mp h).1
  have hread : (some digit).map hexDigit = some (.ok (some (.ofNat half))) := by
    apply hall half hlt
    rcases h with h | h <;> simp [h]
  exact ⟨Option.some.inj hread, hlt⟩

/-- A byte is read as the half byte it is the digit of, if any. -/
theorem hexDigit_eq (digit : UInt8) :
    (∃ half : UInt8, hexDigit digit = .ok (some half) ∧ half.toNat < 16 ∧ ∀ n, Writes digit n ↔ n = half.toNat) ∨
    hexDigit digit = .ok none ∧ ∀ n, ¬ Writes digit n := by
  have hall : ∀ value < 256, hexDigit (.ofNat value) = .ok none ∨
      ∃ half < 16, hexDigit (.ofNat value) = .ok (some (.ofNat half)) ∧ Writes (.ofNat value) half := by
    decide +kernel
  have hdigit := hall digit.toNat digit.toNat_lt
  rw [UInt8.ofNat_toNat] at hdigit
  rcases hdigit with hread | ⟨half, hlt, hread, hwrites⟩
  · refine .inr ⟨hread, fun n h => ?_⟩
    rw [h.hexDigit_eq.1] at hread
    cases hread
  · have hvalue : (UInt8.ofNat half).toNat = half := UInt8.toNat_ofNat_of_lt' (lt_trans hlt (by decide))
    refine .inl ⟨_, hread, by omega, fun n => ⟨fun h => ?_, fun h => ?_⟩⟩
    · obtain ⟨hread', hlt'⟩ := h.hexDigit_eq
      rw [hread] at hread'
      rw [Option.some.inj (Except.ok.inj hread')]
      exact (UInt8.toNat_ofNat_of_lt' (lt_trans hlt' (by decide))).symm
    · rwa [h, hvalue]

theorem halves_toNat {high low : UInt8} (hhigh : high.toNat < 16) (hlow : low.toNat < 16) :
    (high <<< 4 ||| low).toNat = 16 * high.toNat + low.toNat := by
  have hall : ∀ n < 16, ∀ m < 16, (UInt8.ofNat n <<< 4 ||| UInt8.ofNat m).toNat = 16 * n + m := by decide +kernel
  simpa using hall high.toNat hhigh low.toNat hlow

/-- Hexadecimal digits that write these bytes, two digits a byte, the high half first. -/
inductive Encodes : Bytes → Bytes → Prop where
  | nil : Encodes [] []
  | cons {high low byte : UInt8} {hex bytes : Bytes} : Writes high (byte.toNat / 16) → Writes low (byte.toNat % 16) →
      Encodes hex bytes → Encodes (high :: low :: hex) (byte :: bytes)

theorem Encodes.length_eq {hex bytes : Bytes} (h : Encodes hex bytes) : hex.length = 2 * bytes.length := by
  induction h with
  | nil => rfl
  | cons _ _ _ ih =>
      simp only [List.length_cons, ih]
      omega

theorem fillTag_eq (tag hex : Bytes) (hlength : hex.length = 2 * tag.length) :
    ∃ read, fillTag tag hex = .ok read ∧ ∀ bytes, read = some bytes ↔ Encodes hex bytes := by
  induction tag generalizing hex with
  | nil =>
      obtain rfl := List.length_eq_zero_iff.mp hlength
      refine ⟨some [], rfl, fun bytes => ⟨?_, ?_⟩⟩
      · rintro ⟨⟩
        exact .nil
      · rintro ⟨⟩
        rfl
  | cons first tag ih =>
      match hex, hlength with
      | high :: low :: hex, hlength =>
          obtain ⟨read, hread, hencodes⟩ := ih hex (by simp only [List.length_cons] at hlength; omega)
          rcases hexDigit_eq high with ⟨highHalf, hhigh, hhighLt, hhighWrites⟩ | ⟨hhigh, hnone⟩
          · rcases hexDigit_eq low with ⟨lowHalf, hlow, hlowLt, hlowWrites⟩ | ⟨hlow, hnone⟩
            · have hbyte := halves_toNat hhighLt hlowLt
              refine ⟨read.map ((highHalf <<< 4 ||| lowHalf) :: ·), ?_, fun bytes => ⟨?_, ?_⟩⟩
              · simp only [fillTag, hhigh, hlow, hread]
                cases read <;> rfl
              · intro h
                obtain ⟨rest, hrest, rfl⟩ := Option.map_eq_some_iff.mp h
                exact .cons ((hhighWrites _).mpr (by omega)) ((hlowWrites _).mpr (by omega)) ((hencodes rest).mp hrest)
              · rintro (_ | ⟨hhighByte, hlowByte, hrest⟩)
                rw [(hencodes _).mpr hrest, Option.map_some]
                have hhighEq := (hhighWrites _).mp hhighByte
                have hlowEq := (hlowWrites _).mp hlowByte
                congr 2
                exact UInt8.toNat_inj.mp (by omega)
            · refine ⟨none, ?_, fun bytes => ⟨nofun, ?_⟩⟩
              · simp only [fillTag, hhigh, hlow]
                rfl
              · rintro (_ | ⟨-, hlowByte, -⟩)
                exact absurd hlowByte (hnone _)
          · refine ⟨none, ?_, fun bytes => ⟨nofun, ?_⟩⟩
            · simp only [fillTag, hhigh]
              rfl
            · rintro (_ | ⟨hhighByte, -, -⟩)
              exact absurd hhighByte (hnone _)
      | [], hlength => simp at hlength
      | [_], hlength => simp at hlength; omega

theorem fillTag_length {tag hex bytes : Bytes} (h : fillTag tag hex = .ok (some bytes)) :
    bytes.length = tag.length := by
  induction tag, hex using fillTag.induct generalizing bytes with
  | case1 first tag high low hex ih =>
      rw [fillTag] at h
      rcases hexDigit_eq high with ⟨_, hhigh, -⟩ | ⟨hhigh, -⟩ <;> rw [hhigh] at h
      · rcases hexDigit_eq low with ⟨_, hlow, -⟩ | ⟨hlow, -⟩ <;> rw [hlow] at h
        · cases hrest : fillTag tag hex with
          | error panic =>
              rw [hrest] at h
              cases h
          | ok read =>
              rw [hrest] at h
              cases read with
              | none => cases h
              | some rest =>
                  cases h
                  rw [List.length_cons, List.length_cons, ih hrest]
        · cases h
      · cases h
  | case2 tag hex hshort =>
      rw [fillTag] at h
      · cases h
        rfl
      · exact hshort

/-- The tag of an `X-Gol-Signature` header. -/
def parseSignature (header : String) : Panics (Option Tag) :=
  match (bytesOf header).dropPrefix? (bytesOf "v1=") with
  | none => .ok none
  | some hex =>
      if hex.length ≠ 64 then .ok none
      else match hfilled : fillTag (List.replicate 32 0) hex with
        | .ok (some bytes) => .ok (some ⟨bytes, (fillTag_length hfilled).trans (List.length_replicate ..)⟩)
        | .ok none => .ok none
        | .error panic => .error panic

/-- A signature header is `v1=` and the 64 digits of a tag. -/
theorem parseSignature_eq (header : String) : ∃ read, parseSignature header = .ok read ∧
    ∀ tag, read = some tag ↔ ∃ hex, bytesOf header = bytesOf "v1=" ++ hex ∧ Encodes hex tag.bytes := by
  have hheader : ∀ {hex : Bytes}, (bytesOf header).dropPrefix? (bytesOf "v1=") = some hex ↔
      bytesOf header = bytesOf "v1=" ++ hex := by
    intro hex
    rw [List.dropPrefix?_eq_some_iff]
    constructor
    · rintro ⟨head, heq, hhead⟩
      rw [heq, eq_of_beq hhead]
    · intro heq
      exact ⟨_, heq, BEq.rfl⟩
  have hnone : ∀ {hex : Bytes}, hex.length ≠ 64 → ∀ tag : Tag, ¬ Encodes hex tag.bytes := by
    intro hex hlength tag hencodes
    rw [hencodes.length_eq, tag.sized] at hlength
    exact hlength rfl
  unfold parseSignature
  split
  · rename_i hdrop
    refine ⟨none, rfl, fun tag => ⟨nofun, ?_⟩⟩
    rintro ⟨hex, heq, -⟩
    rw [hheader.mpr heq] at hdrop
    cases hdrop
  · rename_i hex hdrop
    have honly : ∀ {rest : Bytes}, bytesOf header = bytesOf "v1=" ++ rest → rest = hex := by
      intro rest heq
      exact Option.some.inj ((hheader.mpr heq).symm.trans hdrop)
    split
    · rename_i hlength
      refine ⟨none, rfl, fun tag => ⟨nofun, ?_⟩⟩
      rintro ⟨rest, heq, hencodes⟩
      exact absurd (honly heq ▸ hencodes) (hnone hlength tag)
    · rename_i hlength
      obtain ⟨read, hread, hencodes⟩ := fillTag_eq (List.replicate 32 0) hex
        (by rw [List.length_replicate]; omega)
      split
      · rename_i bytes hfilled
        rw [hfilled] at hread
        cases hread
        refine ⟨_, rfl, fun tag => ⟨?_, ?_⟩⟩
        · rintro ⟨⟩
          exact ⟨hex, hheader.mp hdrop, (hencodes bytes).mp rfl⟩
        · rintro ⟨rest, heq, hrest⟩
          obtain rfl := honly heq
          cases tag
          cases (hencodes _).mpr hrest
          rfl
      · rename_i hfilled
        rw [hfilled] at hread
        cases hread
        refine ⟨none, rfl, fun tag => ⟨nofun, ?_⟩⟩
        rintro ⟨rest, heq, hrest⟩
        cases (hencodes _).mpr (honly heq ▸ hrest)
      · rename_i hfilled
        rw [hfilled] at hread
        cases hread

/-- The number that decimal digits write. -/
def decimal (digits : Bytes) : Nat := digits.foldl (fun n b => 10 * n + (b.toNat - 48)) 0

/-- The number of decimal digits, `none` for no digits or anything else. -/
def parseDigits (digits : Bytes) : Option Nat :=
  if digits.isEmpty || !digits.all (fun b => 48 ≤ b && b ≤ 57) then none
  else some (decimal digits)

/-- The number after an optional sign. -/
def parseSigned : Bytes → Option Int
  | 45 :: digits => (parseDigits digits).map fun n : Nat => -(n : Int)
  | 43 :: digits => (parseDigits digits).map fun n : Nat => (n : Int)
  | digits => (parseDigits digits).map fun n : Nat => (n : Int)

/-- `str::parse::<i64>`. -/
def parseI64 (text : Bytes) : Option Int64 := (parseSigned text).bind fun value => (I64.ofInt value).toOption

/-- The Unix seconds of an `X-Gol-Timestamp` header. -/
def parseTimestamp (header : String) : Option Int64 :=
  if (bytesOf header).isEmpty || 12 < (bytesOf header).length ||
      !(bytesOf header).all (fun b => 48 ≤ b && b ≤ 57) then none
  else parseI64 (bytesOf header)

/-- Whether an `X-Gol-Event` header is an event id: visible ASCII characters, none a `.`. -/
def isEventId (header : String) : Bool :=
  !(bytesOf header).isEmpty && (bytesOf header).length ≤ maxEventId &&
    (bytesOf header).all fun b => 33 ≤ b && b ≤ 126 && b != 46

theorem decimal_lt {digits : Bytes} (hdigits : ∀ b ∈ digits, 48 ≤ b ∧ b ≤ 57) :
    decimal digits < 10 ^ digits.length := by
  induction digits using List.reverseRecOn with
  | nil => decide
  | append_singleton digits last ih =>
      have hlast : last.toNat ≤ 57 := (hdigits last (by simp)).2
      have hrest := ih fun b hb => hdigits b (List.mem_append_left _ hb)
      rw [decimal, List.foldl_append, List.length_append, List.length_singleton, pow_succ]
      simp only [decimal] at hrest
      simp only [List.foldl_cons, List.foldl_nil]
      omega

/-- Digits alone are read without a sign. -/
theorem parseSigned_digits {text : Bytes} (hne : text ≠ []) (hdigits : ∀ b ∈ text, 48 ≤ b ∧ b ≤ 57) :
    parseSigned text = some (decimal text : Int) := by
  have hread : parseDigits text = some (decimal text) := by
    refine if_neg ?_
    simpa [hne] using hdigits
  unfold parseSigned
  split
  · exact absurd (hdigits 45 List.mem_cons_self).1 (by decide)
  · exact absurd (hdigits 43 List.mem_cons_self).1 (by decide)
  · rw [hread, Option.map_some]

/-- A timestamp is digits, at most twelve, and their number. -/
theorem parseTimestamp_eq_some {header : String} {at_ : Int64} (h : parseTimestamp header = some at_) :
    (∀ b ∈ bytesOf header, 48 ≤ b ∧ b ≤ 57) ∧ 0 ≤ at_.toInt ∧ at_.toInt < 10 ^ 12 := by
  unfold parseTimestamp at h
  split at h
  · cases h
  · rename_i hform
    simp only [Bool.or_eq_true, decide_eq_true_eq, Bool.not_eq_true', not_or, not_lt, Bool.not_eq_false,
      List.all_eq_true, Bool.and_eq_true, List.isEmpty_iff] at hform
    obtain ⟨⟨hne, hlength⟩, hdigits⟩ := hform
    have hlt : decimal (bytesOf header) < 10 ^ 12 :=
      lt_of_lt_of_le (decimal_lt hdigits) (Nat.pow_le_pow_right (by decide) hlength)
    obtain ⟨word, hword, hint⟩ := I64.ofInt_eq (decimal (bytesOf header)) (by omega)
    rw [parseI64, parseSigned_digits hne hdigits, Option.bind_some, hword] at h
    obtain rfl : word = at_ := Option.some.inj h
    rw [hint]
    exact ⟨hdigits, Int.natCast_nonneg _, by exact_mod_cast hlt⟩

/-- Whether the timestamp and the signature are of their forms and the timestamp is near `nowS`. -/
def isPlausible (timestamp signature : String) (nowS : Int64) : Panics Bool := do
  let some _ ← parseSignature signature | return false
  let some at_ := parseTimestamp timestamp | return false
  return (← I64.abs (← I64.sub nowS at_)) ≤ maxSkewS

/-- A request's check, as `verify` takes it. -/
structure Request where
  event : String
  timestamp : String
  signature : String
  body : Bytes

/-- The bytes a request's signature signs. -/
def Request.message (request : Request) : Bytes :=
  bytesOf request.event ++ 46 :: (bytesOf request.timestamp ++ 46 :: request.body)

/-- Whether the request is signed under `secret`; `hmac key message tag` is the MAC's check. -/
def verify (hmac : Bytes → Bytes → Tag → Bool) (secret : String) (request : Request) (nowS : Int64) : Panics Bool := do
  let some tag ← parseSignature request.signature | return false
  if !isEventId request.event then return false
  if !(← isPlausible request.timestamp request.signature nowS) then return false
  return hmac (bytesOf secret) request.message tag

/-! ### No overflow -/

/-- A timestamp that is read and near `nowS`. -/
def Near (timestamp : String) (nowS : Int64) : Prop :=
  ∃ at_, parseTimestamp timestamp = some at_ ∧ |nowS.toInt - at_.toInt| ≤ maxSkewS.toInt

variable {nowS : Int64}

theorem gap_eq (hnow : |nowS.toInt| ≤ 2 ^ 62) {header : String} {at_ : Int64} (h : parseTimestamp header = some at_) :
    ∃ gap : Int64, I64.sub nowS at_ = .ok gap ∧
      ∃ size : Int64, I64.abs gap = .ok size ∧ size.toInt = |nowS.toInt - at_.toInt| := by
  obtain ⟨-, hnonneg, hlt⟩ := parseTimestamp_eq_some h
  rw [abs_le] at hnow
  obtain ⟨gap, hgap, hgapInt⟩ := I64.ofInt_eq (nowS.toInt - at_.toInt) (by omega)
  have hsmall : |gap.toInt| < 2 ^ 63 := by
    rw [hgapInt, abs_lt]
    omega
  obtain ⟨size, hsize, hsizeInt⟩ := I64.ofInt_eq |gap.toInt| ⟨by have := abs_nonneg gap.toInt; omega, hsmall⟩
  exact ⟨gap, hgap, size, hsize, by rw [hsizeInt, hgapInt]⟩

theorem isPlausible_eq (hnow : |nowS.toInt| ≤ 2 ^ 62) (timestamp signature : String) :
    ∃ answer, isPlausible timestamp signature nowS = .ok answer ∧
      (answer = true ↔ (∃ tag, parseSignature signature = .ok (some tag)) ∧ Near timestamp nowS) := by
  obtain ⟨read, hread, -⟩ := parseSignature_eq signature
  unfold isPlausible
  rw [hread]
  cases read with
  | none => exact ⟨false, rfl, by simp⟩
  | some tag =>
      cases htimestamp : parseTimestamp timestamp with
      | none => exact ⟨false, rfl, by simp [Near, htimestamp]⟩
      | some at_ =>
          obtain ⟨gap, hgap, size, hsize, hint⟩ := gap_eq hnow htimestamp
          refine ⟨decide (size ≤ maxSkewS), ?_, ?_⟩
          · change (do return decide ((← I64.abs (← I64.sub nowS at_)) ≤ maxSkewS) : Panics Bool) = _
            rw [hgap]
            change (do return decide ((← I64.abs gap) ≤ maxSkewS) : Panics Bool) = _
            rw [hsize]
            rfl
          · rw [decide_eq_true_eq, Int64.le_iff_toInt_le, hint]
            simp [Near, htimestamp]

theorem verify_eq (hnow : |nowS.toInt| ≤ 2 ^ 62) (hmac : Bytes → Bytes → Tag → Bool) (secret : String)
    (request : Request) :
    ∃ answer, verify hmac secret request nowS = .ok answer ∧
      (answer = true ↔ isEventId request.event = true ∧ Near request.timestamp nowS ∧
        ∃ tag, parseSignature request.signature = .ok (some tag) ∧
          hmac (bytesOf secret) request.message tag = true) := by
  obtain ⟨read, hread, -⟩ := parseSignature_eq request.signature
  obtain ⟨near, hanswered, hnear⟩ := isPlausible_eq hnow request.timestamp request.signature
  unfold verify
  rw [hread]
  cases read with
  | none => exact ⟨false, rfl, by simp⟩
  | some tag =>
      rw [hread] at hnear
      refine ⟨isEventId request.event && near && hmac (bytesOf secret) request.message tag, ?_, ?_⟩
      · change (do
          if !isEventId request.event then return false
          if !(← isPlausible request.timestamp request.signature nowS) then return false
          return hmac (bytesOf secret) request.message tag : Panics Bool) = _
        rw [hanswered]
        cases isEventId request.event <;> cases near <;> rfl
      · rw [Bool.and_eq_true, Bool.and_eq_true, hnear]
        constructor
        · rintro ⟨⟨hevent, -, htimestamp⟩, hsigned⟩
          exact ⟨hevent, htimestamp, tag, rfl, hsigned⟩
        · rintro ⟨hevent, htimestamp, tag', htag, hsigned⟩
          cases htag
          exact ⟨⟨hevent, ⟨tag, rfl⟩, htimestamp⟩, hsigned⟩

/-! ### The signed bytes -/

theorem eventIds_splits : Splits fun event : { event // isEventId event = true } => bytesOf event ++ [46] := by
  apply Splits.of_mark
  · rintro ⟨event, hevent⟩ hmem
    simp only [isEventId, Bool.and_eq_true, List.all_eq_true] at hevent
    have hdot := hevent.2 46 hmem
    simp at hdot
  · exact bytesOf_injective.comp Subtype.val_injective

theorem timestamps_splits :
    Splits fun timestamp : { timestamp // (parseTimestamp timestamp).isSome = true } => bytesOf timestamp ++ [46] := by
  apply Splits.of_mark
  · rintro ⟨timestamp, htimestamp⟩ hmem
    obtain ⟨at_, hat⟩ := Option.isSome_iff_exists.mp htimestamp
    exact absurd ((parseTimestamp_eq_some hat).1 46 hmem).1 (by decide)
  · exact bytesOf_injective.comp Subtype.val_injective

/-- A signed message has one event, one timestamp and one body. -/
theorem message_inj {a b : Request} (ha : isEventId a.event = true) (hb : isEventId b.event = true)
    (hat : (parseTimestamp a.timestamp).isSome = true) (hbt : (parseTimestamp b.timestamp).isSome = true)
    (h : a.message = b.message) : a.event = b.event ∧ a.timestamp = b.timestamp ∧ a.body = b.body := by
  obtain ⟨hevent, hrest⟩ := @eventIds_splits ⟨_, ha⟩ ⟨_, hb⟩ (bytesOf a.timestamp ++ 46 :: a.body)
    (bytesOf b.timestamp ++ 46 :: b.body) (by simpa [Request.message] using h)
  obtain ⟨htimestamp, hbody⟩ := @timestamps_splits ⟨_, hat⟩ ⟨_, hbt⟩ a.body b.body (by simpa using hrest)
  exact ⟨congrArg Subtype.val hevent, congrArg Subtype.val htimestamp, hbody⟩

/-- A MAC's key and tag fix a request's event, timestamp and body; a signature header is read in its form only; and a
request is checked without an overflow, and passes near the clock's time only. -/
theorem signed_once :
    (∀ a b : Request, isEventId a.event = true → isEventId b.event = true → (parseTimestamp a.timestamp).isSome = true →
      (parseTimestamp b.timestamp).isSome = true → a.message = b.message →
        a.event = b.event ∧ a.timestamp = b.timestamp ∧ a.body = b.body) ∧
    (∀ header, ∃ read, parseSignature header = .ok read ∧ ∀ tag, read = some tag ↔
      ∃ hex, bytesOf header = bytesOf "v1=" ++ hex ∧ hex.length = 64 ∧ Encodes hex tag.bytes) ∧
    ∀ nowS : Int64, |nowS.toInt| ≤ 2 ^ 62 →
      (∀ timestamp signature, ∃ answer, isPlausible timestamp signature nowS = .ok answer ∧
        (answer = true → Near timestamp nowS)) ∧
      ∀ hmac secret request, ∃ answer, verify hmac secret request nowS = .ok answer ∧
        (answer = true → Near request.timestamp nowS) := by
  refine ⟨fun a b ha hb hat hbt => message_inj ha hb hat hbt, fun header => ?_, fun nowS hnow => ⟨?_, ?_⟩⟩
  · obtain ⟨read, hread, hencodes⟩ := parseSignature_eq header
    refine ⟨read, hread, fun tag => (hencodes tag).trans ⟨?_, ?_⟩⟩
    · rintro ⟨hex, heq, hhex⟩
      exact ⟨hex, heq, by rw [hhex.length_eq, tag.sized], hhex⟩
    · rintro ⟨hex, heq, -, hhex⟩
      exact ⟨hex, heq, hhex⟩
  · intro timestamp signature
    obtain ⟨answer, hanswer, htrue⟩ := isPlausible_eq hnow timestamp signature
    exact ⟨answer, hanswer, fun h => (htrue.mp h).2⟩
  · intro hmac secret request
    obtain ⟨answer, hanswer, htrue⟩ := verify_eq hnow hmac secret request
    exact ⟨answer, hanswer, fun h => (htrue.mp h).2.1⟩

end Gol.Webhook
