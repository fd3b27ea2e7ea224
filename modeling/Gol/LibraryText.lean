import Mathlib.Algebra.GroupWithZero.Nat
import Mathlib.Data.List.Basic

/-! Texts and their bytes in UTF-8. A text is read back from its bytes, and bytes that read as a text are its bytes. -/

namespace Gol.Library

abbrev Bytes := List UInt8

/-- A text's bytes, in UTF-8. -/
def bytesOf (text : String) : Bytes := text.toByteArray.data.toList

/-- The text of these bytes (`str::from_utf8`). -/
def textOf (bytes : Bytes) : Option String := String.fromUTF8? ⟨bytes.toArray⟩

theorem textOf_bytesOf (text : String) : textOf (bytesOf text) = some text :=
  dif_pos text.isValidUTF8

theorem textOf_eq_some {bytes : Bytes} {text : String} : textOf bytes = some text ↔ bytes = bytesOf text := by
  constructor
  · intro h
    rw [textOf, String.fromUTF8?] at h
    split at h
    · rw [← Option.some.inj h]
      rfl
    · cases h
  · rintro rfl
    exact textOf_bytesOf text

theorem bytesOf_injective : Function.Injective bytesOf := by
  intro a b h
  have hsome := congrArg textOf h
  rw [textOf_bytesOf, textOf_bytesOf] at hsome
  exact Option.some.inj hsome

@[simp] theorem bytesOf_append (a b : String) : bytesOf (a ++ b) = bytesOf a ++ bytesOf b := by
  simp only [bytesOf, String.toByteArray_append, ByteArray.data_append, Array.toList_append]

theorem bytesOf_intercalate (separator : String) (texts : List String) :
    bytesOf (separator.intercalate texts) = (bytesOf separator).intercalate (texts.map bytesOf) := by
  induction texts with
  | nil => rfl
  | cons text rest ih =>
      cases rest with
      | nil => rw [String.intercalate_singleton, List.map_singleton, List.intercalate_singleton]
      | cons next rest =>
          rw [String.intercalate_cons_cons, bytesOf_append, bytesOf_append, ih]
          simp only [List.map_cons, List.intercalate_cons_cons]

/-! ### Characters -/

theorem utf8ByteSize_ofList (chars : List Char) :
    (String.ofList chars).utf8ByteSize = (chars.map Char.utf8Size).sum := by
  induction chars with
  | nil => rfl
  | cons c rest ih =>
      have hcons : String.ofList (c :: rest) = String.singleton c ++ String.ofList rest := by
        apply String.toList_injective
        simp
      rw [hcons, String.utf8ByteSize_append, String.utf8ByteSize_singleton, ih, List.map_cons, List.sum_cons]

theorem utf8ByteSize_eq (text : String) : text.utf8ByteSize = (text.toList.map Char.utf8Size).sum := by
  rw [← utf8ByteSize_ofList, String.ofList_toList]

end Gol.Library

namespace Gol

/-- The characters at the front that take at most `room` bytes. -/
def cappedChars (room : Nat) : List Char → List Char
  | [] => []
  | c :: rest => if c.utf8Size ≤ room then c :: cappedChars (room - c.utf8Size) rest else []

end Gol
