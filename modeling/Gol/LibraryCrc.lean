import Mathlib.Data.List.Basic

/-! CRC-32 (reflected, polynomial `0x04C11DB7`). A byte goes into the remainder by a permutation of it, and two bytes
leave two remainders, so texts that differ in one byte have two sums. -/

namespace Gol.Library.Crc

/-- The polynomial, reflected. -/
def poly : BitVec 32 := 0xEDB88320

def shift (c : BitVec 32) : BitVec 32 := if c.getLsbD 0 then (c >>> 1) ^^^ poly else c >>> 1

def shifts : Nat → BitVec 32 → BitVec 32
  | 0, c => c
  | n + 1, c => shifts n (shift c)

/-- The remainder after one more byte. -/
def byte (c : BitVec 32) (b : UInt8) : BitVec 32 := shifts 8 (c ^^^ b.toBitVec.setWidth 32)

def crc32 (bytes : List UInt8) : UInt32 := ⟨~~~ bytes.foldl byte 0xFFFFFFFF⟩

/-- The sum of `123456789`. -/
example : crc32 [0x31, 0x32, 0x33, 0x34, 0x35, 0x36, 0x37, 0x38, 0x39] = 0xCBF43926 := by decide +kernel

theorem shift_getLsbD (c : BitVec 32) (i : Nat) :
    (shift c).getLsbD i = (c.getLsbD (i + 1) ^^ (c.getLsbD 0 && poly.getLsbD i)) := by
  rw [shift]
  cases hlow : c.getLsbD 0 <;> simp [Nat.add_comm 1 i]

/-- The highest bit is the one shifted out, so the shift is undone. -/
theorem shift_injective : Function.Injective shift := by
  intro a b h
  have hbit : ∀ i, (a.getLsbD (i + 1) ^^ (a.getLsbD 0 && poly.getLsbD i)) =
      (b.getLsbD (i + 1) ^^ (b.getLsbD 0 && poly.getLsbD i)) := by
    intro i
    rw [← shift_getLsbD, ← shift_getLsbD, h]
  have hlow : a.getLsbD 0 = b.getLsbD 0 := by
    have htop : poly.getLsbD 31 = true := by decide
    have houts := hbit 31
    rwa [BitVec.getLsbD_of_ge a _ (by decide), BitVec.getLsbD_of_ge b _ (by decide), htop, Bool.and_true, Bool.and_true,
      Bool.false_xor, Bool.false_xor] at houts
  refine BitVec.eq_of_getLsbD_eq fun i _ => ?_
  cases i with
  | zero => exact hlow
  | succ i =>
      have hnext := hbit i
      rw [hlow] at hnext
      exact Bool.xor_left_inj.mp hnext

theorem shifts_injective (n : Nat) : Function.Injective (shifts n) := by
  induction n with
  | zero => exact fun _ _ h => h
  | succ n ih => exact ih.comp shift_injective

theorem byte_left_injective (b : UInt8) : Function.Injective (byte · b) := by
  intro c d h
  exact (BitVec.xor_left_inj _).mp (shifts_injective 8 h)

theorem byte_right_injective (c : BitVec 32) : Function.Injective (byte c) := by
  intro a b h
  have hwide := (BitVec.xor_right_inj _).mp (shifts_injective 8 h)
  have hnarrow := congrArg (BitVec.setWidth 8) hwide
  rw [BitVec.setWidth_setWidth_of_le _ (by decide), BitVec.setWidth_setWidth_of_le _ (by decide)] at hnarrow
  exact UInt8.toBitVec_inj.mp (by simpa using hnarrow)

theorem foldl_injective (bytes : List UInt8) : Function.Injective (bytes.foldl byte) := by
  induction bytes with
  | nil => exact fun _ _ h => h
  | cons b rest ih =>
      intro c d h
      exact byte_left_injective b (ih h)

/-- Two texts that differ in one byte have two sums. -/
theorem crc32_byte {before after : List UInt8} {a b : UInt8}
    (h : crc32 (before ++ a :: after) = crc32 (before ++ b :: after)) :
    a = b := by
  have hsums := congrArg UInt32.toBitVec h
  simp only [crc32, List.foldl_append, List.foldl_cons] at hsums
  have hremainders := BitVec.not_inj.mp hsums
  exact byte_right_injective _ (foldl_injective after hremainders)

end Gol.Library.Crc
