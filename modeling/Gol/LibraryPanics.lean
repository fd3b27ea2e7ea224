import Mathlib.Algebra.GroupWithZero.Nat
import Mathlib.Algebra.Order.Group.Unbundled.Abs
import Mathlib.Algebra.Order.Group.Int
import Mathlib.Order.Interval.Set.Basic

/-! Operations that panic outside their range. An operation of machine integers answers the number it would answer
without a bound, when its type holds that number, and panics otherwise. -/

namespace Gol.Library

inductive Panic where
  | overflow
  deriving DecidableEq

abbrev Panics (α : Type) : Type := Except Panic α

/-! ### Bytes -/

namespace U8

def ofNat (value : Nat) : Panics UInt8 := if value < 2 ^ 8 then .ok (.ofNat value) else .error .overflow

def sub (a b : UInt8) : Panics UInt8 := if b.toNat ≤ a.toNat then ofNat (a.toNat - b.toNat) else .error .overflow

def add (a b : UInt8) : Panics UInt8 := ofNat (a.toNat + b.toNat)

end U8

/-! ### Signed words of 64 bits -/

namespace I64

def ofInt (value : Int) : Panics Int64 :=
  if -2 ^ 63 ≤ value ∧ value < 2 ^ 63 then .ok (.ofInt value) else .error .overflow

def add (a b : Int64) : Panics Int64 := ofInt (a.toInt + b.toInt)

def sub (a b : Int64) : Panics Int64 := ofInt (a.toInt - b.toInt)

def abs (a : Int64) : Panics Int64 := ofInt |a.toInt|

theorem ofInt_eq (value : Int) (h : -2 ^ 63 ≤ value ∧ value < 2 ^ 63) :
    ∃ word : Int64, ofInt value = .ok word ∧ word.toInt = value :=
  ⟨.ofInt value, if_pos h, Int64.toInt_ofInt_of_le h.1 h.2⟩

end I64

end Gol.Library
