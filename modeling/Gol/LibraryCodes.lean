import Mathlib.Data.List.Basic
import Mathlib.Data.Nat.Digits.Defs

/-! Values written one after another. A writing that is read off the front of any text can be followed by anything, so
a row of such writings has one reading. Writings of one length are such, and writings closed by a mark they do not
hold, and texts that follow a writing of their size. Numbers are written in decimal digits, or in hexadecimal with
leading zeros. -/

namespace Gol.Library

variable {σ α β : Type*}

/-- No text begins with the writings of two values, and what follows the value's is known. -/
def Splits (write : α → List σ) : Prop :=
  ∀ ⦃a b : α⦄ ⦃rest rest' : List σ⦄, write a ++ rest = write b ++ rest' → a = b ∧ rest = rest'

namespace Splits

theorem comp {write : β → List σ} (h : Splits write) {f : α → β} (hf : Function.Injective f) :
    Splits fun a => write (f a) := by
  intro a b rest rest' heq
  obtain ⟨hab, hrest⟩ := h heq
  exact ⟨hf hab, hrest⟩

theorem pair {write : α → List σ} {write' : β → List σ} (h : Splits write) (h' : Splits write') :
    Splits fun both : α × β => write both.1 ++ write' both.2 := by
  rintro ⟨a, b⟩ ⟨a', b'⟩ rest rest' heq
  rw [List.append_assoc, List.append_assoc] at heq
  obtain ⟨hfirst, heq⟩ := h heq
  obtain ⟨hsecond, hrest⟩ := h' heq
  exact ⟨Prod.ext hfirst hsecond, hrest⟩

/-- Writings of one length. -/
theorem of_length {write : α → List σ} {size : Nat} (hsize : ∀ a, (write a).length = size)
    (h : Function.Injective write) :
    Splits write := by
  intro a b rest rest' heq
  obtain ⟨hab, hrest⟩ := List.append_inj heq (by rw [hsize, hsize])
  exact ⟨h hab, hrest⟩

/-- Writings closed by a mark that is in none of them. -/
theorem of_mark {write : α → List σ} (mark : σ) (hmark : ∀ a, mark ∉ write a) (h : Function.Injective write) :
    Splits fun a => write a ++ [mark] := by
  intro a b rest rest' heq
  simp only [List.append_assoc, List.singleton_append] at heq
  rcases List.append_eq_append_iff.mp heq with ⟨more, hb, hrest⟩ | ⟨more, ha, hrest⟩
  · cases more with
    | nil =>
        rw [List.append_nil] at hb
        exact ⟨(h hb).symm, (List.cons.inj hrest).2⟩
    | cons first more =>
        obtain ⟨rfl, -⟩ := List.cons.inj hrest
        exact absurd (hb ▸ by simp) (hmark b)
  · cases more with
    | nil =>
        rw [List.append_nil] at ha
        exact ⟨h ha, (List.cons.inj hrest).2.symm⟩
    | cons first more =>
        obtain ⟨rfl, -⟩ := List.cons.inj hrest
        exact absurd (ha ▸ by simp) (hmark a)

/-- Texts that follow the writing of their size, each symbol of which counts. -/
theorem sized {write : Nat → List σ} (h : Splits write) {size : σ → Nat} (hsize : ∀ s, 0 < size s) :
    Splits fun text : List σ => write (text.map size).sum ++ text := by
  have hempty : ∀ {text more : List σ}, ((text ++ more).map size).sum = (text.map size).sum → more = [] := by
    intro text more hsum
    rw [List.map_append, List.sum_append] at hsum
    cases more with
    | nil => rfl
    | cons first more =>
        have hfirst := hsize first
        rw [List.map_cons, List.sum_cons] at hsum
        omega
  intro text text' rest rest' heq
  rw [List.append_assoc, List.append_assoc] at heq
  obtain ⟨hsum, heq⟩ := h heq
  rcases List.append_eq_append_iff.mp heq with ⟨more, rfl, hrest⟩ | ⟨more, rfl, hrest⟩
  · obtain rfl := hempty hsum.symm
    exact ⟨(List.append_nil _).symm, by simpa using hrest⟩
  · obtain rfl := hempty hsum
    exact ⟨List.append_nil _, by simpa using hrest.symm⟩

end Splits

/-! ### Numbers -/

theorem decimal_injective : Function.Injective (Nat.toDigits 10) := by
  intro n m h
  have hread := congrArg (fun digits => Nat.ofDigitChars 10 digits 0) h
  simpa using hread

/-- A character that is no digit is in no number. -/
theorem not_mem_decimal {c : Char} (hc : c.isDigit = false) (n : Nat) : c ∉ Nat.toDigits 10 n := by
  intro hmem
  have hdigit := Nat.isDigit_of_mem_toDigits (by decide) (by decide) hmem
  rw [hc] at hdigit
  cases hdigit

/-- The value of a hexadecimal digit. -/
def hexValue (c : Char) : Nat := if c.isDigit then c.toNat - 48 else c.toNat - 87

theorem hexValue_digitChar : ∀ n < 16, hexValue n.digitChar = n := by decide

/-- The number that hexadecimal digits write. -/
def ofHex (digits : List Char) : Nat := digits.foldl (fun n c => 16 * n + hexValue c) 0

theorem ofHex_snoc (digits : List Char) (c : Char) : ofHex (digits ++ [c]) = 16 * ofHex digits + hexValue c := by
  rw [ofHex, List.foldl_append]
  rfl

theorem ofHex_toDigits (n : Nat) : ofHex (Nat.toDigits 16 n) = n := by
  induction n using Nat.strongRecOn with
  | ind n ih =>
      by_cases hsmall : n < 16
      · rw [Nat.toDigits_of_lt_base hsmall]
        simp [ofHex, hexValue_digitChar n hsmall]
      · rw [Nat.toDigits_of_base_le (by decide) (by omega), ofHex_snoc, ih (n / 16) (by omega),
          hexValue_digitChar _ (Nat.mod_lt n (by decide))]
        omega

theorem ofHex_zeros (count : Nat) (digits : List Char) : ofHex (List.replicate count '0' ++ digits) = ofHex digits := by
  have hzero : List.foldl (fun n c => 16 * n + hexValue c) 0 (List.replicate count '0') = 0 := by
    induction count with
    | zero => rfl
    | succ count ih => exact ih
  rw [ofHex, List.foldl_append, hzero, ofHex]

end Gol.Library
