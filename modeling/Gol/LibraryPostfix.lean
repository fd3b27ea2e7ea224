import Mathlib.Data.List.Basic

/-! Values in postfix. A machine reads tokens onto a stack; a token takes some values off it and puts one in their
place, which is written as theirs and the token. Then what it has read is what its stack is written as; and where it
reads some values back from their writing, it reads a line as such a value exactly when the line is the value's
writing. -/

namespace Gol.Library

variable {τ ν ε : Type*}

/-- What the stack's values are written as, the bottom first. -/
def written (write : ν → List τ) (stack : List ν) : List τ := stack.reverse.flatMap write

/-- The machine `step`, the writing of its values, and the values it reads back. -/
structure Postfix (step : List ν → τ → Except ε (List ν)) (write : ν → List τ) (Readable : ν → Prop) : Prop where
  made : ∀ {stack token later}, step stack token = .ok later → written write later = written write stack ++ [token]
  read : ∀ {value}, Readable value → ∀ stack, (write value).foldlM step stack = .ok (value :: stack)

variable {step : List ν → τ → Except ε (List ν)} {write : ν → List τ} {Readable : ν → Prop}

theorem written_cons (value : ν) (stack : List ν) :
    written write (value :: stack) = written write stack ++ write value := by
  rw [written, List.reverse_cons, List.flatMap_append, List.flatMap_singleton, written]

theorem written_singleton (value : ν) : written write [value] = write value := by
  rw [written_cons, written, List.reverse_nil, List.flatMap_nil, List.nil_append]

/-- The stack is written as what it was and what was read. -/
theorem Postfix.written_foldlM (h : Postfix step write Readable) {tokens : List τ} {stack later : List ν}
    (hread : tokens.foldlM step stack = .ok later) : written write later = written write stack ++ tokens := by
  induction tokens generalizing stack with
  | nil =>
      obtain rfl : stack = later := Except.ok.inj hread
      rw [List.append_nil]
  | cons token rest ih =>
      rw [List.foldlM_cons] at hread
      cases hstep : step stack token with
      | error error =>
          rw [hstep] at hread
          cases hread
      | ok next =>
          rw [hstep] at hread
          rw [ih hread, h.made hstep, List.append_assoc, List.singleton_append]

/-- A line that leaves one value is its writing. -/
theorem Postfix.eq_write (h : Postfix step write Readable) {tokens : List τ} {value : ν}
    (hread : tokens.foldlM step [] = .ok [value]) : tokens = write value := by
  have hwritten := h.written_foldlM hread
  rw [written_singleton] at hwritten
  exact hwritten.symm

end Gol.Library
