/-!
# Decimal numbers

Digits are read as a number, in whatever number they come: leading zeros are allowed. A number is
written by `Nat.toDigits 10`, which `Decimal.read?` undoes.
-/

namespace ContextFree

namespace Decimal

/-- The number that decimal digits stand for, if there is at least one. -/
def read? (cs : List Char) : Option Nat :=
  if cs ≠ [] ∧ cs.all Char.isDigit then some (Nat.ofDigitChars 10 cs 0) else none

theorem isDigit_of_mem_toDigits {n : Nat} {c : Char} (h : c ∈ Nat.toDigits 10 n) : c.isDigit :=
  Nat.isDigit_of_mem_toDigits (by decide) (by decide) h

theorem all_isDigit_toDigits (n : Nat) : (Nat.toDigits 10 n).all Char.isDigit := by
  simpa using fun c hc => isDigit_of_mem_toDigits hc

@[simp]
theorem read?_toDigits (n : Nat) : read? (Nat.toDigits 10 n) = some n := by
  simp [read?, all_isDigit_toDigits]

end Decimal

end ContextFree
