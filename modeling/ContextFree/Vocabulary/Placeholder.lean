import ContextFree.Decimal

/-!
# Placeholder names

A symbol without a name is displayed as `g` and its number. Reading such a name back is more
generous than writing it: the number may have leading zeros and one `+` in front.
-/

namespace ContextFree

namespace Placeholder

/-- The name under which an unnamed symbol of number `id` is displayed. -/
def name (id : Nat) : String :=
  "g" ++ toString id

/-- The number that a numeral stands for: digits, after a `+` or not. -/
def numeral? : List Char → Option Nat
  | '+' :: cs => Decimal.read? cs
  | cs => Decimal.read? cs

/-- The number that a name made of `g` and a numeral stands for. -/
def number? (name : String) : Option Nat :=
  match name.toList with
  | 'g' :: cs => numeral? cs
  | _ => none

/-- Is the name `g` followed by digits alone, or by nothing? -/
def hasShape (name : String) : Bool :=
  match name.toList with
  | 'g' :: cs => cs.all Char.isDigit
  | _ => false

/-! ## Reading what was written -/

theorem toList_name (id : Nat) : (name id).toList = 'g' :: Nat.toDigits 10 id := by
  simp [name]

/-- A numeral without a sign is its digits. -/
theorem numeral?_of_head_ne {cs : List Char} (h : cs.head? ≠ some '+') :
    numeral? cs = Decimal.read? cs := by
  unfold numeral?
  split
  · simp at h
  · rfl

theorem number?_name (id : Nat) : number? (name id) = some id := by
  simp only [number?, toList_name]
  rw [numeral?_of_head_ne, Decimal.read?_toDigits]
  intro h
  have : '+'.isDigit := Decimal.isDigit_of_mem_toDigits (List.mem_of_head? h)
  exact absurd this (by decide)

/-- Every placeholder has the shape of one. -/
theorem hasShape_name (id : Nat) : hasShape (name id) := by
  simp only [hasShape, toList_name, Decimal.all_isDigit_toDigits]

end Placeholder

end ContextFree
