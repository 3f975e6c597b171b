import Std.Data.ExtTreeMap
import ContextFree.Symbol

/-!
# Alternatives by first symbol

Alternatives are sorted into classes, one for each symbol that any of them begins with. The walk
goes along the alternatives once. A symbol that is met for the first time opens a class at the end,
and a table remembers where the class of each symbol is. An empty alternative is in no class.

Alternatives are named by position.
-/

namespace ContextFree

namespace Factoring

/-- Alternatives by first symbol, as far as the walk has come. -/
structure Partition where
  /-- Where the class of each first symbol is. -/
  slots : Std.ExtTreeMap Symbol Nat
  /-- The positions of the alternatives in each class, in ascending order. -/
  classes : List (List Nat)

namespace Partition

/-- The partition before the walk. -/
def empty : Partition :=
  ⟨∅, []⟩

instance : Inhabited Partition :=
  ⟨empty⟩

/-- Puts a position into the class of the symbol `first`. -/
def enter (p : Partition) (first : Symbol) (pos : Nat) : Partition :=
  match p.slots[first]? with
  | some slot => { p with classes := p.classes.modify slot (· ++ [pos]) }
  | none => ⟨p.slots.insert first p.classes.length, p.classes ++ [[pos]]⟩

/-- Looks at an alternative and its position. -/
def look (p : Partition) (entry : List Symbol × Nat) : Partition :=
  match entry.1.head? with
  | none => p
  | some first => p.enter first entry.2

/-- The partition of a list of alternatives. -/
def ofAlternatives (alternatives : List (List Symbol)) : Partition :=
  alternatives.zipIdx.foldl look empty

theorem ofAlternatives_concat (alternatives : List (List Symbol)) (rhs : List Symbol) :
    ofAlternatives (alternatives ++ [rhs]) =
      (ofAlternatives alternatives).look (rhs, alternatives.length) := by
  simp [ofAlternatives, List.zipIdx_append]

end Partition

end Factoring

end ContextFree
