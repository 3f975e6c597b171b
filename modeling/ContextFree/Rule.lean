import ContextFree.Symbol

/-!
# Rules

A rule rewrites its left side, one symbol, to its right side, a sequence of symbols.
-/

namespace ContextFree

/-- A rule of a context-free grammar. -/
structure Rule where
  lhs : Symbol
  rhs : List Symbol
deriving DecidableEq, Repr, Inhabited

/-- Does the rule rewrite its left side to nothing? -/
def Rule.isEpsilon (r : Rule) : Bool :=
  r.rhs.isEmpty

end ContextFree
