import ContextFree.Grammar.Basic

/-!
# Grammars as text

In BNF a rule is a line of its left side, `::=`, its right side and a semicolon. Symbols are shown
by their displayed names, with one space between them, and an empty right side is shown as `()`.
-/

namespace ContextFree

namespace Grammar

/-- The right side of a rule as text. -/
def bnfRhs (v : Vocabulary) (rhs : List Symbol) : String :=
  if rhs.isEmpty then "()" else v.displayNames rhs

/-- A rule as a line of text. -/
def bnfLine (v : Vocabulary) (r : Rule) : String :=
  v.displayName r.lhs ++ " ::= " ++ bnfRhs v r.rhs ++ ";\n"

/-- The rules of a grammar as text, a line each. -/
def toBnf (g : Grammar) : String :=
  String.join (g.rules.map (bnfLine g.vocabulary))

end Grammar

end ContextFree
