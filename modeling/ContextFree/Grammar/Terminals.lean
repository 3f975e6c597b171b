import ContextFree.Grammar.Basic
import ContextFree.SymbolSet

/-!
# Terminals

A terminal is a symbol of the vocabulary that has no rule, be it in use or not. A rule of a symbol
that the vocabulary has never issued is an error: the first such symbol is reported.
-/

namespace ContextFree

/-- The symbols of the vocabulary that have no rule. -/
def Grammar.terminals (g : Grammar) : Except OutOfRange SymbolSet :=
  (SymbolSet.full g.vocabulary.size).eraseAll g.nonterminals

end ContextFree
