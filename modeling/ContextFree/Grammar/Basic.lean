import ContextFree.RuleIndex
import ContextFree.Vocabulary.FreshName

/-!
# Grammars

A grammar is a list of rules over a vocabulary. The order of the rules counts: the alternatives of a
symbol are its rules in that order. The index of the rules is kept beside them, and every grammar
carries the proof that it is the index of its own rules.

The vocabulary is not asked whether it has issued the symbols that a rule uses.
-/

namespace ContextFree

/-- A context-free grammar. -/
structure Grammar where
  vocabulary : Vocabulary
  rules : List Rule
  index : RuleIndex
  /-- The index is the one of the rules. -/
  index_eq : index = RuleIndex.ofRules rules

namespace Grammar

/-- Two grammars with one vocabulary and the same rules are the same. -/
@[ext]
theorem ext {g h : Grammar} (hv : g.vocabulary = h.vocabulary) (hr : g.rules = h.rules) :
    g = h := by
  rcases g with ⟨_, _, _, rfl⟩
  rcases h with ⟨_, _, _, rfl⟩
  cases hv
  cases hr
  rfl

/-- The grammar with the given vocabulary and rules. -/
def ofRules (vocabulary : Vocabulary) (rules : List Rule) : Grammar :=
  ⟨vocabulary, rules, RuleIndex.ofRules rules, rfl⟩

/-- The grammar without symbols and rules. -/
def empty : Grammar :=
  ofRules .empty []

instance : Inhabited Grammar :=
  ⟨empty⟩

/-- Acts on the vocabulary of a grammar and leaves the rules alone. -/
def onVocabulary {α : Type} (act : Action Vocabulary α) :
    Action Grammar α := fun g =>
  match act g.vocabulary with
  | .ok a v => .ok a { g with vocabulary := v }
  | .error e v => .error e { g with vocabulary := v }

/-- Adds a rule at the end. -/
def addRule (g : Grammar) (r : Rule) : Grammar where
  vocabulary := g.vocabulary
  rules := g.rules ++ [r]
  index := g.index.push r.lhs g.rules.length
  index_eq := by rw [g.index_eq, RuleIndex.ofRules_concat]

/-! ## Asking for rules -/

/-- The rules of a symbol, in order. -/
def alternatives (g : Grammar) (s : Symbol) : List Rule :=
  (g.index.positions s).filterMap (g.rules[·]?)

/-- How many rules a symbol has. -/
def numAlternatives (g : Grammar) (s : Symbol) : Nat :=
  (g.index.positions s).length

/-- Has the symbol a rule? -/
def isNonterminal (g : Grammar) (s : Symbol) : Bool :=
  g.index.contains s

/-- The symbols that have a rule, by their first rules. -/
def nonterminals (g : Grammar) : List Symbol :=
  g.index.leftSides

/-! ## Replacing rules -/

/-- Goes along old rules, each with its position, and leaves those of `s` out. The new rules are put
in where the walk comes to `place`, or at the end if it never does; once they are in, there are
`none` left to put in. -/
def replaceAlong (s : Symbol) (place : Option Nat) :
    Option (List Rule) → List (Rule × Nat) → List Rule
  | new?, [] => new?.getD []
  | new?, (r, i) :: rest =>
    let kept := if r.lhs ≠ s then [r] else []
    if some i = place then new?.getD [] ++ kept ++ replaceAlong s place none rest
    else kept ++ replaceAlong s place new? rest

/-- Replaces the rules of `s`. The new rules, of whatever left sides, come where the first old one
was, or at the end if there was none. -/
def replaceAlternatives (g : Grammar) (s : Symbol) (new : List Rule) : Grammar :=
  let place := (g.index.positions s).head?
  ofRules g.vocabulary (replaceAlong s place (some new) g.rules.zipIdx)

end Grammar

end ContextFree
