import ContextFree.Grammar.Basic

/-!
# Rules from names

Rules may be given by the names of their symbols. Each name stands for its owner, and gets a new
symbol when it is met for the first time, the left side of a rule before its right side.

`Grammar.build` adds rules by a chain of steps that share a current left side.

The other way round, `Grammar.namedRules` shows the rules of a grammar by the displayed names of
their symbols.
-/

namespace ContextFree

namespace Grammar

/-- A rule as the names of its symbols. -/
structure NamedRule where
  lhs : String
  rhs : List String
deriving DecidableEq, Repr

/-- The names, that of the left side first. -/
def NamedRule.names (r : NamedRule) : List String :=
  r.lhs :: r.rhs

/-- The symbols that own the given names, with new ones for the names that have no owner. -/
def internAll (names : List String) : Action Grammar (List Symbol) :=
  onVocabulary (names.mapM Vocabulary.intern)

/-- Adds a rule given by names. -/
def addNamedRule (r : NamedRule) : Action Grammar Unit := do
  let lhs ← onVocabulary (Vocabulary.intern r.lhs)
  let rhs ← internAll r.rhs
  modify (·.addRule ⟨lhs, rhs⟩)

/-- The grammar of the given rules. -/
def ofNamedRules (rules : List NamedRule) : Except OutOfSymbols Grammar :=
  match (rules.forM addNamedRule) empty with
  | .ok _ g => .ok g
  | .error e _ => .error e

/-! ## Chains of rules -/

/-- One step of a chain of rules. -/
inductive BuildStep where
  /-- From here on the rules are for `s`. -/
  | switchTo (s : Symbol)
  /-- Adds an alternative. -/
  | alternative (rhs : List Symbol)
  /-- Adds an alternative given by names. -/
  | namedAlternative (rhs : List String)
deriving DecidableEq, Repr

/-- Runs a chain of steps that starts with the left side `lhs`. -/
def build (lhs : Symbol) : List BuildStep → Action Grammar Unit
  | [] => pure ()
  | .switchTo s :: steps => build s steps
  | .alternative rhs :: steps => do
    modify (·.addRule ⟨lhs, rhs⟩)
    build lhs steps
  | .namedAlternative names :: steps => do
    let rhs ← internAll names
    modify (·.addRule ⟨lhs, rhs⟩)
    build lhs steps

/-! ## Rules as names -/

/-- The rules of a grammar, with the displayed names of their symbols. -/
def namedRules (g : Grammar) : List NamedRule :=
  g.rules.map fun r => ⟨g.vocabulary.displayName r.lhs, r.rhs.map g.vocabulary.displayName⟩

end Grammar

end ContextFree
