import ContextFree.Grammar.Basic
import ContextFree.Json.Parse
import ContextFree.Json.Record
import ContextFree.Json.Write

/-!
# Grammars as JSON

A symbol is a record of its number plus one, a rule a record of its sides, and a grammar a record of
its vocabulary and its rules. A vocabulary is the array of its names, with `null` for a symbol
without one. The owners of names and the index of the rules are not written: they follow from the
rest.
-/

namespace ContextFree

/-- Why a text was not read. -/
inductive ReadError where
  /-- The text does not spell what was to be read. -/
  | malformed
  /-- There are more names than symbols. -/
  | outOfSymbols (e : OutOfSymbols)
deriving DecidableEq, Repr

/-- What was read, unless the text was malformed. -/
def orMalformed {α : Type} (a? : Option α) : Except ReadError α :=
  match a? with
  | some a => .ok a
  | none => .error .malformed

/-- The items of an array, each read in the same way. -/
def Json.items? {α : Type} (item? : Json → Option α) : Json → Option (List α)
  | .array items => items.mapM item?
  | _ => none

/-! ## Symbols -/

namespace Symbol

/-- A symbol as a record. -/
def toJson (s : Symbol) : Json :=
  .ofMembers [("n", .number (Nat.toDigits 10 (s.id + 1)))]

/-- The symbol that is one less than `n`. -/
def ofSucc? (n : Nat) : Option Symbol :=
  if h : 0 < n ∧ n < 4294967296 then some ⟨n - 1, by omega⟩ else none

/-- The symbol of a number that is spelled with digits only. -/
def ofNumber? : Json → Option Symbol
  | .number literal => (Decimal.read? literal).bind ofSucc?
  | _ => none

/-- The symbol that a record spells. -/
def ofJson? (v : Json) : Option Symbol :=
  match v.fields? ["n"] with
  | some [n] => ofNumber? n
  | _ => none

/-- The symbol that a text spells. -/
def read (text : String) : Except ReadError Symbol :=
  orMalformed ((Json.parse? text).bind ofJson?)

end Symbol

/-! ## Rules -/

namespace Rule

/-- A rule as a record. -/
def toJson (r : Rule) : Json :=
  .ofMembers [("lhs", r.lhs.toJson), ("rhs", .array (r.rhs.map Symbol.toJson))]

/-- The rule that a record spells. -/
def ofJson? (v : Json) : Option Rule :=
  match v.fields? ["lhs", "rhs"] with
  | some [lhs, rhs] => do
    let lhs ← Symbol.ofJson? lhs
    let rhs ← Json.items? Symbol.ofJson? rhs
    return ⟨lhs, rhs⟩
  | _ => none

/-- The rule that a text spells. -/
def read (text : String) : Except ReadError Rule :=
  orMalformed ((Json.parse? text).bind ofJson?)

end Rule

/-! ## Vocabularies -/

namespace Vocabulary

/-- What is recorded for a symbol: a text or nothing. -/
def nameToJson : Option String → Json
  | some name => .string (Json.Piece.ofText name)
  | none => .null

/-- What a text, or `null`, records for a symbol. -/
def nameOfJson? : Json → Option (Option String)
  | .null => some none
  | .string pieces => (Json.Piece.text? pieces).map fun cs => some (String.ofList cs)
  | _ => none

/-- A vocabulary as an array. -/
def toJson (v : Vocabulary) : Json :=
  .array (v.names.map nameToJson)

/-- The vocabulary that an array spells. -/
def ofJson (v : Json) : Except ReadError Vocabulary := do
  let names ← orMalformed (Json.items? nameOfJson? v)
  (ofNames names).mapError .outOfSymbols

/-- The vocabulary that a text spells. -/
def read (text : String) : Except ReadError Vocabulary := do
  ofJson (← orMalformed (Json.parse? text))

end Vocabulary

/-! ## Grammars -/

namespace Grammar

/-- A grammar as a record. -/
def toJson (g : Grammar) : Json :=
  .ofMembers [("sym_source", g.vocabulary.toJson), ("rules", .array (g.rules.map Rule.toJson))]

/-- The grammar that a record spells. -/
def ofJson (v : Json) : Except ReadError Grammar :=
  match v.fields? ["sym_source", "rules"] with
  | some [vocabulary, rules] => do
    let vocabulary ← Vocabulary.ofJson vocabulary
    let rules ← orMalformed (Json.items? Rule.ofJson? rules)
    return ofRules vocabulary rules
  | _ => .error .malformed

/-- The grammar that a text spells. -/
def read (text : String) : Except ReadError Grammar := do
  ofJson (← orMalformed (Json.parse? text))

end Grammar

end ContextFree
