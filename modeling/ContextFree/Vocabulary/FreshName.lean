import ContextFree.Vocabulary.Basic

/-!
# Taken names and fresh names

A name is taken if it is recorded, or if it reads as the placeholder of a symbol without a name.
`Vocabulary.freshName` numbers a base name from one on until the result is not taken. There are only
`size` symbols to take a name, so of `size + 1` numbers one is free.
-/

namespace ContextFree

namespace Vocabulary

/-- Is the name in use, be it recorded or a placeholder? -/
def isTaken (v : Vocabulary) (name : String) : Bool :=
  (v.find? name).isSome ||
    match Placeholder.number? name with
    | some id => v.names[id]? == some none
    | none => false

/-- What stands between a base name and its number. After a base that looks like a placeholder, or
like the beginning of one, an underscore keeps the result from being the placeholder of a symbol
that is yet to come. -/
def separator (base : String) : String :=
  if Placeholder.hasShape base then "_" else ""

/-- The base name with a number. -/
def numbered (base : String) (n : Nat) : String :=
  base ++ separator base ++ toString n

/-- The least positive number that makes a free name out of the base. -/
def freshNumber (v : Vocabulary) (base : String) : Nat :=
  ((List.range' 1 v.size).find? fun n => !v.isTaken (numbered base n)).getD (v.size + 1)

/-- A name for a new symbol that is derived from `s`. -/
def freshName (v : Vocabulary) (s : Symbol) : String :=
  numbered (v.displayName s) (v.freshNumber (v.displayName s))

end Vocabulary

end ContextFree
