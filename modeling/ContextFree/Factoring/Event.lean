/-!
# Events of factoring

What is reported while a grammar is factored. An event holds the names under which its symbols were
displayed when it happened.
-/

namespace ContextFree

namespace Factoring

/-- How much an event matters. -/
inductive Level where
  | trace
  | debug
deriving DecidableEq, Repr

/-- Something that happened to a grammar. -/
inductive Event where
  /-- A fresh symbol was issued for another one. -/
  | introduced (fresh base : String)
  /-- What a group of alternatives shares was moved in front of a fresh symbol. -/
  | factoredOut (shared lhs fresh : String)
  /-- The rules of a symbol were replaced, which left so many rules in all. -/
  | replaced (lhs : String) (numRules : Nat)
  /-- A fresh symbol is looked at in turn. -/
  | revisited (symbol : String)
deriving DecidableEq, Repr

namespace Event

/-- The level at which an event is reported. -/
def level : Event → Level
  | .factoredOut .. => .debug
  | _ => .trace

/-- The text with which an event is reported. -/
def message : Event → String
  | .introduced fresh base => "introduced " ++ fresh ++ " for " ++ base
  | .factoredOut shared lhs fresh =>
    "Factoring " ++ shared ++ " out from " ++ lhs ++ " into " ++ fresh
  | .replaced lhs numRules =>
    "replaced the group of " ++ lhs ++ ", now " ++ toString numRules ++ " rules"
  | .revisited symbol => "Left-factoring " ++ symbol ++ " again"

end Event

end Factoring

end ContextFree
