import ContextFree.Factoring.CommonPrefix
import ContextFree.Factoring.Partition
import ContextFree.Grammar.Basic

/-!
# Groups of alternatives

A group is made of alternatives of one nonterminal that begin alike. A policy says which
alternatives are put together: those that begin with one symbol, or all of them.

Alternatives are given as the list of their right sides, and named by position in that list.
-/

namespace ContextFree

namespace Factoring

/-- Which alternatives are put together. -/
inductive Policy where
  /-- Those that begin with the same symbol. -/
  | grouped
  /-- All of them or none. -/
  | global
deriving DecidableEq, Repr, Inhabited

/-- Alternatives that begin alike. -/
structure Group where
  /-- The longest sequence that all members begin with. -/
  shared : List Symbol
  /-- The positions of the members, in ascending order. -/
  members : List Nat
deriving DecidableEq, Repr

/-- The alternatives at the given positions, as a group. -/
def Group.ofMembers (alternatives : List (List Symbol)) (members : List Nat) : Group :=
  ⟨longestCommon (members.filterMap (alternatives[·]?)), members⟩

/-- A group for each symbol that two or more alternatives begin with, by their first members. -/
def groupsByFirst (alternatives : List (List Symbol)) : List Group :=
  if alternatives.length < 2 then []
  else ((Partition.ofAlternatives alternatives).classes.filter (2 ≤ ·.length)).map
    (Group.ofMembers alternatives)

/-- The group of all alternatives, if they begin alike. -/
def groupOfAll (alternatives : List (List Symbol)) : List Group :=
  if (commonPrefix alternatives).isEmpty then []
  else [⟨commonPrefix alternatives, List.range alternatives.length⟩]

/-- The groups of alternatives under a policy. -/
def groups (policy : Policy) (alternatives : List (List Symbol)) : List Group :=
  match policy with
  | .grouped => groupsByFirst alternatives
  | .global => groupOfAll alternatives

end Factoring

namespace Grammar

/-- The right sides of a symbol's rules, in order. -/
def rightSides (g : Grammar) (s : Symbol) : List (List Symbol) :=
  (g.alternatives s).map (·.rhs)

/-- What all alternatives of a symbol have in common at their beginning. -/
def commonPrefix (g : Grammar) (s : Symbol) : List Symbol :=
  Factoring.commonPrefix (g.rightSides s)

/-- The groups of a symbol's alternatives under a policy. -/
def groups (g : Grammar) (policy : Factoring.Policy) (s : Symbol) : List Factoring.Group :=
  Factoring.groups policy (g.rightSides s)

end Grammar

end ContextFree
