import ContextFree.Symbol

/-!
# Common prefixes

How far sequences of symbols agree from their beginning. The walk goes along the first sequence and
stops where another one has ended or differs.
-/

namespace ContextFree

namespace Factoring

/-- The length of the longest sequence that every given one begins with. -/
def commonPrefixLength : List (List Symbol) → Nat
  | [] => 0
  | first :: rest =>
    (first.zipIdx.takeWhile fun entry =>
      rest.all fun other => other[entry.2]? == some entry.1).length

/-- The longest sequence that every given one begins with. -/
def longestCommon (sequences : List (List Symbol)) : List Symbol :=
  (sequences.headD []).take (commonPrefixLength sequences)

/-- What two or more alternatives have in common at their beginning. Fewer than two have nothing in
common. -/
def commonPrefix (alternatives : List (List Symbol)) : List Symbol :=
  if alternatives.length < 2 then [] else longestCommon alternatives

end Factoring

end ContextFree
