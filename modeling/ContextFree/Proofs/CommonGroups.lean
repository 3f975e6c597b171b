import ContextFree.Proofs.Groups
import ContextFree.Proofs.Run

/-!
# Groups as a partition by first symbol

Under the grouped policy two alternatives are in a common group if and only if they begin with the
same symbol (`exists_common_group_iff`), and an alternative is in no group if and only if it is
empty or the only one with its first symbol (`in_no_group_iff`). What a group shares is the longest
sequence that all of its members begin with (`Group.begins_members_iff`).

This holds however the first symbols are interleaved, since the table of slots and the classes agree
at every step of the walk (`Partition.Tracks`).
-/

namespace ContextFree

namespace Factoring

variable {alternatives : List (List Symbol)} {i j : Nat}

theorem bind_head?_eq_some_iff {a : Symbol} :
    alternatives[i]?.bind List.head? = some a ↔ ∃ rest, alternatives[i]? = some (a :: rest) := by
  rw [Option.bind_eq_some_iff]
  constructor
  · rintro ⟨rhs, hrhs, hhead⟩
    obtain ⟨rest, rfl⟩ := List.head?_eq_some_iff.mp hhead
    exact ⟨rest, hrhs⟩
  · rintro ⟨rest, hrest⟩
    exact ⟨a :: rest, hrest, rfl⟩

/-- All members of a group by first symbol begin with one symbol. -/
theorem exists_head_of_mem_groupsByFirst {G : Group} (h : G ∈ groupsByFirst alternatives) :
    ∃ a, ∀ i ∈ G.members, alternatives[i]?.bind List.head? = some a := by
  obtain ⟨a, -, rfl⟩ := mem_groupsByFirst.mp h
  exact ⟨a, fun i hi => mem_positionsFrom.mp hi⟩

/-- Two alternatives are in a common group if and only if they begin with the same symbol. -/
theorem exists_common_group_iff (hij : i ≠ j) :
    (∃ G ∈ groupsByFirst alternatives, i ∈ G.members ∧ j ∈ G.members) ↔
      ∃ a restI restJ,
        alternatives[i]? = some (a :: restI) ∧ alternatives[j]? = some (a :: restJ) := by
  constructor
  · rintro ⟨G, hG, hi, hj⟩
    obtain ⟨a, ha⟩ := exists_head_of_mem_groupsByFirst hG
    obtain ⟨restI, hrestI⟩ := bind_head?_eq_some_iff.mp (ha i hi)
    obtain ⟨restJ, hrestJ⟩ := bind_head?_eq_some_iff.mp (ha j hj)
    exact ⟨a, restI, restJ, hrestI, hrestJ⟩
  · rintro ⟨a, restI, restJ, hi, hj⟩
    have hi := bind_head?_eq_some_iff.mpr ⟨restI, hi⟩
    have hj := bind_head?_eq_some_iff.mpr ⟨restJ, hj⟩
    exact exists_group_of_begin_alike hij hi hj

/-- A group does not have one member alone. -/
theorem Group.Of.exists_other {G : Group} (h : G.Of alternatives) (i : Nat) :
    ∃ j ∈ G.members, j ≠ i := by
  have hnodup : G.members.Nodup := h.ascending.imp Nat.ne_of_lt
  by_contra hnone
  push Not at hnone
  -- then all members are `i`, and there is one alone
  have hrepeat := List.eq_replicate_of_mem hnone
  rw [hrepeat, List.nodup_replicate] at hnodup
  have := h.two_le
  omega

/-- An alternative is in no group if and only if it is empty or the only one with its first
symbol. -/
theorem in_no_group_iff (hi : i < alternatives.length) :
    (∀ G ∈ groupsByFirst alternatives, i ∉ G.members) ↔
      alternatives[i] = [] ∨ ∀ j ≠ i, ∀ rhs, alternatives[j]? = some rhs →
        rhs.head? ≠ alternatives[i].head? := by
  constructor
  · intro hout
    rw [or_iff_not_imp_left]
    intro hne j hji rhs hrhs heq
    obtain ⟨a, rest, hcons⟩ := List.exists_cons_of_ne_nil hne
    rw [hcons, List.head?_cons] at heq
    obtain ⟨restJ, rfl⟩ := List.head?_eq_some_iff.mp heq
    have hrhsI : alternatives[i]? = some (a :: rest) := by
      rw [List.getElem?_eq_getElem hi, hcons]
    obtain ⟨G, hG, hmem, -⟩ :=
      (exists_common_group_iff hji.symm).mpr ⟨a, rest, restJ, hrhsI, hrhs⟩
    exact hout G hG hmem
  · intro halone G hG hmem
    obtain ⟨j, hj, hji⟩ := (of_mem_groupsByFirst hG).exists_other i
    -- the other member begins with the same symbol, which neither case allows
    obtain ⟨a, restI, restJ, hrestI, hrestJ⟩ :=
      (exists_common_group_iff hji.symm).mp ⟨G, hG, hmem, hj⟩
    rw [List.getElem?_eq_getElem hi, Option.some.injEq] at hrestI
    rcases halone with hnil | hother
    · rw [hnil] at hrestI
      cases hrestI
    · refine hother j hji _ hrestJ ?_
      rw [hrestI]
      rfl

/-- What begins every member of a group is what begins the sequence that they share. -/
theorem Group.begins_members_iff {policy : Policy} {G : Group}
    (h : G ∈ groups policy alternatives) (p : List Symbol) :
    (∀ i ∈ G.members, ∃ rhs, alternatives[i]? = some rhs ∧ p <+: rhs) ↔ p <+: G.shared := by
  have hof := of_mem_groups h
  constructor
  · intro hall
    obtain ⟨i, hi⟩ := List.exists_mem_of_ne_nil _ hof.members_ne_nil
    obtain ⟨rhs, hrhs, -⟩ := hof.begins i hi
    rw [shared_eq_longestCommon h]
    refine prefix_longestCommon (List.ne_nil_of_mem (List.mem_filterMap.mpr ⟨i, hi, hrhs⟩)) ?_
    intro seq hseq
    obtain ⟨k, hk, hlook⟩ := List.mem_filterMap.mp hseq
    obtain ⟨rhs', hrhs', hpre⟩ := hall k hk
    rw [hlook, Option.some.injEq] at hrhs'
    rwa [hrhs']
  · intro hshared i hi
    obtain ⟨rhs, hrhs, hpre⟩ := hof.begins i hi
    exact ⟨rhs, hrhs, hshared.trans hpre⟩

/-- What is left of the members of a group has nothing in common at its beginning. -/
theorem commonPrefix_suffixes {policy : Policy} {alternatives : List (List Symbol)} {G : Group}
    (h : G ∈ groups policy alternatives) (dedup : Bool) :
    commonPrefix (suffixes dedup alternatives G) = [] := by
  by_contra hne
  obtain ⟨-, a, ha⟩ := commonPrefix_ne_nil_iff.mp hne
  have hof := of_mem_groups h
  -- the members would share one symbol more
  have hlonger : G.shared ++ [a] <+: G.shared := by
    rw [← Group.begins_members_iff h]
    intro i hi
    obtain ⟨_, hlook, rest, rfl⟩ := hof.begins i hi
    have hrest : rest ∈ suffixes dedup alternatives G :=
      (mem_suffixes hof).mpr (List.mem_filterMap.mpr ⟨i, hi, hlook⟩)
    obtain ⟨tail, rfl⟩ := List.head?_eq_some_iff.mp (ha rest hrest)
    exact ⟨_, hlook, tail, by simp⟩
  have hlen := hlonger.length_le
  rw [List.length_append, List.length_singleton] at hlen
  omega

/-- The groups of a symbol under the grouped policy are the classes of two or more alternatives that
begin with one symbol, in the order in which these symbols are met, and each shares all that its
members have in common at their beginning. -/
theorem groups_partition_exactly (g : Grammar) (s : Symbol) :
    (∀ G ∈ g.groups .grouped s, G.members.Pairwise (· < ·) ∧
      (∀ i ∈ G.members, i < (g.rightSides s).length) ∧ 2 ≤ G.members.length) ∧
    ((g.groups .grouped s).Pairwise fun G H => List.Disjoint G.members H.members) ∧
    (g.groups .grouped s).Pairwise Group.Before ∧
    (∀ i j, i ≠ j → ((∃ G ∈ g.groups .grouped s, i ∈ G.members ∧ j ∈ G.members) ↔
      ∃ a restI restJ, (g.rightSides s)[i]? = some (a :: restI) ∧
        (g.rightSides s)[j]? = some (a :: restJ))) ∧
    (∀ i (hi : i < (g.rightSides s).length),
      (∀ G ∈ g.groups .grouped s, i ∉ G.members) ↔
        (g.rightSides s)[i] = [] ∨ ∀ j ≠ i, ∀ rhs, (g.rightSides s)[j]? = some rhs →
          rhs.head? ≠ (g.rightSides s)[i].head?) ∧
    ∀ G ∈ g.groups .grouped s, G.shared ≠ [] ∧
      (∀ i ∈ G.members, ∃ rhs, (g.rightSides s)[i]? = some rhs ∧ G.shared <+: rhs) ∧
      ∀ p, (∀ i ∈ G.members, ∃ rhs, (g.rightSides s)[i]? = some rhs ∧ p <+: rhs) →
        p <+: G.shared := by
  have hgrouping := g.grouping .grouped s
  refine ⟨?_, hgrouping.disjoint, hgrouping.ordered, fun i j => exists_common_group_iff,
    fun i => in_no_group_iff, ?_⟩
  · intro G hG
    have hof := hgrouping.of_mem G hG
    refine ⟨hof.ascending, fun i hi => ?_, hof.two_le⟩
    obtain ⟨rhs, hrhs, -⟩ := hof.begins i hi
    exact (List.getElem?_eq_some_iff.mp hrhs).1
  · intro G hG
    have hof := hgrouping.of_mem G hG
    exact ⟨hof.shared_ne_nil, hof.begins, fun p => (Group.begins_members_iff hG p).mp⟩

/-- Alternatives of symbol 0 that make two groups, with members of each between those of the other,
an empty alternative and a repeated one. Before, among and after them are rules of other symbols. -/
def interlaced : Grammar :=
  .unnamed 6
    [⟨.numbered 3, [.numbered 5]⟩,
     ⟨.numbered 0, [.numbered 2]⟩,
     ⟨.numbered 0, [.numbered 1, .numbered 3, .numbered 4]⟩,
     ⟨.numbered 3, []⟩,
     ⟨.numbered 0, []⟩,
     ⟨.numbered 0, [.numbered 2, .numbered 5]⟩,
     ⟨.numbered 0, [.numbered 4]⟩,
     ⟨.numbered 4, [.numbered 2]⟩,
     ⟨.numbered 0, [.numbered 1, .numbered 3]⟩,
     ⟨.numbered 0, [.numbered 2]⟩]

/-- The groups are the alternatives 0, 3 and 6, which share symbol 2, and 1 and 5, which share
symbols 1 and 3. -/
theorem groups_partition_exactly_interlaced :
    interlaced.groups .grouped (.numbered 0) =
      [⟨[.numbered 2], [0, 3, 6]⟩, ⟨[.numbered 1, .numbered 3], [1, 5]⟩] ∧
    ⟨[.numbered 1, .numbered 3], [1, 5]⟩ ∈ interlaced.groups .grouped (.numbered 0) ∧
    [1, 5].Pairwise (· < ·) ∧ List.Disjoint [0, 3, 6] [1, 5] ∧
    (∃ G ∈ interlaced.groups .grouped (.numbered 0), 1 ∈ G.members ∧ 5 ∈ G.members) ∧
    (¬ ∃ G ∈ interlaced.groups .grouped (.numbered 0), 0 ∈ G.members ∧ 1 ∈ G.members) ∧
    (∀ G ∈ interlaced.groups .grouped (.numbered 0), 2 ∉ G.members) ∧
    ∀ p, (∀ i ∈ [1, 5], ∃ rhs,
      (interlaced.rightSides (.numbered 0))[i]? = some rhs ∧ p <+: rhs) →
        p <+: [.numbered 1, .numbered 3] := by
  have hgroups : interlaced.groups .grouped (.numbered 0) =
      [⟨[.numbered 2], [0, 3, 6]⟩, ⟨[.numbered 1, .numbered 3], [1, 5]⟩] := by decide +kernel
  have hmem : ⟨[.numbered 1, .numbered 3], [1, 5]⟩ ∈
      interlaced.groups .grouped (.numbered 0) := by simp [hgroups]
  have hsides : interlaced.rightSides (.numbered 0) =
      [[.numbered 2], [.numbered 1, .numbered 3, .numbered 4], [], [.numbered 2, .numbered 5],
       [.numbered 4], [.numbered 1, .numbered 3], [.numbered 2]] := by decide +kernel
  obtain ⟨hmembers, hdisjoint, -, htogether, hout, hshared⟩ :=
    groups_partition_exactly interlaced (.numbered 0)
  refine ⟨hgroups, hmem, (hmembers _ hmem).1, ?_, ?_, ?_, ?_, (hshared _ hmem).2.2⟩
  · rw [hgroups] at hdisjoint
    exact (List.pairwise_cons.mp hdisjoint).1 _ (List.mem_cons_self ..)
  · rw [htogether 1 5 (by decide), hsides]
    exact ⟨_, _, _, rfl, rfl⟩
  · rw [htogether 0 1 (by decide), hsides]
    rintro ⟨a, restI, restJ, hi, hj⟩
    have hi : Symbol.numbered 2 = a := (List.cons.inj (Option.some.inj hi)).1
    have hj : Symbol.numbered 1 = a := (List.cons.inj (Option.some.inj hj)).1
    exact absurd (hi.trans hj.symm) (by decide)
  · refine (hout 2 (by rw [hsides]; decide)).mpr (.inl ?_)
    simp only [hsides]
    rfl

end Factoring

end ContextFree
