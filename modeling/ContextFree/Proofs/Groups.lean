import ContextFree.Factoring.Group
import ContextFree.Proofs.CommonPrefix
import ContextFree.Proofs.Partition

/-!
# What a group is

Under either policy a group names two or more alternatives in ascending order, and these begin with
the non-empty sequence that the group has as shared (`Group.Of`), which is the longest they begin
with (`shared_eq_longestCommon`). No alternative is in two groups, and groups come in the order of
their first members (`Grouping`).

There is no group under the grouped policy if and only if no two alternatives begin with the same
symbol (`groupsByFirst_eq_nil_iff`), and none under the global policy if and only if the
alternatives are fewer than two or do not all begin with one symbol (`groupOfAll_eq_nil_iff`).
-/

namespace ContextFree

namespace Factoring

/-- A group of two or more of the given alternatives that begin alike. -/
structure Group.Of (alternatives : List (List Symbol)) (G : Group) : Prop where
  ascending : G.members.Pairwise (· < ·)
  two_le : 2 ≤ G.members.length
  shared_ne_nil : G.shared ≠ []
  begins : ∀ i ∈ G.members, ∃ rhs, alternatives[i]? = some rhs ∧ G.shared <+: rhs

theorem Group.Of.members_ne_nil {alternatives : List (List Symbol)} {G : Group}
    (h : G.Of alternatives) : G.members ≠ [] := by
  intro hnil
  have := h.two_le
  simp [hnil] at this

/-- No two of the sequences, at different positions, begin with the same symbol. -/
def BeginApart (seqs : List (List Symbol)) : Prop :=
  ∀ (i j : Nat) (a : Symbol),
    seqs[i]?.bind List.head? = some a → seqs[j]?.bind List.head? = some a → i = j

/-! ## The alternatives that begin with a symbol -/

theorem filterMap_positionsFrom (alternatives : List (List Symbol)) (a : Symbol) :
    (positionsFrom alternatives a).filterMap (alternatives[·]?) =
      alternatives.filter fun rhs => rhs.head? == some a :=
  filterMap_getElem?_positions alternatives fun rhs => rhs.head? == some a

/-- A sequence that is in front of another one, and not empty, begins with the same symbol. -/
theorem head?_of_begins {p rhs : List Symbol} (hne : p ≠ []) (h : p <+: rhs) :
    rhs.head? = p.head? := by
  rcases h with ⟨t, rfl⟩
  rw [List.head?_append_of_ne_nil _ hne]

/-! ## Groups by first symbol -/

/-- What all alternatives that begin with `a` have in common begins with `a`. -/
theorem head?_shared_ofMembers {alternatives : List (List Symbol)} {a : Symbol}
    (h : positionsFrom alternatives a ≠ []) :
    (Group.ofMembers alternatives (positionsFrom alternatives a)).shared.head? = some a := by
  have hlen : (positionsFrom alternatives a).filterMap (alternatives[·]?) ≠ [] := by
    rcases List.exists_mem_of_ne_nil _ h with ⟨i, hi⟩
    rcases Option.bind_eq_some_iff.mp (mem_positionsFrom.mp hi) with ⟨rhs, hrhs, -⟩
    exact List.ne_nil_of_mem (List.mem_filterMap.mpr ⟨i, hi, hrhs⟩)
  have hall : ∀ seq ∈ (positionsFrom alternatives a).filterMap (alternatives[·]?),
      seq.head? = some a := by
    intro seq hseq
    rw [filterMap_positionsFrom, List.mem_filter, beq_iff_eq] at hseq
    exact hseq.2
  exact head?_of_begins (by simp) (singleton_begins_longestCommon hlen hall)

/-- There is a group for each class of two or more. -/
theorem groupsByFirst_eq (alternatives : List (List Symbol)) :
    groupsByFirst alternatives =
      (((firstSymbols alternatives).map (positionsFrom alternatives)).filter (2 ≤ ·.length)).map
        (Group.ofMembers alternatives) := by
  rw [groupsByFirst, Partition.classes_ofAlternatives]
  split
  next hshort =>
    -- fewer than two alternatives make no class of two
    have hnone : ((firstSymbols alternatives).map (positionsFrom alternatives)).filter
        (2 ≤ ·.length) = [] := by
      rw [List.filter_eq_nil_iff]
      intro l hl hlen
      obtain ⟨a, -, rfl⟩ := List.mem_map.mp hl
      have hle := length_positionsFrom_le alternatives a
      have hlen : 2 ≤ (positionsFrom alternatives a).length := of_decide_eq_true hlen
      omega
    rw [hnone, List.map_nil]
  · rfl

theorem mem_groupsByFirst {alternatives : List (List Symbol)} {G : Group} :
    G ∈ groupsByFirst alternatives ↔
      ∃ a, 2 ≤ (positionsFrom alternatives a).length ∧
        Group.ofMembers alternatives (positionsFrom alternatives a) = G := by
  simp only [groupsByFirst_eq, List.mem_map, List.mem_filter, decide_eq_true_eq]
  constructor
  · rintro ⟨_, ⟨⟨a, -, rfl⟩, hlen⟩, rfl⟩
    exact ⟨a, hlen, rfl⟩
  · rintro ⟨a, hlen, rfl⟩
    refine ⟨_, ⟨⟨a, ?_, rfl⟩, hlen⟩, rfl⟩
    rw [mem_firstSymbols]
    exact List.ne_nil_of_length_pos (Nat.lt_of_lt_of_le Nat.two_pos hlen)

theorem of_mem_groupsByFirst {alternatives : List (List Symbol)} {G : Group}
    (h : G ∈ groupsByFirst alternatives) : G.Of alternatives := by
  rcases mem_groupsByFirst.mp h with ⟨a, hlen, rfl⟩
  have hne : positionsFrom alternatives a ≠ [] := by
    intro hnil
    simp [hnil] at hlen
  -- what is shared is the longest common prefix, and it begins with `a`, so it is not empty
  refine ⟨positionsFrom_ascending alternatives a, hlen, ?_, ?_⟩
  · intro hnil
    have hhead := head?_shared_ofMembers hne
    rw [hnil] at hhead
    cases hhead
  · intro i hi
    rcases Option.bind_eq_some_iff.mp (mem_positionsFrom.mp hi) with ⟨rhs, hrhs, -⟩
    exact ⟨rhs, hrhs, longestCommon_begins (List.mem_filterMap.mpr ⟨i, hi, hrhs⟩)⟩

/-- Alternatives that begin alike are in one group. -/
theorem exists_group_of_begin_alike {alternatives : List (List Symbol)} {i j : Nat} {a : Symbol}
    (hij : i ≠ j) (hi : alternatives[i]?.bind List.head? = some a)
    (hj : alternatives[j]?.bind List.head? = some a) :
    ∃ G ∈ groupsByFirst alternatives, i ∈ G.members ∧ j ∈ G.members := by
  have hi := mem_positionsFrom.mpr hi
  have hj := mem_positionsFrom.mpr hj
  -- the group is made only if two positions begin with `a`, and `i` and `j` are two
  have hlen : 2 ≤ (positionsFrom alternatives a).length := by
    match positionsFrom alternatives a, hi, hj with
    | [k], hi, hj =>
      rw [List.mem_singleton] at hi hj
      exact absurd (hi.trans hj.symm) hij
    | _ :: _ :: _, _, _ => simp
  exact ⟨_, mem_groupsByFirst.mpr ⟨a, hlen, rfl⟩, hi, hj⟩

/-- There is nothing to group if and only if no two alternatives begin with the same symbol. -/
theorem groupsByFirst_eq_nil_iff {alternatives : List (List Symbol)} :
    groupsByFirst alternatives = [] ↔ BeginApart alternatives := by
  constructor
  · intro hnil i j a hi hj
    by_contra hij
    rcases exists_group_of_begin_alike hij hi hj with ⟨G, hG, -⟩
    rw [hnil] at hG
    cases hG
  · intro hapart
    rw [List.eq_nil_iff_forall_not_mem]
    intro G hG
    have hof := of_mem_groupsByFirst hG
    rcases mem_groupsByFirst.mp hG with ⟨a, -, rfl⟩
    -- two members in ascending order are two positions with one first symbol
    match hm : positionsFrom alternatives a, hof.two_le, hof.ascending with
    | i :: j :: _, _, hasc =>
      have hi : i ∈ positionsFrom alternatives a := by simp [hm]
      have hj : j ∈ positionsFrom alternatives a := by simp [hm]
      have hij : i < j := (List.pairwise_cons.mp hasc).1 j (by simp)
      have heq := hapart i j a (mem_positionsFrom.mp hi) (mem_positionsFrom.mp hj)
      omega

theorem groupsByFirst_disjoint (alternatives : List (List Symbol)) :
    (groupsByFirst alternatives).Pairwise fun G H => List.Disjoint G.members H.members := by
  rw [groupsByFirst_eq, List.pairwise_map]
  apply List.Pairwise.filter
  rw [List.pairwise_map]
  -- a position tells what its alternative begins with, so two symbols have no position in common
  refine (firstSymbols_nodup alternatives).imp ?_
  intro a b hab i hi hj
  have ha := mem_positionsFrom.mp hi
  rw [mem_positionsFrom.mp hj] at ha
  exact hab (Option.some.inj ha).symm

/-- The first member of one group stands before the first member of the other. -/
def Group.Before (G H : Group) : Prop :=
  ∃ i j, G.members.head? = some i ∧ H.members.head? = some j ∧ i < j

theorem groupsByFirst_ordered (alternatives : List (List Symbol)) :
    (groupsByFirst alternatives).Pairwise Group.Before := by
  rw [groupsByFirst_eq, List.pairwise_map]
  have hclasses : ((firstSymbols alternatives).map (positionsFrom alternatives)).Pairwise
      fun l l' => l' ≠ [] → ∃ i j, l.head? = some i ∧ l'.head? = some j ∧ i < j := by
    rw [List.pairwise_map]
    refine (firstSymbols_ordered alternatives).imp ?_
    rintro a b ⟨i, hi, hlt⟩ hne
    obtain ⟨j, hj⟩ := Option.ne_none_iff_exists'.mp (List.head?_eq_none_iff.not.mpr hne)
    exact ⟨i, j, hi, hj, hlt j (List.mem_of_head? hj)⟩
  refine (hclasses.filter _).imp_of_mem ?_
  intro l l' _ hl' hbefore
  -- a class that is kept has two positions, so it is not empty
  have hlen : 2 ≤ l'.length := by simpa using (List.mem_filter.mp hl').2
  exact hbefore (List.ne_nil_of_length_pos (by omega))

/-! ## The group of all alternatives -/

theorem commonPrefix_ne_nil_iff {alternatives : List (List Symbol)} :
    commonPrefix alternatives ≠ [] ↔
      2 ≤ alternatives.length ∧ ∃ a, ∀ rhs ∈ alternatives, rhs.head? = some a := by
  unfold commonPrefix
  split
  next hshort =>
    simp only [ne_eq, not_true_eq_false, false_iff]
    omega
  next hlong =>
    have hlen : 2 ≤ alternatives.length := by omega
    have hne : alternatives ≠ [] := by
      intro hnil
      simp [hnil] at hlen
    constructor
    · intro hshared
      rcases List.exists_cons_of_ne_nil hshared with ⟨a, t, ht⟩
      refine ⟨hlen, a, fun rhs hrhs => ?_⟩
      rw [head?_of_begins hshared (longestCommon_begins hrhs), ht]
      rfl
    · rintro ⟨-, a, ha⟩
      have hpre := singleton_begins_longestCommon hne ha
      intro hnil
      rw [hnil, List.prefix_nil] at hpre
      cases hpre

/-- There is no group of all alternatives if and only if there are fewer than two or they do not all
begin with one symbol. -/
theorem groupOfAll_eq_nil_iff {alternatives : List (List Symbol)} :
    groupOfAll alternatives = [] ↔
      ¬ (2 ≤ alternatives.length ∧ ∃ a, ∀ rhs ∈ alternatives, rhs.head? = some a) := by
  rw [← commonPrefix_ne_nil_iff, groupOfAll]
  by_cases h : commonPrefix alternatives = []
  · simp [h]
  · simp [h]

theorem of_mem_groupOfAll {alternatives : List (List Symbol)} {G : Group}
    (h : G ∈ groupOfAll alternatives) : G.Of alternatives := by
  unfold groupOfAll at h
  split at h
  · cases h
  next hne =>
    have hshared : commonPrefix alternatives ≠ [] := by simpa using hne
    have hlen := (commonPrefix_ne_nil_iff.mp hshared).1
    rw [List.mem_singleton] at h
    subst h
    refine ⟨List.pairwise_lt_range, by simpa using hlen, hshared, ?_⟩
    intro i hi
    have hi : i < alternatives.length := List.mem_range.mp hi
    refine ⟨alternatives[i], List.getElem?_eq_getElem hi, ?_⟩
    have hlong : ¬ alternatives.length < 2 := by omega
    rw [commonPrefix, if_neg hlong]
    exact longestCommon_begins (List.getElem_mem hi)

/-! ## Groups under a policy -/

theorem of_mem_groups {policy : Policy} {alternatives : List (List Symbol)} {G : Group}
    (h : G ∈ groups policy alternatives) : G.Of alternatives := by
  cases policy with
  | grouped => exact of_mem_groupsByFirst h
  | global => exact of_mem_groupOfAll h

/-- Groups of the given alternatives by their first members, none of them in two groups. -/
structure Grouping (alternatives : List (List Symbol)) (Gs : List Group) : Prop where
  of_mem : ∀ G ∈ Gs, G.Of alternatives
  disjoint : Gs.Pairwise fun G H => List.Disjoint G.members H.members
  ordered : Gs.Pairwise Group.Before

theorem grouping_groups (policy : Policy) (alternatives : List (List Symbol)) :
    Grouping alternatives (groups policy alternatives) := by
  refine ⟨fun G hG => of_mem_groups hG, ?_, ?_⟩
  all_goals cases policy
  · exact groupsByFirst_disjoint alternatives
  · rw [groups, groupOfAll]
    split
    · exact List.Pairwise.nil
    · exact List.pairwise_singleton _ _
  · exact groupsByFirst_ordered alternatives
  · rw [groups, groupOfAll]
    split
    · exact List.Pairwise.nil
    · exact List.pairwise_singleton _ _

/-- What a group shares is the longest that its members begin with. -/
theorem shared_eq_longestCommon {policy : Policy} {alternatives : List (List Symbol)} {G : Group}
    (h : G ∈ groups policy alternatives) :
    G.shared = longestCommon (G.members.filterMap (alternatives[·]?)) := by
  cases policy with
  | grouped =>
    obtain ⟨a, -, rfl⟩ := mem_groupsByFirst.mp h
    rfl
  | global =>
    have hG : G ∈ groupOfAll alternatives := h
    unfold groupOfAll at hG
    split at hG
    · cases hG
    next hne =>
      have hlen := (commonPrefix_ne_nil_iff.mp (by simpa using hne)).1
      rw [List.mem_singleton.mp hG]
      dsimp only
      rw [filterMap_getElem?_range, commonPrefix, if_neg (by omega)]

/-- Alternatives that begin apart are not grouped under any policy. -/
theorem groups_eq_nil_of_beginApart {alternatives : List (List Symbol)}
    (h : BeginApart alternatives) (policy : Policy) : groups policy alternatives = [] := by
  cases policy with
  | grouped => exact groupsByFirst_eq_nil_iff.mpr h
  | global =>
    rw [groups, groupOfAll_eq_nil_iff]
    rintro ⟨hlen, a, ha⟩
    have hat : ∀ i < alternatives.length, alternatives[i]?.bind List.head? = some a := by
      intro i hi
      rw [List.getElem?_eq_getElem hi]
      exact ha _ (List.getElem_mem hi)
    have := h 0 1 a (hat 0 (by omega)) (hat 1 (by omega))
    omega

end Factoring

theorem Grammar.grouping (g : Grammar) (policy : Factoring.Policy) (s : Symbol) :
    Factoring.Grouping (g.rightSides s) (g.groups policy s) :=
  Factoring.grouping_groups policy (g.rightSides s)

end ContextFree
