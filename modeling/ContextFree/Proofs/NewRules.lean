import Mathlib.Data.List.Perm.Subperm
import ContextFree.Factoring.Pass
import ContextFree.Proofs.Groups

/-!
# The new rules of a pass

A pass takes the alternatives apart by group and puts each group behind a fresh symbol. Up to order,
the alternatives are those in no group together with the members of each group
(`Marking.alternatives_perm`), and the heads are those in no group together with one head for each
group (`Marking.heads_perm`). So nothing is lost and nothing is made twice.
-/

namespace ContextFree

namespace Factoring

/-! ## The rules of a pass -/

/-- What comes in place of the alternative at a position, given the groups with their fresh
symbols. -/
def headAt (marked : List (Group × Symbol)) (entry : List Symbol × Nat) : Option (List Symbol) :=
  match marked.find? (·.1.members.contains entry.2) with
  | none => some entry.1
  | some (group, fresh) =>
    if group.members.head? = some entry.2 then some (group.shared ++ [fresh]) else none

/-- The alternatives that come in place of the given ones. -/
def heads (alternatives : List (List Symbol)) (marked : List (Group × Symbol)) :
    List (List Symbol) :=
  alternatives.zipIdx.filterMap (headAt marked)

/-- The rules of the fresh symbols. -/
def tails (dedup : Bool) (alternatives : List (List Symbol)) (marked : List (Group × Symbol)) :
    List Rule :=
  marked.flatMap fun m => (suffixes dedup alternatives m.1).map (Rule.mk m.2)

/-- The rules that come in place of the alternatives of `s`. -/
def factoredRules (dedup : Bool) (s : Symbol) (alternatives : List (List Symbol))
    (marked : List (Group × Symbol)) : List Rule :=
  (heads alternatives marked).map (Rule.mk s) ++ tails dedup alternatives marked

/-- The right sides of the members of a group. -/
def Group.sequences (alternatives : List (List Symbol)) (G : Group) : List (List Symbol) :=
  G.members.filterMap (alternatives[·]?)

/-- Groups of the given alternatives, none of them in two groups, with a symbol for each. -/
structure Marking (alternatives : List (List Symbol)) (marked : List (Group × Symbol)) : Prop where
  of_mem : ∀ m ∈ marked, m.1.Of alternatives
  disjoint : marked.Pairwise fun m n => List.Disjoint m.1.members n.1.members

/-- Is the position in no group? -/
def isFree (marked : List (Group × Symbol)) (i : Nat) : Bool :=
  marked.all fun m => !m.1.members.contains i

/-- The alternatives that are in no group, in order. -/
def ungrouped (alternatives : List (List Symbol)) (marked : List (Group × Symbol)) :
    List (List Symbol) :=
  (alternatives.zipIdx.filter fun entry => isFree marked entry.2).map (·.1)

theorem isFree_iff {marked : List (Group × Symbol)} {i : Nat} :
    isFree marked i = true ↔ ∀ m ∈ marked, i ∉ m.1.members := by
  simp [isFree]

theorem marking_zip (policy : Policy) (alternatives : List (List Symbol)) {fresh : List Symbol}
    (hlen : fresh.length = (groups policy alternatives).length) :
    Marking alternatives ((groups policy alternatives).zip fresh) := by
  have hfst : ((groups policy alternatives).zip fresh).map Prod.fst = groups policy alternatives :=
    List.map_fst_zip (by omega)
  have hgrouping := grouping_groups policy alternatives
  constructor
  · intro m hm
    exact hgrouping.of_mem m.1 (List.of_mem_zip hm).1
  · have hdis := hgrouping.disjoint
    rw [← hfst, List.pairwise_map] at hdis
    exact hdis

/-! ## Members -/

theorem mem_of_mem_sequences {alternatives : List (List Symbol)} {G : Group} {rhs : List Symbol}
    (h : rhs ∈ G.sequences alternatives) : rhs ∈ alternatives := by
  rcases List.mem_filterMap.mp h with ⟨i, -, hlook⟩
  exact List.mem_of_getElem? hlook

theorem Group.Of.shared_begins {alternatives : List (List Symbol)} {G : Group}
    (h : G.Of alternatives) {rhs : List Symbol} (hrhs : rhs ∈ G.sequences alternatives) :
    G.shared <+: rhs := by
  rcases List.mem_filterMap.mp hrhs with ⟨i, hi, hlook⟩
  rcases h.begins i hi with ⟨rhs', hlook', hpre⟩
  rw [hlook'] at hlook
  cases hlook
  exact hpre

/-- Each member can be looked up, so a group has as many right sides as members. -/
theorem Group.Of.length_sequences {alternatives : List (List Symbol)} {G : Group}
    (h : G.Of alternatives) : (G.sequences alternatives).length = G.members.length := by
  rw [Group.sequences, List.length_filterMap_eq_countP, List.countP_eq_length]
  intro i hi
  rcases h.begins i hi with ⟨rhs, hlook, -⟩
  simp [hlook]

/-- The entries at given positions. -/
def entriesAt (alternatives : List (List Symbol)) (positions : List Nat) :
    List (List Symbol × Nat) :=
  positions.filterMap fun i => alternatives[i]?.map (·, i)

theorem mem_entriesAt {alternatives : List (List Symbol)} {positions : List Nat}
    {entry : List Symbol × Nat} :
    entry ∈ entriesAt alternatives positions ↔
      entry.2 ∈ positions ∧ alternatives[entry.2]? = some entry.1 := by
  rcases entry with ⟨rhs, i⟩
  simp only [entriesAt, List.mem_filterMap, Option.map_eq_some_iff, Prod.mk.injEq]
  constructor
  · rintro ⟨j, hj, rhs', hlook, rfl, rfl⟩
    exact ⟨hj, hlook⟩
  · rintro ⟨hi, hlook⟩
    exact ⟨i, hi, rhs, hlook, rfl, rfl⟩

theorem map_fst_entriesAt (alternatives : List (List Symbol)) (G : Group) :
    (entriesAt alternatives G.members).map (·.1) = G.sequences alternatives := by
  rw [entriesAt, Group.sequences, List.map_filterMap]
  apply List.filterMap_congr
  intro i _
  cases alternatives[i]? <;> rfl

theorem entriesAt_nodup {alternatives : List (List Symbol)} {positions : List Nat}
    (h : positions.Nodup) : (entriesAt alternatives positions).Nodup := by
  refine List.Nodup.filterMap ?_ h
  intro i j entry hi hj
  rcases Option.map_eq_some_iff.mp hi with ⟨rhs, -, rfl⟩
  rcases Option.map_eq_some_iff.mp hj with ⟨rhs', -, heq⟩
  exact (congrArg Prod.snd heq).symm

theorem zipIdx_nodup (alternatives : List (List Symbol)) : alternatives.zipIdx.Nodup := by
  apply List.Nodup.of_map Prod.snd
  rw [List.zipIdx_map_snd]
  exact List.nodup_range'

namespace Marking

variable {alternatives : List (List Symbol)} {marked : List (Group × Symbol)}

theorem members_nodup (h : Marking alternatives marked) {m : Group × Symbol} (hm : m ∈ marked) :
    m.1.members.Nodup :=
  (h.of_mem m hm).ascending.imp Nat.ne_of_lt

/-- Every alternative is in no group or in one, and it is there once. -/
theorem entries_perm (h : Marking alternatives marked) :
    alternatives.zipIdx.Perm
      ((alternatives.zipIdx.filter fun entry => isFree marked entry.2) ++
        marked.flatMap fun m => entriesAt alternatives m.1.members) := by
  -- neither side names an entry twice, so it is enough that they have the same entries
  have hgrouped : (marked.flatMap fun m => entriesAt alternatives m.1.members).Nodup := by
    rw [List.nodup_flatMap]
    refine ⟨fun m hm => entriesAt_nodup (h.members_nodup hm), h.disjoint.imp ?_⟩
    intro m n hdis entry hm hn
    exact hdis (mem_entriesAt.mp hm).1 (mem_entriesAt.mp hn).1
  have hapart : List.Disjoint (alternatives.zipIdx.filter fun entry => isFree marked entry.2)
      (marked.flatMap fun m => entriesAt alternatives m.1.members) := by
    intro entry hfree hin
    rcases List.mem_flatMap.mp hin with ⟨m, hm, hentry⟩
    exact isFree_iff.mp (List.mem_filter.mp hfree).2 m hm (mem_entriesAt.mp hentry).1
  rw [List.perm_ext_iff_of_nodup (zipIdx_nodup _)
    (((zipIdx_nodup _).filter _).append hgrouped hapart)]
  intro entry
  simp only [List.mem_append, List.mem_filter, List.mem_flatMap, mem_entriesAt,
    List.mem_zipIdx_iff_getElem?]
  constructor
  · intro hlook
    by_cases hfree : isFree marked entry.2 = true
    · exact .inl ⟨hlook, hfree⟩
    · rw [isFree_iff] at hfree
      push Not at hfree
      rcases hfree with ⟨m, hm, hi⟩
      exact .inr ⟨m, hm, hi, hlook⟩
  · rintro (⟨hlook, -⟩ | ⟨m, -, -, hlook⟩)
    · exact hlook
    · exact hlook

/-- The alternatives are those in no group and the members of each group. -/
theorem alternatives_perm (h : Marking alternatives marked) :
    alternatives.Perm
      (ungrouped alternatives marked ++ marked.flatMap fun m => m.1.sequences alternatives) := by
  have hperm := h.entries_perm.map Prod.fst
  rw [List.zipIdx_map_fst, List.map_append, List.map_flatMap] at hperm
  simp only [map_fst_entriesAt] at hperm
  exact hperm

/-! ## Heads -/

/-- A member of a group finds its own group. -/
theorem find?_eq (hdis : marked.Pairwise fun m n => List.Disjoint m.1.members n.1.members)
    {m : Group × Symbol} {i : Nat} (hm : m ∈ marked) (hi : i ∈ m.1.members) :
    marked.find? (·.1.members.contains i) = some m := by
  induction marked with
  | nil => cases hm
  | cons n rest ih =>
    rw [List.pairwise_cons] at hdis
    rcases List.mem_cons.mp hm with rfl | hrest
    · simp [hi]
    · have hout : i ∉ n.1.members := fun hn => hdis.1 m hrest hn hi
      rw [List.find?_cons_of_neg (by simpa using hout)]
      exact ih hdis.2 hrest

/-- Of the members of a group only the first one has a head in its place. -/
theorem headAt_of_mem (h : Marking alternatives marked) {m : Group × Symbol}
    {entry : List Symbol × Nat} (hm : m ∈ marked) (hi : entry.2 ∈ m.1.members) :
    headAt marked entry =
      if m.1.members.head? = some entry.2 then some (m.1.shared ++ [m.2]) else none := by
  rw [headAt, find?_eq h.disjoint hm hi]

theorem find?_eq_none {i : Nat} (hfree : isFree marked i = true) :
    marked.find? (·.1.members.contains i) = none := by
  rw [List.find?_eq_none]
  intro m hm hi
  exact isFree_iff.mp hfree m hm (by simpa using hi)

/-- An alternative in no group is its own head. -/
theorem headAt_of_free {entry : List Symbol × Nat} (hfree : isFree marked entry.2 = true) :
    headAt marked entry = some entry.1 := by
  rw [headAt, find?_eq_none hfree]

/-- The members of a group leave one head. -/
theorem filterMap_headAt_members (h : Marking alternatives marked) {m : Group × Symbol}
    (hm : m ∈ marked) :
    (entriesAt alternatives m.1.members).filterMap (headAt marked) = [m.1.shared ++ [m.2]] := by
  have hhead : ∀ entry ∈ entriesAt alternatives m.1.members,
      headAt marked entry =
        if m.1.members.head? = some entry.2 then some (m.1.shared ++ [m.2]) else none := by
    intro entry hentry
    exact h.headAt_of_mem hm (mem_entriesAt.mp hentry).1
  -- the first member has a head, and the others are not first because no member is there twice
  rw [List.filterMap_congr hhead]
  rcases List.exists_cons_of_ne_nil (h.of_mem m hm).members_ne_nil with ⟨i, rest, hcons⟩
  rcases (h.of_mem m hm).begins i (by simp [hcons]) with ⟨rhs, hlook, -⟩
  have hnodup := h.members_nodup hm
  rw [hcons, List.nodup_cons] at hnodup
  have hrest : ∀ entry ∈ entriesAt alternatives rest,
      (if (i :: rest).head? = some entry.2 then some (m.1.shared ++ [m.2]) else none) = none := by
    intro entry hentry
    have hne : i ≠ entry.2 := by
      intro heq
      exact hnodup.1 (heq ▸ (mem_entriesAt.mp hentry).1)
    simp [hne]
  have hentries : entriesAt alternatives (i :: rest) = (rhs, i) :: entriesAt alternatives rest := by
    simp [entriesAt, hlook]
  rw [hcons, hentries, List.filterMap_cons_some (b := m.1.shared ++ [m.2]) (by simp),
    List.filterMap_congr hrest, List.filterMap_none]

/-- The heads are the alternatives in no group and one head for each group. -/
theorem heads_perm (h : Marking alternatives marked) :
    (heads alternatives marked).Perm
      (ungrouped alternatives marked ++ marked.map fun m => m.1.shared ++ [m.2]) := by
  have hperm := h.entries_perm.filterMap (headAt marked)
  have hfree : ∀ entry ∈ alternatives.zipIdx.filter (fun entry => isFree marked entry.2),
      headAt marked entry = some entry.1 := by
    intro entry hentry
    exact headAt_of_free (List.mem_filter.mp hentry).2
  rw [List.filterMap_append, List.filterMap_congr hfree, List.filterMap_eq_map',
    List.filterMap_flatMap,
    List.flatMap_congr fun m hm => h.filterMap_headAt_members hm] at hperm
  rw [List.map_eq_flatMap (f := fun m : Group × Symbol => m.1.shared ++ [m.2])]
  exact hperm

theorem mem_heads (h : Marking alternatives marked) {head : List Symbol} :
    head ∈ heads alternatives marked ↔
      head ∈ ungrouped alternatives marked ∨ ∃ m ∈ marked, m.1.shared ++ [m.2] = head := by
  rw [h.heads_perm.mem_iff, List.mem_append, List.mem_map]

theorem mem_alternatives (h : Marking alternatives marked) {rhs : List Symbol} :
    rhs ∈ alternatives ↔
      rhs ∈ ungrouped alternatives marked ∨ ∃ m ∈ marked, rhs ∈ m.1.sequences alternatives := by
  conv_lhs => rw [h.alternatives_perm.mem_iff, List.mem_append, List.mem_flatMap]

/-- A symbol that has an alternative has a head. -/
theorem heads_ne_nil (h : Marking alternatives marked) (hne : alternatives ≠ []) :
    heads alternatives marked ≠ [] := by
  intro hnil
  have hperm := h.heads_perm
  rw [hnil] at hperm
  rcases List.append_eq_nil_iff.mp hperm.symm.eq_nil with ⟨hfree, hmarked⟩
  have halts := h.alternatives_perm
  rw [hfree, List.map_eq_nil_iff.mp hmarked] at halts
  exact hne halts.eq_nil

end Marking

theorem beginApart_iff_pairwise {seqs : List (List Symbol)} :
    BeginApart seqs ↔ seqs.Pairwise fun x y => ∀ a, x.head? = some a → y.head? ≠ some a := by
  rw [List.pairwise_iff_getElem]
  constructor
  · intro h i j hi hj hij a hx hy
    have := h i j a (by simpa [List.getElem?_eq_getElem hi] using hx)
      (by simpa [List.getElem?_eq_getElem hj] using hy)
    omega
  · intro h i j a hi hj
    rcases Option.bind_eq_some_iff.mp hi with ⟨x, hx, hxa⟩
    rcases Option.bind_eq_some_iff.mp hj with ⟨y, hy, hya⟩
    rcases List.getElem?_eq_some_iff.mp hx with ⟨hi, rfl⟩
    rcases List.getElem?_eq_some_iff.mp hy with ⟨hj, rfl⟩
    rcases Nat.lt_trichotomy i j with hij | hij | hij
    · exact absurd hya (h i j hi hj hij a hxa)
    · exact hij
    · exact absurd hxa (h j i hj hi hij a hya)

/-- A head begins like the alternative in whose place it comes. -/
theorem head?_of_headAt {alternatives : List (List Symbol)} {marked : List (Group × Symbol)}
    (h : Marking alternatives marked) {entry : List Symbol × Nat}
    (hentry : entry ∈ alternatives.zipIdx) {head : List Symbol}
    (hhead : headAt marked entry = some head) : head.head? = entry.1.head? := by
  unfold headAt at hhead
  split at hhead
  · cases hhead
    rfl
  next G fresh hfind =>
    split at hhead
    · cases hhead
      have hof := h.of_mem _ (List.mem_of_find?_eq_some hfind)
      have hi : entry.2 ∈ G.members := by simpa using List.find?_some hfind
      rcases hof.begins _ hi with ⟨rhs, hlook, hpre⟩
      rw [List.mem_zipIdx_iff_getElem?.mp hentry] at hlook
      cases hlook
      rw [List.head?_append_of_ne_nil _ hof.shared_ne_nil, head?_of_begins hof.shared_ne_nil hpre]
    · cases hhead

/-- The heads that are left of groups by first symbol begin apart. -/
theorem beginApart_heads {alternatives : List (List Symbol)} {fresh : List Symbol}
    (hlen : fresh.length = (groupsByFirst alternatives).length) :
    BeginApart (heads alternatives ((groupsByFirst alternatives).zip fresh)) := by
  have hmark : Marking alternatives ((groupsByFirst alternatives).zip fresh) :=
    marking_zip .grouped alternatives hlen
  rw [beginApart_iff_pairwise, heads, List.pairwise_filterMap]
  -- the heads are in the order of the positions they came from
  have hasc : alternatives.zipIdx.Pairwise fun x y => x.2 < y.2 := by
    rw [← List.pairwise_map (f := Prod.snd) (R := (· < ·)), List.zipIdx_map_snd]
    exact List.pairwise_lt_range'
  refine hasc.imp_of_mem ?_
  intro x y hx hy hlt head hhead head' hhead' a ha ha'
  rw [head?_of_headAt hmark hx hhead] at ha
  rw [head?_of_headAt hmark hy hhead'] at ha'
  have hbegin : ∀ entry ∈ alternatives.zipIdx, entry.1.head? = some a →
      alternatives[entry.2]?.bind List.head? = some a := by
    intro entry hentry hentrya
    rw [List.mem_zipIdx_iff_getElem?.mp hentry]
    exact hentrya
  -- both alternatives are in one group, of which only the first member has a head
  obtain ⟨G, hG, hxG, hyG⟩ :=
    exists_group_of_begin_alike (Nat.ne_of_lt hlt) (hbegin x hx ha) (hbegin y hy ha')
  have hfst : ((groupsByFirst alternatives).zip fresh).map Prod.fst = groupsByFirst alternatives :=
    List.map_fst_zip (Nat.le_of_eq hlen.symm)
  rw [← hfst] at hG
  rcases List.mem_map.mp hG with ⟨m, hm, rfl⟩
  rw [hmark.headAt_of_mem hm hxG] at hhead
  rw [hmark.headAt_of_mem hm hyG] at hhead'
  have hfirst : ∀ {i : Nat} {h : List Symbol}, (if m.1.members.head? = some i then
      some (m.1.shared ++ [m.2]) else none) = some h → m.1.members.head? = some i := by
    intro i h hsome
    by_contra hne
    rw [if_neg hne] at hsome
    cases hsome
  have hsame := (hfirst hhead).symm.trans (hfirst hhead')
  have heq : x.2 = y.2 := Option.some.inj hsame
  omega

/-! ## Tails -/

theorem mem_suffixes {dedup : Bool} {alternatives : List (List Symbol)} {G : Group}
    (h : G.Of alternatives) {rest : List Symbol} :
    rest ∈ suffixes dedup alternatives G ↔ G.shared ++ rest ∈ G.sequences alternatives := by
  have hrests : rest ∈ suffixes dedup alternatives G ↔
      rest ∈ (G.sequences alternatives).map (·.drop G.shared.length) := by
    cases dedup with
    | false => rfl
    | true => exact List.mem_eraseDups
  rw [hrests, List.mem_map]
  constructor
  · rintro ⟨rhs, hrhs, rfl⟩
    rwa [List.prefix_iff_eq_append.mp (h.shared_begins hrhs)]
  · intro hrhs
    exact ⟨_, hrhs, List.drop_left⟩

/-- What a group shares, put before what is left of its members, gives the members back. -/
theorem Group.Of.map_suffixes {alternatives : List (List Symbol)} {G : Group}
    (h : G.Of alternatives) :
    (suffixes false alternatives G).map (G.shared ++ ·) = G.sequences alternatives := by
  have hjoin : ∀ rhs ∈ G.sequences alternatives,
      ((G.shared ++ ·) ∘ (·.drop G.shared.length)) rhs = id rhs := by
    intro rhs hrhs
    exact List.prefix_iff_eq_append.mp (h.shared_begins hrhs)
  have hmap := List.map_congr_left hjoin
  rw [List.map_id, ← List.map_map] at hmap
  exact hmap

/-- If repetitions are kept, a group leaves as many suffixes as it has members. -/
theorem Group.Of.length_suffixes {alternatives : List (List Symbol)} {G : Group}
    (h : G.Of alternatives) :
    (suffixes false alternatives G).length = (G.sequences alternatives).length := by
  rw [← h.map_suffixes, List.length_map]

/-- Without repetitions no suffix is there more often. -/
theorem suffixes_subperm {alternatives : List (List Symbol)} {G : Group} (h : G.Of alternatives)
    (dedup : Bool) : (suffixes dedup alternatives G).Subperm (suffixes false alternatives G) := by
  cases dedup with
  | false => exact .refl _
  | true =>
    refine List.Nodup.subperm (nodup_eraseDups _) fun rest hrest => ?_
    have hrest : rest ∈ suffixes true alternatives G := hrest
    rw [mem_suffixes h] at hrest ⊢
    exact hrest

/-- A group has a member, and what it shares with the others stands at its beginning. -/
theorem Group.Of.exists_sequence {alternatives : List (List Symbol)} {G : Group}
    (h : G.Of alternatives) : ∃ rest, G.shared ++ rest ∈ G.sequences alternatives := by
  have hlen : 0 < (G.sequences alternatives).length := by
    have htwo := h.two_le
    rw [h.length_sequences]
    omega
  rcases List.exists_mem_of_ne_nil _ (List.ne_nil_of_length_pos hlen) with ⟨rhs, hrhs⟩
  rcases h.shared_begins hrhs with ⟨rest, rfl⟩
  exact ⟨rest, hrhs⟩

theorem suffixes_ne_nil {alternatives : List (List Symbol)} {G : Group} (h : G.Of alternatives)
    (dedup : Bool) : suffixes dedup alternatives G ≠ [] := by
  rcases h.exists_sequence with ⟨rest, hrest⟩
  exact List.ne_nil_of_mem ((mem_suffixes h).mpr hrest)

theorem mem_tails {dedup : Bool} {alternatives : List (List Symbol)}
    {marked : List (Group × Symbol)} {r : Rule} :
    r ∈ tails dedup alternatives marked ↔
      ∃ m ∈ marked, r.lhs = m.2 ∧ r.rhs ∈ suffixes dedup alternatives m.1 := by
  rcases r with ⟨lhs, rhs⟩
  simp only [tails, List.mem_flatMap, List.mem_map, Rule.mk.injEq]
  constructor
  · rintro ⟨m, hm, rest, hrest, rfl, rfl⟩
    exact ⟨m, hm, rfl, hrest⟩
  · rintro ⟨m, hm, rfl, hrest⟩
    exact ⟨m, hm, rhs, hrest, rfl, rfl⟩

/-! ## Rules by left side -/

theorem map_rhs_filter_mk (s : Symbol) (seqs : List (List Symbol)) :
    ((seqs.map (Rule.mk s)).filter (·.lhs = s)).map (·.rhs) = seqs := by
  simp [List.filter_map, Function.comp_def]

theorem filter_mk_of_ne {s t : Symbol} (hst : s ≠ t) (seqs : List (List Symbol)) :
    (seqs.map (Rule.mk s)).filter (·.lhs = t) = [] := by
  rw [List.filter_eq_nil_iff]
  intro r hr hlhs
  rcases List.mem_map.mp hr with ⟨rhs, -, rfl⟩
  exact hst (of_decide_eq_true hlhs)

theorem filter_tails_of_not_mem {dedup : Bool} {alternatives : List (List Symbol)}
    {marked : List (Group × Symbol)} {t : Symbol} (ht : t ∉ marked.map (·.2)) :
    (tails dedup alternatives marked).filter (·.lhs = t) = [] := by
  rw [List.filter_eq_nil_iff]
  intro r hr hlhs
  rcases mem_tails.mp hr with ⟨m, hm, hm2, -⟩
  apply ht
  rw [← of_decide_eq_true hlhs, hm2]
  exact List.mem_map_of_mem hm

/-- The tails with a given fresh symbol are what is left of its group, since no other group has it.
-/
theorem filter_tails {dedup : Bool} {alternatives : List (List Symbol)}
    {marked : List (Group × Symbol)} (hnodup : (marked.map (·.2)).Nodup) {m : Group × Symbol}
    (hm : m ∈ marked) :
    ((tails dedup alternatives marked).filter (·.lhs = m.2)).map (·.rhs) =
      suffixes dedup alternatives m.1 := by
  induction marked with
  | nil => cases hm
  | cons n rest ih =>
    rw [List.map_cons, List.nodup_cons] at hnodup
    have hsplit : tails dedup alternatives (n :: rest) =
        (suffixes dedup alternatives n.1).map (Rule.mk n.2) ++ tails dedup alternatives rest := rfl
    rw [hsplit, List.filter_append, List.map_append]
    rcases List.mem_cons.mp hm with rfl | hrest
    · -- the group comes first, and none of the later ones has its symbol
      rw [map_rhs_filter_mk, filter_tails_of_not_mem hnodup.1, List.map_nil, List.append_nil]
    · have hne : n.2 ≠ m.2 := by
        intro heq
        exact hnodup.1 (heq ▸ List.mem_map_of_mem hrest)
      rw [filter_mk_of_ne hne, List.map_nil, List.nil_append]
      exact ih hnodup.2 hrest

end Factoring

end ContextFree
