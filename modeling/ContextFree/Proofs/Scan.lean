import ContextFree.Proofs.NewRules

/-!
# What a scan puts together

A pass goes along the alternatives of a symbol once, finds the group of each in a table, and factors
a group out where it meets the first member. Groups may be interleaved in any way. As they are in
the order of their first members, the scan issues the fresh symbols group by group, and what it has
put together at the end are the heads and the tails of the groups (`foldlM_scanAt`).

So a pass comes to the same, whether it succeeds or runs out of symbols halfway, as issuing all
fresh symbols and then replacing the alternatives (`factorGroups_eq`).
-/

namespace ContextFree

namespace Factoring

/-! ## The table of groups -/

theorem size_enterGroup (table : Array (Option Group)) (G : Group) :
    (enterGroup table G).size = table.size := by
  rw [enterGroup]
  induction G.members generalizing table with
  | nil => rfl
  | cons j members ih => rw [List.foldl_cons, ih, Array.size_setIfInBounds]

/-- A group is entered at the positions of its members and nowhere else. -/
theorem getElem?_enterGroup {table : Array (Option Group)} (G : Group) {i : Nat}
    (hi : i < table.size) :
    (enterGroup table G)[i]? = if i ∈ G.members then some (some G) else table[i]? := by
  rw [enterGroup]
  induction G.members generalizing table with
  | nil => simp
  | cons j members ih =>
    rw [List.foldl_cons, ih (by rwa [Array.size_setIfInBounds]), Array.getElem?_setIfInBounds]
    by_cases hmem : i ∈ members
    · simp [hmem]
    · by_cases hij : j = i
      · simp [hij, hi]
      · simp [hmem, hij, Ne.symm hij]

/-- Of groups that are entered one after the other a position has the one that it is in. -/
theorem getElem?_foldl_enterGroup {Gs : List Group}
    (hdis : Gs.Pairwise fun G H => List.Disjoint G.members H.members)
    {table : Array (Option Group)} {i : Nat} (hi : i < table.size) (hnone : table[i]?.join = none) :
    (Gs.foldl enterGroup table)[i]?.join = Gs.find? (·.members.contains i) := by
  suffices h : (Gs.foldl enterGroup table)[i]?.join =
      (Gs.find? (·.members.contains i)).or table[i]?.join by
    rw [h, hnone, Option.or_none]
  clear hnone
  induction Gs generalizing table with
  | nil => rfl
  | cons G Gs ih =>
    rw [List.pairwise_cons] at hdis
    rw [List.foldl_cons, ih hdis.2 (by rwa [size_enterGroup]), getElem?_enterGroup G hi]
    by_cases hG : i ∈ G.members
    · -- no later group has the position, so the entry is not overwritten
      have hlater : Gs.find? (·.members.contains i) = none := by
        rw [List.find?_eq_none]
        intro H hH hcontains
        exact hdis.1 H hH hG (by simpa using hcontains)
      rw [hlater, if_pos hG, List.find?_cons_of_pos (by simpa using hG)]
      rfl
    · rw [if_neg hG, List.find?_cons_of_neg (by simpa using hG)]

theorem getElem?_groupTable {Gs : List Group}
    (hdis : Gs.Pairwise fun G H => List.Disjoint G.members H.members) {size i : Nat}
    (hi : i < size) : (groupTable size Gs)[i]?.join = Gs.find? (·.members.contains i) := by
  apply getElem?_foldl_enterGroup hdis
  · rwa [Array.size_replicate]
  · simp [hi]

/-! ## The scan -/

/-- A scan has come to position `k`. The groups in `done` have been factored out, with their fresh
symbols, and those in `Gs` are to come. -/
structure Reached (alternatives : List (List Symbol)) (k : Nat) (done : List (Group × Symbol))
    (Gs : List Group) : Prop where
  grouping : Grouping alternatives (done.map (·.1) ++ Gs)
  first_lt : ∀ m ∈ done, ∀ i, m.1.members.head? = some i → i < k
  le_first : ∀ G ∈ Gs, ∀ i, G.members.head? = some i → k ≤ i

namespace Reached

variable {alternatives : List (List Symbol)} {k : Nat} {done : List (Group × Symbol)}
  {Gs : List Group} {G : Group}

/-- Whatever symbols the groups that are to come will get, the groups are marked by then. -/
theorem marking (h : Reached alternatives k done Gs) (fresh : List Symbol) :
    Marking alternatives (done ++ Gs.zip fresh) := by
  have hsub : ((done ++ Gs.zip fresh).map (·.1)).Sublist (done.map (·.1) ++ Gs) := by
    rw [List.map_append, List.append_sublist_append_left, List.zip_eq_zip_take_min,
      List.map_fst_zip (by simp)]
    exact List.take_sublist _ _
  constructor
  · intro m hm
    exact h.grouping.of_mem m.1 (hsub.subset (List.mem_map_of_mem hm))
  · have hdis := h.grouping.disjoint.sublist hsub
    rwa [List.pairwise_map] at hdis

/-- A position that is in none of the groups is in no marked one. -/
theorem isFree_of_forall (hfree : ∀ G ∈ done.map (·.1) ++ Gs, k ∉ G.members)
    (fresh : List Symbol) : isFree (done ++ Gs.zip fresh) k = true := by
  rw [isFree_iff]
  intro m hm
  rcases List.mem_append.mp hm with hdone | hrest
  · exact hfree m.1 (List.mem_append_left _ (List.mem_map_of_mem hdone))
  · exact hfree m.1 (List.mem_append_right _ (List.of_mem_zip hrest).1)

/-- Unless a group begins at the position, the same groups are to come at the next one. -/
theorem next (h : Reached alternatives k done Gs) (hfirst : ∀ G ∈ Gs, G.members.head? ≠ some k) :
    Reached alternatives (k + 1) done Gs := by
  refine ⟨h.grouping, fun m hm i hi => Nat.lt_succ_of_lt (h.first_lt m hm i hi), ?_⟩
  intro G hG i hi
  have hle := h.le_first G hG i hi
  have hne : i ≠ k := by
    rintro rfl
    exact hfirst G hG hi
  omega

/-- A group that begins at the position is the first of those that are to come. -/
theorem eq_cons (h : Reached alternatives k done Gs) (hG : G ∈ done.map (·.1) ++ Gs)
    (hfirst : G.members.head? = some k) : ∃ later, Gs = G :: later := by
  have hmem : G ∈ Gs := by
    rcases List.mem_append.mp hG with hdone | hrest
    · obtain ⟨m, hm, rfl⟩ := List.mem_map.mp hdone
      exact absurd (h.first_lt m hm k hfirst) (Nat.lt_irrefl k)
    · exact hrest
  cases Gs with
  | nil => cases hmem
  | cons H later =>
    rcases List.mem_cons.mp hmem with rfl | hlater
    · exact ⟨later, rfl⟩
    · -- a group before it would begin before the position
      have hord := (List.pairwise_append.mp h.grouping.ordered).2.1
      obtain ⟨i, j, hi, hj, hlt⟩ := (List.pairwise_cons.mp hord).1 G hlater
      have hle := h.le_first H (List.mem_cons_self ..) i hi
      rw [hfirst] at hj
      cases hj
      omega

/-- The group that begins at the position is factored out. -/
theorem branch {later : List Group} (h : Reached alternatives k done (G :: later))
    (hfirst : G.members.head? = some k) (fresh : Symbol) :
    Reached alternatives (k + 1) (done ++ [(G, fresh)]) later := by
  have hord := (List.pairwise_append.mp h.grouping.ordered).2.1
  refine ⟨by simpa using h.grouping, ?_, ?_⟩
  · intro m hm i hi
    rcases List.mem_append.mp hm with hold | hnew
    · exact Nat.lt_succ_of_lt (h.first_lt m hold i hi)
    · rw [List.mem_singleton.mp hnew, hfirst] at hi
      cases hi
      exact Nat.lt_succ_self k
  · intro H hH i hi
    obtain ⟨i', j, hi', hj, hlt⟩ := (List.pairwise_cons.mp hord).1 H hH
    rw [hfirst] at hi'
    rw [hi] at hj
    cases hi'
    cases hj
    exact hlt

/-- A group that has the position, but does not begin at it, has been factored out. -/
theorem mem_done (h : Reached alternatives k done Gs) (hG : G ∈ done.map (·.1) ++ Gs)
    (hk : k ∈ G.members) (hfirst : G.members.head? ≠ some k) : ∃ m ∈ done, m.1 = G := by
  rcases List.mem_append.mp hG with hdone | hrest
  · exact List.mem_map.mp hdone
  · obtain ⟨i, members, hcons⟩ := List.exists_cons_of_ne_nil (List.ne_nil_of_mem hk)
    have hle := h.le_first G hrest i (by simp [hcons])
    have hasc := (h.grouping.of_mem G hG).ascending
    rw [hcons] at hasc hk hfirst
    -- the members after the first one are behind it
    rcases List.mem_cons.mp hk with rfl | hlater
    · exact absurd rfl hfirst
    · have hlt := (List.pairwise_cons.mp hasc).1 k hlater
      omega

/-- The first member of a group gives way to what the group shares and its symbol. -/
theorem headAt_first {later : List Group} (h : Reached alternatives k done (G :: later))
    (hk : G.members.head? = some k) (rhs : List Symbol) (fresh : Symbol) (rest : List Symbol) :
    headAt (done ++ (G :: later).zip (fresh :: rest)) (rhs, k) = some (G.shared ++ [fresh]) := by
  have hmem : (G, fresh) ∈ done ++ (G :: later).zip (fresh :: rest) := by simp
  rw [(h.marking (fresh :: rest)).headAt_of_mem hmem (List.mem_of_head? hk), if_pos hk]

/-- A later member of a group that has been factored out goes. -/
theorem headAt_later (h : Reached alternatives k done Gs) {m : Group × Symbol} (hm : m ∈ done)
    (hk : k ∈ m.1.members) (hfirst : m.1.members.head? ≠ some k) (rhs : List Symbol)
    (fresh : List Symbol) : headAt (done ++ Gs.zip fresh) (rhs, k) = none := by
  rw [(h.marking fresh).headAt_of_mem (List.mem_append_left _ hm) hk, if_neg hfirst]

/-- No group begins at a position of a group that has been factored out. -/
theorem next_of_mem_done (h : Reached alternatives k done Gs) {m : Group × Symbol} (hm : m ∈ done)
    (hk : k ∈ m.1.members) : Reached alternatives (k + 1) done Gs := by
  refine h.next fun G hG hbegins => ?_
  have hdis := (List.pairwise_append.mp h.grouping.disjoint).2.2
  exact hdis m.1 (List.mem_map_of_mem hm) G hG hk (List.mem_of_head? hbegins)

/-- No group is to come at the end. -/
theorem eq_nil (h : Reached alternatives k done Gs) (hk : alternatives.length ≤ k) : Gs = [] := by
  rw [List.eq_nil_iff_forall_not_mem]
  intro G hG
  have hof := h.grouping.of_mem G (List.mem_append_right _ hG)
  obtain ⟨i, members, hcons⟩ := List.exists_cons_of_ne_nil hof.members_ne_nil
  have hle := h.le_first G hG i (by simp [hcons])
  obtain ⟨rhs, hrhs, -⟩ := hof.begins i (by simp [hcons])
  have hlt := (List.getElem?_eq_some_iff.mp hrhs).1
  omega

end Reached

/-- What remains of a scan puts together the heads and the tails that remain. -/
theorem foldlM_scanAt (dedup : Bool) (s : Symbol) {alternatives : List (List Symbol)} {k : Nat}
    {done : List (Group × Symbol)} {Gs : List Group} (h : Reached alternatives k done Gs)
    (rest : List (List Symbol)) (hlen : k + rest.length = alternatives.length) (d : Draft) :
    (rest.zipIdx k).foldlM
        (scanAt dedup s alternatives (groupTable alternatives.length (done.map (·.1) ++ Gs))) d =
      (do
        let fresh ← Gs.mapM (separate s)
        return ⟨d.heads ++ (rest.zipIdx k).filterMap (headAt (done ++ Gs.zip fresh)),
          d.tails ++ tails dedup alternatives (Gs.zip fresh), d.fresh ++ fresh⟩) := by
  induction rest generalizing k done Gs d with
  | nil =>
    cases h.eq_nil (Nat.le_of_eq (by simpa using hlen.symm))
    simp [tails]
  | cons rhs rest ih =>
    rw [List.length_cons] at hlen
    rw [List.zipIdx_cons, List.foldlM_cons]
    have hk : k < alternatives.length := by omega
    have htable := getElem?_groupTable h.grouping.disjoint hk
    cases hfind : (done.map (·.1) ++ Gs).find? (·.members.contains k) with
    | none =>
      -- the alternative is in no group
      have hfree : ∀ G ∈ done.map (·.1) ++ Gs, k ∉ G.members := by
        intro G hG hmem
        exact List.find?_eq_none.mp hfind G hG (by simpa using hmem)
      have hnext := h.next fun G hG hfirst =>
        hfree G (List.mem_append_right _ hG) (List.mem_of_head? hfirst)
      rw [hfind] at htable
      simp only [scanAt, htable, pure_bind]
      rw [ih hnext (by omega)]
      refine bind_congr fun fresh => ?_
      have hhead : headAt (done ++ Gs.zip fresh) (rhs, k) = some rhs :=
        Marking.headAt_of_free (Reached.isFree_of_forall hfree fresh)
      rw [List.filterMap_cons_some hhead]
      simp [Draft.keep]
    | some G =>
      have hG := List.mem_of_find?_eq_some hfind
      have hmem : k ∈ G.members := by simpa using List.find?_some hfind
      rw [hfind] at htable
      simp only [scanAt, htable]
      by_cases hfirst : G.members.head? = some k
      · -- the alternative is the first member of the next group
        obtain ⟨later, rfl⟩ := h.eq_cons hG hfirst
        rw [if_pos hfirst, List.mapM_cons]
        simp only [bind_assoc, pure_bind]
        refine bind_congr fun f => ?_
        have hih := ih (h.branch hfirst f) (by omega) (d.branch dedup alternatives G f)
        have hall : (done ++ [(G, f)]).map (·.1) ++ later = done.map (·.1) ++ G :: later := by simp
        rw [hall] at hih
        rw [hih]
        refine bind_congr fun fresh => ?_
        rw [List.filterMap_cons_some (h.headAt_first hfirst rhs f fresh)]
        simp [Draft.branch, tails]
      · -- it is a later member of a group that has been factored out
        obtain ⟨m, hm, rfl⟩ := h.mem_done hG hmem hfirst
        rw [if_neg hfirst, pure_bind, ih (h.next_of_mem_done hm hmem) (by omega)]
        refine bind_congr fun fresh => ?_
        rw [List.filterMap_cons_none (h.headAt_later hm hmem hfirst rhs fresh)]

/-- Factoring groups out in one scan is issuing all fresh symbols and then replacing the
alternatives. -/
theorem factorGroups_eq (dedup : Bool) (s : Symbol) {Gs : List Group} {w : Workspace}
    (h : Grouping (w.grammar.rightSides s) Gs) :
    factorGroups dedup s Gs w =
      (do
        let fresh ← Gs.mapM (separate s)
        modify (·.replace s (factoredRules dedup s (w.grammar.rightSides s) (Gs.zip fresh)))
        return fresh : Action Workspace (List Symbol)) w := by
  have hreached : Reached (w.grammar.rightSides s) 0 [] Gs := by
    refine ⟨h, ?_, fun _ _ _ _ => Nat.zero_le _⟩
    intro m hm
    cases hm
  have hscan := foldlM_scanAt dedup s hreached (w.grammar.rightSides s) (Nat.zero_add _) .empty
  rw [factorGroups, Action.bind_apply, Action.get_apply]
  dsimp only
  rw [List.map_nil, List.nil_append] at hscan
  rw [hscan, bind_assoc]
  rfl

end Factoring

end ContextFree
