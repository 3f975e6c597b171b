import Mathlib.Data.List.Nodup
import ContextFree.Factoring.Partition
import ContextFree.Proofs.Alternatives

/-!
# Classes of alternatives

The walk along the alternatives keeps its table in step with the classes (`Partition.Tracks`),
whatever order the first symbols come in and however many empty alternatives stand between them. So
at the end there is one class for each symbol that an alternative begins with, it has the positions
of all the alternatives that begin with the symbol (`classes_ofAlternatives`), and the classes are
in the order of their first positions (`firstSymbols_ordered`).
-/

namespace ContextFree

/-! ## Lists without repetitions -/

theorem nodup_eraseDups {α : Type} [BEq α] [LawfulBEq α] : (l : List α) → l.eraseDups.Nodup
  | [] => by simp
  | a :: rest => by
    rw [List.eraseDups_cons, List.nodup_cons, List.mem_eraseDups, List.mem_filter]
    exact ⟨by simp, nodup_eraseDups _⟩
termination_by l => l.length
decreasing_by exact Nat.lt_succ_of_le (List.length_filter_le _ _)

/-- An entry at the end of a list counts only if it is not in the list already. -/
theorem eraseDups_concat {α : Type} [DecidableEq α] (l : List α) (a : α) :
    (l ++ [a]).eraseDups = if a ∈ l then l.eraseDups else l.eraseDups ++ [a] := by
  have hsingle : ([a].removeAll l).eraseDups = if a ∈ l then [] else [a] := by
    unfold List.removeAll
    by_cases h : a ∈ l <;> simp [h, List.eraseDups_cons]
  rw [List.eraseDups_append, hsingle]
  split
  · rw [List.append_nil]
  · rfl

namespace Factoring

/-! ## The alternatives that begin with a symbol -/

/-- The positions of the alternatives that begin with `s`. -/
def positionsFrom (alternatives : List (List Symbol)) (s : Symbol) : List Nat :=
  (alternatives.zipIdx.filter fun entry => entry.1.head? == some s).map (·.2)

/-- The symbols that alternatives begin with, in the order in which they are first met. -/
def firstSymbols (alternatives : List (List Symbol)) : List Symbol :=
  (alternatives.filterMap List.head?).eraseDups

variable {alternatives : List (List Symbol)} {a : Symbol} {i : Nat}

theorem mem_positionsFrom :
    i ∈ positionsFrom alternatives a ↔ alternatives[i]?.bind List.head? = some a := by
  have hmem := mem_positions alternatives (fun rhs => rhs.head? == some a) (i := i)
  simp only [beq_iff_eq] at hmem
  rw [Option.bind_eq_some_iff]
  exact hmem

theorem positionsFrom_ascending (alternatives : List (List Symbol)) (a : Symbol) :
    (positionsFrom alternatives a).Pairwise (· < ·) :=
  positions_ascending alternatives fun rhs => rhs.head? == some a

theorem lt_length_of_mem_positionsFrom (h : i ∈ positionsFrom alternatives a) :
    i < alternatives.length := by
  obtain ⟨rhs, hrhs, -⟩ := Option.bind_eq_some_iff.mp (mem_positionsFrom.mp h)
  exact (List.getElem?_eq_some_iff.mp hrhs).1

theorem length_positionsFrom_le (alternatives : List (List Symbol)) (a : Symbol) :
    (positionsFrom alternatives a).length ≤ alternatives.length := by
  have hle := List.length_filter_le (fun entry : List Symbol × Nat => entry.1.head? == some a)
    alternatives.zipIdx
  rwa [List.length_zipIdx, ← List.length_map (f := (·.2))] at hle

theorem firstSymbols_nodup (alternatives : List (List Symbol)) :
    (firstSymbols alternatives).Nodup :=
  nodup_eraseDups _

theorem mem_firstSymbols :
    a ∈ firstSymbols alternatives ↔ positionsFrom alternatives a ≠ [] := by
  rw [firstSymbols, List.mem_eraseDups, List.mem_filterMap]
  constructor
  · rintro ⟨rhs, hrhs, hhead⟩
    obtain ⟨i, hi⟩ := List.mem_iff_getElem?.mp hrhs
    have hmem : i ∈ positionsFrom alternatives a :=
      mem_positionsFrom.mpr (Option.bind_eq_some_iff.mpr ⟨rhs, hi, hhead⟩)
    exact List.ne_nil_of_mem hmem
  · intro hne
    obtain ⟨i, hi⟩ := List.exists_mem_of_ne_nil _ hne
    obtain ⟨rhs, hrhs, hhead⟩ := Option.bind_eq_some_iff.mp (mem_positionsFrom.mp hi)
    exact ⟨rhs, List.mem_of_getElem? hrhs, hhead⟩

/-! ## One more alternative -/

theorem positionsFrom_concat (alternatives : List (List Symbol)) (rhs : List Symbol) (a : Symbol) :
    positionsFrom (alternatives ++ [rhs]) a =
      positionsFrom alternatives a ++ if rhs.head? = some a then [alternatives.length] else [] := by
  rw [positionsFrom, List.zipIdx_append, List.filter_append, List.map_append]
  by_cases h : rhs.head? = some a <;> simp [positionsFrom, h]

theorem firstSymbols_concat (alternatives : List (List Symbol)) (rhs : List Symbol) :
    firstSymbols (alternatives ++ [rhs]) =
      match rhs.head? with
      | none => firstSymbols alternatives
      | some a =>
        if a ∈ firstSymbols alternatives then firstSymbols alternatives
        else firstSymbols alternatives ++ [a] := by
  rw [firstSymbols, List.filterMap_append]
  cases h : rhs.head? with
  | none => simp [firstSymbols, h]
  | some a =>
    have hlast : [rhs].filterMap List.head? = [a] := by simp [h]
    rw [hlast, eraseDups_concat]
    simp only [firstSymbols, List.mem_eraseDups]

/-! ## Order of classes -/

/-- Alternatives that begin with `a` are met before any that begin with `b`. -/
def MetBefore (alternatives : List (List Symbol)) (a b : Symbol) : Prop :=
  ∃ i, (positionsFrom alternatives a).head? = some i ∧ ∀ j ∈ positionsFrom alternatives b, i < j

/-- A symbol that has been met is met before all that come later. -/
theorem metBefore_concat {rhs : List Symbol} {b : Symbol} (ha : a ∈ firstSymbols alternatives)
    (h : ∀ i, (positionsFrom alternatives a).head? = some i →
      ∀ j ∈ positionsFrom alternatives b, i < j) :
    MetBefore (alternatives ++ [rhs]) a b := by
  rw [mem_firstSymbols] at ha
  obtain ⟨i, hi⟩ := Option.ne_none_iff_exists'.mp (List.head?_eq_none_iff.not.mpr ha)
  have hlt := lt_length_of_mem_positionsFrom (List.mem_of_head? hi)
  refine ⟨i, ?_, ?_⟩
  · rw [positionsFrom_concat, List.head?_append_of_ne_nil _ ha, hi]
  · intro j hj
    rw [positionsFrom_concat, List.mem_append] at hj
    rcases hj with hold | hnew
    · exact h i hi j hold
    · -- the new position is behind all the old ones
      split at hnew
      · rw [List.mem_singleton.mp hnew]
        exact hlt
      · cases hnew

theorem firstSymbols_ordered (alternatives : List (List Symbol)) :
    (firstSymbols alternatives).Pairwise (MetBefore alternatives) := by
  induction alternatives using List.reverseRecOn with
  | nil => exact List.Pairwise.nil
  | append_singleton alternatives rhs ih =>
    have hold : (firstSymbols alternatives).Pairwise (MetBefore (alternatives ++ [rhs])) := by
      refine ih.imp_of_mem ?_
      rintro a b ha - ⟨i, hi, hlt⟩
      apply metBefore_concat ha
      intro i' hi'
      rw [hi] at hi'
      cases hi'
      exact hlt
    rw [firstSymbols_concat]
    split
    · exact hold
    next b hhead =>
      split
      · exact hold
      next hnew =>
        rw [List.pairwise_append]
        refine ⟨hold, List.pairwise_singleton _ b, ?_⟩
        intro a ha b' hb'
        rw [List.mem_singleton.mp hb']
        -- no old alternative begins with `b`
        rw [mem_firstSymbols, not_not] at hnew
        apply metBefore_concat ha
        intro i _ j hj
        rw [hnew] at hj
        cases hj

/-! ## The walk -/

namespace Partition

/-- The walk has come to the end of the alternatives: the table has slot `k` for the `k`-th symbol
that it has met, and has no other slots, and the class at that slot is the one of that symbol. -/
structure Tracks (alternatives : List (List Symbol)) (p : Partition) : Prop where
  slot_iff : ∀ (a : Symbol) (k : Nat),
    p.slots[a]? = some k ↔ (firstSymbols alternatives)[k]? = some a
  classes_eq : p.classes = (firstSymbols alternatives).map (positionsFrom alternatives)

theorem tracks_empty : empty.Tracks [] := by
  constructor
  · intro a k
    simp [empty, firstSymbols]
  · rfl

namespace Tracks

variable {p : Partition}

theorem mem_of_slot (h : p.Tracks alternatives) {k : Nat} (hk : p.slots[a]? = some k) :
    a ∈ firstSymbols alternatives :=
  List.mem_of_getElem? ((h.slot_iff a k).mp hk)

theorem not_mem_of_none (h : p.Tracks alternatives) (hnone : p.slots[a]? = none) :
    a ∉ firstSymbols alternatives := by
  intro ha
  obtain ⟨k, hk⟩ := List.mem_iff_getElem?.mp ha
  rw [← h.slot_iff, hnone] at hk
  cases hk

/-- An alternative that begins with a symbol that has been met goes to the end of its class. -/
theorem look_old (h : p.Tracks alternatives) {rhs : List Symbol} (hhead : rhs.head? = some a)
    {k : Nat} (hk : p.slots[a]? = some k) :
    ({ p with classes := p.classes.modify k (· ++ [alternatives.length]) } : Partition).Tracks
      (alternatives ++ [rhs]) := by
  have hsame : firstSymbols (alternatives ++ [rhs]) = firstSymbols alternatives := by
    rw [firstSymbols_concat, hhead]
    exact if_pos (h.mem_of_slot hk)
  constructor
  · rw [hsame]
    exact h.slot_iff
  · rw [hsame, h.classes_eq]
    apply List.ext_getElem?
    intro j
    rw [List.getElem?_modify, List.getElem?_map, List.getElem?_map]
    cases hb : (firstSymbols alternatives)[j]? with
    | none => simp
    | some b =>
      -- the slot at `j` is that of `b`, so it is `k` just if `b` is the symbol
      have hjk : k = j ↔ a = b := by
        constructor
        · rintro rfl
          have ha := (h.slot_iff a k).mp hk
          rw [hb] at ha
          exact (Option.some.inj ha).symm
        · rintro rfl
          have hj := (h.slot_iff a j).mpr hb
          rw [hk] at hj
          exact Option.some.inj hj
      by_cases hab : a = b
      · simp [hjk.mpr hab, positionsFrom_concat, hhead, hab]
      · simp [mt hjk.mp hab, positionsFrom_concat, hhead, hab]

/-- A symbol that is met for the first time gets the next slot. -/
theorem look_new (h : p.Tracks alternatives) {rhs : List Symbol} (hhead : rhs.head? = some a)
    (hnone : p.slots[a]? = none) :
    (⟨p.slots.insert a p.classes.length, p.classes ++ [[alternatives.length]]⟩ :
      Partition).Tracks (alternatives ++ [rhs]) := by
  have hnew := h.not_mem_of_none hnone
  have hmore : firstSymbols (alternatives ++ [rhs]) = firstSymbols alternatives ++ [a] := by
    rw [firstSymbols_concat, hhead]
    exact if_neg hnew
  have hlen : p.classes.length = (firstSymbols alternatives).length := by
    rw [h.classes_eq, List.length_map]
  constructor
  · intro b k
    rw [hmore, Std.ExtTreeMap.getElem?_insert, hlen]
    by_cases hab : a = b
    · subst hab
      rw [if_pos Std.ReflOrd.compare_self, Option.some.injEq]
      constructor
      · rintro rfl
        exact List.getElem?_concat_length
      · intro hk
        by_contra hne
        rcases Nat.lt_or_ge k (firstSymbols alternatives).length with hlt | hge
        · rw [List.getElem?_append_left hlt] at hk
          exact hnew (List.mem_of_getElem? hk)
        · have hbound := (List.getElem?_eq_some_iff.mp hk).1
          rw [List.length_append, List.length_singleton] at hbound
          omega
    · have hcmp : compare a b ≠ .eq := fun heq => hab (Std.LawfulEqOrd.eq_of_compare heq)
      rw [if_neg hcmp, h.slot_iff]
      rcases Nat.lt_or_ge k (firstSymbols alternatives).length with hlt | hge
      · rw [List.getElem?_append_left hlt]
      · rw [List.getElem?_append_right hge, List.getElem?_eq_none hge, List.getElem?_singleton]
        split <;> simp [hab]
  · show p.classes ++ [[alternatives.length]] = _
    rw [hmore, List.map_append, h.classes_eq]
    congr 1
    · apply List.map_congr_left
      intro b hb
      have hab : a ≠ b := fun heq => hnew (heq ▸ hb)
      simp [positionsFrom_concat, hhead, hab]
    · rw [mem_firstSymbols, not_not] at hnew
      simp [positionsFrom_concat, hhead, hnew]

/-- One more alternative is looked at. -/
theorem look (h : p.Tracks alternatives) (rhs : List Symbol) :
    (p.look (rhs, alternatives.length)).Tracks (alternatives ++ [rhs]) := by
  unfold Partition.look
  split
  next hhead =>
    -- an empty alternative is in no class
    constructor
    · rw [firstSymbols_concat, hhead]
      exact h.slot_iff
    · rw [firstSymbols_concat, hhead, h.classes_eq]
      apply List.map_congr_left
      intro b _
      simp [positionsFrom_concat, hhead]
  next first hhead =>
    unfold enter
    split
    next slot hslot => exact h.look_old hhead hslot
    next hnone => exact h.look_new hhead hnone

end Tracks

theorem tracks_ofAlternatives (alternatives : List (List Symbol)) :
    (ofAlternatives alternatives).Tracks alternatives := by
  induction alternatives using List.reverseRecOn with
  | nil => exact tracks_empty
  | append_singleton alternatives rhs ih =>
    rw [ofAlternatives_concat]
    exact ih.look rhs

/-- There is a class for each symbol that is met, with all the alternatives that begin with it. -/
theorem classes_ofAlternatives (alternatives : List (List Symbol)) :
    (ofAlternatives alternatives).classes =
      (firstSymbols alternatives).map (positionsFrom alternatives) :=
  (tracks_ofAlternatives alternatives).classes_eq

end Partition

end Factoring

end ContextFree
