import ContextFree.Rule

/-!
# Rules by left side

A rule index keeps, for each left side, the positions of its rules in the order in which they were
recorded. Left sides are listed in the order in which they were first seen.

The groups are found through a table of slots, which has an entry for each symbol number that has
been asked for and grows when a greater number comes. `RuleIndex.Sound` says that table and groups
agree, and what is recorded and how is said by `RuleIndex.positions_push` for sound indexes.

`RuleIndex.ofRules` is the index of a list of rules; `RuleIndex.ofRules_concat` says that a rule
added at the end of the list is recorded last.
-/

namespace ContextFree

/-- Positions of rules by left side. -/
structure RuleIndex where
  /-- Each left side with the positions recorded for it. -/
  groups : List (Symbol × List Nat)
  /-- Where the group of each left side is, by the number of the left side. -/
  slots : Array (Option Nat)
deriving DecidableEq, Repr

namespace RuleIndex

/-- The index without rules. -/
def empty : RuleIndex :=
  ⟨[], #[]⟩

instance : Inhabited RuleIndex :=
  ⟨empty⟩

/-- Where the group of `s` is. -/
def slot? (index : RuleIndex) (s : Symbol) : Option Nat :=
  index.slots[s.id]?.join

/-- The index with an entry for `s` in the table. -/
def reserve (index : RuleIndex) (s : Symbol) : RuleIndex :=
  { index with slots := index.slots.rightpad (s.id + 1) none }

/-- The index with a new group for `s`, in which no position is recorded yet. -/
def openGroup (index : RuleIndex) (s : Symbol) : RuleIndex where
  groups := index.groups ++ [(s, [])]
  slots := index.slots.setIfInBounds s.id (some index.groups.length)

/-- Records a position in the group at a slot. -/
def record (index : RuleIndex) (slot pos : Nat) : RuleIndex :=
  { index with groups := index.groups.modify slot fun group => (group.1, group.2 ++ [pos]) }

/-- Records a rule for `lhs` at position `pos`. -/
def push (index : RuleIndex) (lhs : Symbol) (pos : Nat) : RuleIndex :=
  let reserved := index.reserve lhs
  match reserved.slot? lhs with
  | some slot => reserved.record slot pos
  | none => (reserved.openGroup lhs).record reserved.groups.length pos

/-- The index of a list of rules. -/
def ofRules (rules : List Rule) : RuleIndex :=
  rules.zipIdx.foldl (fun index entry => index.push entry.1.lhs entry.2) empty

/-- The positions of the rules for `lhs`. -/
def positions (index : RuleIndex) (lhs : Symbol) : List Nat :=
  match index.slot? lhs with
  | some slot => (index.groups[slot]?.map (·.2)).getD []
  | none => []

/-- Is there a rule for `lhs`? -/
def contains (index : RuleIndex) (lhs : Symbol) : Bool :=
  (index.slot? lhs).isSome

/-- The left sides, in the order in which they were first seen. -/
def leftSides (index : RuleIndex) : List Symbol :=
  index.groups.map (·.1)

theorem ofRules_concat (rules : List Rule) (r : Rule) :
    ofRules (rules ++ [r]) = (ofRules rules).push r.lhs rules.length := by
  simp [ofRules, List.zipIdx_append]

/-! ## The steps of recording -/

@[simp]
theorem leftSides_reserve (index : RuleIndex) (s : Symbol) :
    (index.reserve s).leftSides = index.leftSides :=
  rfl

/-- New entries of the table are empty. -/
@[simp]
theorem slot?_reserve (index : RuleIndex) (s t : Symbol) :
    (index.reserve s).slot? t = index.slot? t := by
  simp only [slot?, reserve, Array.rightpad, Array.getElem?_append, Array.getElem?_replicate]
  by_cases h : t.id < index.slots.size
  · rw [if_pos h]
  · rw [if_neg h, Array.getElem?_eq_none (Nat.le_of_not_lt h)]
    split <;> rfl

theorem id_lt_size_reserve (index : RuleIndex) (s : Symbol) :
    s.id < (index.reserve s).slots.size := by
  simp only [reserve, Array.size_rightpad]
  omega

@[simp]
theorem leftSides_openGroup (index : RuleIndex) (s : Symbol) :
    (index.openGroup s).leftSides = index.leftSides ++ [s] := by
  simp [leftSides, openGroup]

theorem slot?_openGroup {index : RuleIndex} {s : Symbol} (h : s.id < index.slots.size)
    (t : Symbol) :
    (index.openGroup s).slot? t = if t = s then some index.groups.length else index.slot? t := by
  simp only [slot?, openGroup, Array.getElem?_setIfInBounds, Symbol.ext_iff]
  by_cases hts : t.id = s.id
  · simp [hts, h]
  · simp [hts, Ne.symm hts]

@[simp]
theorem leftSides_record (index : RuleIndex) (slot pos : Nat) :
    (index.record slot pos).leftSides = index.leftSides := by
  apply List.ext_getElem?
  intro i
  simp only [leftSides, record, List.getElem?_map, List.getElem?_modify]
  cases index.groups[i]? with
  | none => rfl
  | some group => by_cases h : slot = i <;> simp [h]

@[simp]
theorem slot?_record (index : RuleIndex) (slot pos : Nat) (s : Symbol) :
    (index.record slot pos).slot? s = index.slot? s :=
  rfl

/-! ## Table and groups -/

/-- Table and groups agree: the table has slot `k` for the left side of the `k`-th group, and has no
other slots. -/
def Sound (index : RuleIndex) : Prop :=
  ∀ s k, index.slot? s = some k ↔ index.leftSides[k]? = some s

theorem sound_empty : empty.Sound := by
  intro s k
  simp [slot?, leftSides, empty]

namespace Sound

variable {index : RuleIndex}

theorem slot_lt (h : index.Sound) {s : Symbol} {k : Nat} (hk : index.slot? s = some k) :
    k < index.groups.length := by
  have hlt := (List.getElem?_eq_some_iff.mp ((h s k).mp hk)).1
  simpa [leftSides] using hlt

theorem contains_iff (h : index.Sound) {s : Symbol} :
    index.contains s = true ↔ s ∈ index.leftSides := by
  rw [contains, Option.isSome_iff_exists, List.mem_iff_getElem?]
  exact exists_congr (h s)

theorem reserve (h : index.Sound) (s : Symbol) : (index.reserve s).Sound := by
  intro t k
  rw [slot?_reserve, leftSides_reserve]
  exact h t k

theorem record (h : index.Sound) (slot pos : Nat) : (index.record slot pos).Sound := by
  intro t k
  rw [slot?_record, leftSides_record]
  exact h t k

/-- The new group comes last, and its left side has had none before. -/
theorem openGroup (h : index.Sound) {s : Symbol} (hlt : s.id < index.slots.size)
    (hnone : index.slot? s = none) : (index.openGroup s).Sound := by
  have hlen : index.groups.length = index.leftSides.length := by simp [leftSides]
  intro t k
  rw [slot?_openGroup hlt, leftSides_openGroup, hlen]
  by_cases hk : k < index.leftSides.length
  · rw [List.getElem?_append_left hk, ← h t k]
    by_cases hts : t = s
    · subst hts
      simp only [if_true, hnone, Option.some.injEq, reduceCtorEq, iff_false]
      omega
    · rw [if_neg hts]
  · rw [List.getElem?_append_right (Nat.le_of_not_lt hk)]
    by_cases hts : t = s
    · subst hts
      simp [List.getElem?_singleton]
      omega
    · rw [if_neg hts, h t k, List.getElem?_eq_none (Nat.le_of_not_lt hk)]
      simp [List.getElem?_singleton, Ne.symm hts]

theorem push (h : index.Sound) (lhs : Symbol) (pos : Nat) : (index.push lhs pos).Sound := by
  simp only [RuleIndex.push]
  split
  · exact (h.reserve lhs).record _ _
  next hnone =>
    exact ((h.reserve lhs).openGroup (index.id_lt_size_reserve lhs) hnone).record _ _

end Sound

/-- The index of a list of rules is sound. -/
theorem sound_ofRules (rules : List Rule) : (ofRules rules).Sound := by
  rw [ofRules]
  generalize rules.zipIdx = entries
  suffices h : ∀ index : RuleIndex, index.Sound →
      (entries.foldl (fun index entry => index.push entry.1.lhs entry.2) index).Sound from
    h empty sound_empty
  induction entries with
  | nil => exact fun _ h => h
  | cons entry entries ih => exact fun index h => ih _ (h.push entry.1.lhs entry.2)

/-! ## One more rule -/

theorem positions_of_slot {index : RuleIndex} {s : Symbol} {k : Nat} (h : index.slot? s = some k) :
    index.positions s = (index.groups[k]?.map (·.2)).getD [] := by
  simp only [positions, h]

theorem positions_of_none {index : RuleIndex} {s : Symbol} (h : index.slot? s = none) :
    index.positions s = [] := by
  simp only [positions, h]

@[simp]
theorem positions_reserve (index : RuleIndex) (s t : Symbol) :
    (index.reserve s).positions t = index.positions t := by
  simp only [positions, slot?_reserve]
  rfl

/-- No position is recorded in a new group. -/
theorem positions_openGroup {index : RuleIndex} (h : index.Sound) {s : Symbol}
    (hlt : s.id < index.slots.size) (hnone : index.slot? s = none) (t : Symbol) :
    (index.openGroup s).positions t = index.positions t := by
  have hslot := slot?_openGroup hlt t
  by_cases hts : t = s
  · subst hts
    rw [if_pos rfl] at hslot
    rw [positions_of_slot hslot, positions_of_none hnone]
    simp [openGroup]
  · rw [if_neg hts] at hslot
    cases hk : index.slot? t with
    | none => rw [positions_of_none (hslot.trans hk), positions_of_none hk]
    | some k =>
      rw [positions_of_slot (hslot.trans hk), positions_of_slot hk, openGroup,
        List.getElem?_append_left (h.slot_lt hk)]

theorem positions_record {index : RuleIndex} (h : index.Sound) {lhs : Symbol} {slot : Nat}
    (hslot : index.slot? lhs = some slot) (pos : Nat) (s : Symbol) :
    (index.record slot pos).positions s =
      if s = lhs then index.positions s ++ [pos] else index.positions s := by
  have hsame := slot?_record index slot pos s
  by_cases hs : s = lhs
  · subst hs
    rw [if_pos rfl, positions_of_slot (hsame.trans hslot), positions_of_slot hslot, record]
    simp [List.getElem?_eq_getElem (h.slot_lt hslot)]
  · rw [if_neg hs]
    cases hk : index.slot? s with
    | none => rw [positions_of_none (hsame.trans hk), positions_of_none hk]
    | some k =>
      -- a slot is the slot of one left side only
      have hne : slot ≠ k := by
        rintro rfl
        rw [h] at hk hslot
        exact hs (Option.some.inj (hk.symm.trans hslot))
      rw [positions_of_slot (hsame.trans hk), positions_of_slot hk, record]
      simp [hne]

/-- The new position comes last for its own left side, and nothing changes for the others. -/
theorem positions_push {index : RuleIndex} (h : index.Sound) (lhs s : Symbol) (pos : Nat) :
    (index.push lhs pos).positions s =
      if s = lhs then index.positions s ++ [pos] else index.positions s := by
  have hr := h.reserve lhs
  simp only [push]
  split
  next slot hslot => rw [positions_record hr hslot, positions_reserve]
  next hnone =>
    have hlt := index.id_lt_size_reserve lhs
    have hnew : ((index.reserve lhs).openGroup lhs).slot? lhs =
        some (index.reserve lhs).groups.length := by
      rw [slot?_openGroup hlt, if_pos rfl]
    rw [positions_record (hr.openGroup hlt hnone) hnew, positions_openGroup hr hlt hnone,
      positions_reserve]

/-- A left side is listed when it is first seen. -/
theorem leftSides_push (index : RuleIndex) (lhs : Symbol) (pos : Nat) :
    (index.push lhs pos).leftSides =
      if index.contains lhs then index.leftSides else index.leftSides ++ [lhs] := by
  simp only [push, contains]
  split
  next slot hslot =>
    rw [slot?_reserve] at hslot
    simp [hslot]
  next hnone =>
    rw [slot?_reserve] at hnone
    simp [hnone]

theorem contains_push (index : RuleIndex) (lhs s : Symbol) (pos : Nat) :
    (index.push lhs pos).contains s = (decide (s = lhs) || index.contains s) := by
  simp only [push, contains]
  split
  next slot hslot =>
    rw [slot?_reserve] at hslot
    by_cases hs : s = lhs
    · simp [hs, hslot]
    · simp [hs]
  · rw [slot?_record, slot?_openGroup (index.id_lt_size_reserve lhs), slot?_reserve]
    by_cases hs : s = lhs <;> simp [hs]

end RuleIndex

end ContextFree
