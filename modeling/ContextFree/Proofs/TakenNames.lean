import Mathlib.Data.List.Induction
import ContextFree.Vocabulary.FreshName

/-!
# Who takes a name

The owner of a name is the first entry of the name table that records it
(`Owners.map_id_of_ofNames`), and stays it when entries are added (`Vocabulary.find?_of_prefix`).

A name is taken by an entry of the name table: one that records it, or one without a name that the
name stands for when it is read as a placeholder (`Vocabulary.Takes`). The lookup that
`Vocabulary.isTaken` does comes to that (`Vocabulary.isTaken_iff`), since a name has an owner if and
only if it is recorded (`Vocabulary.find?_isSome_iff`).

Every issued symbol takes the name it is displayed under (`Vocabulary.takes_displayName`), so a name
that is not taken is displayed by no symbol.
-/

namespace ContextFree

namespace Owners

/-- A name that has an owner keeps it, and a new one gets the symbol it is entered for. -/
theorem getElem?_enter {owners : Owners} {name? : Option String} {s : Symbol} {name : String} :
    (owners.enter name? s)[name]? =
      owners[name]?.or (if name? = some name then some s else none) := by
  cases name? with
  | none => simp [enter]
  | some entered =>
    simp only [enter, Std.ExtTreeMap.getElem?_insertIfNew, Std.compare_eq_iff_eq,
      Option.some.injEq]
    by_cases heq : entered = name
    · cases heq
      by_cases hmem : name ∈ owners <;> simp [hmem]
    · simp [heq]

theorem map_id_of_enterAt {owners after : Owners} {name? : Option String} {n : Nat}
    (h : owners.enterAt (name?, n) = .ok after) (name : String) :
    after[name]?.map (·.id) =
      (owners[name]?.map (·.id)).or (if name? = some name then some (n % 4294967296) else none) := by
  cases name? with
  | none =>
    cases h
    simp
  | some entered =>
    cases hs : Symbol.ofNat n with
    | error e => simp [enterAt, hs, Except.map] at h
    | ok s =>
      rw [enterAt_of_ofNat hs, Except.ok.injEq] at h
      rw [← h, getElem?_enter, Option.map_or, ← Symbol.ofNat_eq_ok_iff.mp hs]
      congr 1
      split <;> rfl

/-- The owner of a name has the number of the first entry that records it, of which the low 32 bits
count. -/
theorem map_id_of_ofNames {names : List (Option String)} {owners : Owners}
    (h : ofNames names = .ok owners) (name : String) :
    owners[name]?.map (·.id) =
      (names.findIdx? (· == some name)).map (· % 4294967296) := by
  -- the last entry is entered last, so the induction takes entries off the end
  induction names using List.reverseRecOn generalizing owners with
  | nil =>
    cases h
    simp
  | append_singleton names name? ih =>
    rw [ofNames_concat] at h
    cases hbefore : ofNames names with
    | error e =>
      rw [hbefore] at h
      cases h
    | ok before =>
      rw [hbefore] at h
      rw [map_id_of_enterAt h, ih hbefore, List.findIdx?_append, Option.map_or,
        List.findIdx?_singleton]
      congr 1
      by_cases heq : name? = some name <;> simp [heq]

end Owners

namespace Vocabulary

theorem map_id_find? (v : Vocabulary) (name : String) :
    (v.find? name).map (·.id) =
      (v.names.findIdx? (· == some name)).map (· % 4294967296) :=
  Owners.map_id_of_ofNames v.ofNames_names name

theorem find?_isSome_iff {v : Vocabulary} {name : String} :
    (v.find? name).isSome = true ↔ some name ∈ v.names := by
  rw [← Option.isSome_map (f := Symbol.id), map_id_find?, Option.isSome_map, List.findIdx?_isSome,
    List.any_beq', List.contains_iff_mem]

/-- A name that is recorded keeps its owner when entries are added. -/
theorem find?_of_prefix {v w : Vocabulary} (h : v.names <+: w.names) {name : String}
    (hname : some name ∈ v.names) : w.find? name = v.find? name := by
  apply Option.map_injective fun s t => Symbol.ext
  rw [map_id_find?, map_id_find?]
  cases hfirst : v.names.findIdx? (· == some name) with
  | some id => rw [h.findIdx?_eq_some hfirst]
  | none =>
    have hne := List.findIdx?_eq_none_iff.mp hfirst _ hname
    rw [beq_self_eq_true] at hne
    cases hne

/-! ## Taken names -/

/-- Entry `id` of the name table takes the name: it records the name, or it records none and the
name stands for `id`. -/
def Takes (v : Vocabulary) (id : Nat) (name : String) : Prop :=
  v.names[id]? = some (some name) ∨
    v.names[id]? = some none ∧ Placeholder.number? name = some id

theorem Takes.lt_size {v : Vocabulary} {id : Nat} {name : String} (h : v.Takes id name) :
    id < v.size := by
  rcases h with h | ⟨h, -⟩ <;> exact (List.getElem?_eq_some_iff.mp h).1

/-- A name is taken if and only if some entry takes it. -/
theorem isTaken_iff {v : Vocabulary} {name : String} :
    v.isTaken name = true ↔ ∃ id, v.Takes id name := by
  rw [isTaken, Bool.or_eq_true, find?_isSome_iff, List.mem_iff_getElem?]
  cases hnumber : Placeholder.number? name with
  | none => simp [Takes, hnumber]
  | some id => simp [Takes, hnumber, exists_or]

theorem displayName_of_recorded {v : Vocabulary} {s : Symbol} {name : String}
    (h : v.names[s.id]? = some (some name)) : v.displayName s = name := by
  simp only [displayName, h]

theorem displayName_of_unnamed {v : Vocabulary} {s : Symbol} (h : v.names[s.id]? = some none) :
    v.displayName s = Placeholder.name s.id := by
  simp only [displayName, h]

/-- An issued symbol is displayed as before when entries are added. -/
theorem displayName_of_prefix {v w : Vocabulary} {s : Symbol} (h : v.names <+: w.names)
    (hs : s.id < v.size) : w.displayName s = v.displayName s := by
  obtain ⟨added, hadded⟩ := h
  simp only [displayName, ← hadded, List.getElem?_append_left hs]

/-- An issued symbol takes the name that it is displayed under. -/
theorem takes_displayName {v : Vocabulary} {s : Symbol} (h : s.id < v.size) :
    v.Takes s.id (v.displayName s) := by
  cases hentry : v.names[s.id]? with
  | none => exact absurd h (Nat.not_lt.mpr (List.getElem?_eq_none_iff.mp hentry))
  | some name? =>
    cases name? with
    | none =>
      rw [displayName_of_unnamed hentry]
      exact .inr ⟨hentry, Placeholder.number?_name s.id⟩
    | some name =>
      rw [displayName_of_recorded hentry]
      exact .inl hentry

/-- No issued symbol is displayed under a name that is not taken. -/
theorem displayName_ne_of_not_taken {v : Vocabulary} {s : Symbol} {name : String}
    (h : s.id < v.size) (hname : v.isTaken name = false) : v.displayName s ≠ name := by
  rintro rfl
  rw [← Bool.not_eq_true, isTaken_iff] at hname
  exact hname ⟨s.id, takes_displayName h⟩

end Vocabulary

end ContextFree
