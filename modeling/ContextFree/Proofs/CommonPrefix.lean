import Mathlib.Data.List.Basic
import ContextFree.Factoring.CommonPrefix

/-!
# The longest common prefix

The walk along the first sequence stops at the greatest length up to which all sequences agree
(`le_commonPrefixLength_iff`). So what it finds begins every sequence
(`longestCommon_begins`), and whatever begins every sequence begins it
(`prefix_longestCommon`).
-/

namespace ContextFree

namespace Factoring

/-- How far a test holds from the beginning of a list. -/
theorem le_length_takeWhile_iff {α : Type} (p : α → Bool) (l : List α) (n : Nat) :
    n ≤ (l.takeWhile p).length ↔ ∀ i < n, ∃ a, l[i]? = some a ∧ p a = true := by
  induction l generalizing n with
  | nil =>
    constructor
    · intro h i hi
      exact absurd (Nat.lt_of_lt_of_le hi h) (Nat.not_lt_zero i)
    · intro h
      cases n with
      | zero => exact Nat.le_refl _
      | succ n =>
        rcases h 0 (by omega) with ⟨a, ha, -⟩
        cases ha
  | cons b l ih =>
    cases n with
    | zero => simp
    | succ n =>
      by_cases hb : p b = true
      · rw [List.takeWhile_cons_of_pos hb, List.length_cons, Nat.add_le_add_iff_right, ih]
        constructor
        · intro h i hi
          cases i with
          | zero => exact ⟨b, rfl, hb⟩
          | succ i => exact h i (by omega)
        · intro h i hi
          exact h (i + 1) (by omega)
      · rw [List.takeWhile_cons_of_neg hb]
        constructor
        · intro h
          simp at h
        · intro h
          rcases h 0 (by omega) with ⟨a, ha, hpa⟩
          cases ha
          exact absurd hpa hb

/-- The common prefix length is the greatest length up to which every sequence agrees with the
first. -/
theorem le_commonPrefixLength_iff {first : List Symbol} {rest : List (List Symbol)} {n : Nat} :
    n ≤ commonPrefixLength (first :: rest) ↔
      n ≤ first.length ∧ ∀ other ∈ rest, first.take n <+: other := by
  rw [commonPrefixLength, le_length_takeWhile_iff]
  constructor
  · intro h
    have hlen : n ≤ first.length := by
      by_contra hn
      rcases h first.length (by omega) with ⟨a, ha, -⟩
      rw [List.getElem?_zipIdx] at ha
      simp at ha
    refine ⟨hlen, fun other hother => ?_⟩
    rw [List.prefix_iff_getElem?]
    intro i hi
    rw [List.length_take] at hi
    rcases h i (by omega) with ⟨a, ha, hall⟩
    rw [List.getElem?_zipIdx, List.getElem?_eq_getElem (by omega)] at ha
    cases ha
    have hagree := List.all_eq_true.mp hall other hother
    simpa using hagree
  · rintro ⟨hlen, hagree⟩ i hi
    refine ⟨(first[i], i), ?_, List.all_eq_true.mpr fun other hother => ?_⟩
    · rw [List.getElem?_zipIdx, List.getElem?_eq_getElem (by omega)]
      simp
    · have hpre := List.prefix_iff_getElem?.mp (hagree other hother) i
        (by rw [List.length_take]; omega)
      simpa using hpre

/-- Every sequence begins with what the sequences have in common. -/
theorem longestCommon_begins {seqs : List (List Symbol)} {seq : List Symbol} (h : seq ∈ seqs) :
    longestCommon seqs <+: seq := by
  cases seqs with
  | nil => cases h
  | cons first rest =>
    rcases List.mem_cons.mp h with rfl | hrest
    · exact List.take_prefix _ _
    · exact (le_commonPrefixLength_iff.mp (Nat.le_refl _)).2 seq hrest

/-- What every sequence begins with is part of what they have in common. -/
theorem prefix_longestCommon {seqs : List (List Symbol)} {p : List Symbol} (hne : seqs ≠ [])
    (h : ∀ seq ∈ seqs, p <+: seq) : p <+: longestCommon seqs := by
  cases seqs with
  | nil => exact absurd rfl hne
  | cons first rest =>
    have hfirst : p <+: first := h first (by simp)
    have hp : first.take p.length = p := (List.prefix_iff_eq_take.mp hfirst).symm
    have hlen : p.length ≤ commonPrefixLength (first :: rest) := by
      rw [le_commonPrefixLength_iff]
      refine ⟨hfirst.length_le, fun other hother => ?_⟩
      rw [hp]
      exact h other (by simp [hother])
    rw [← hp]
    exact List.take_prefix_take_left hlen

/-- Sequences that begin with one symbol have at least that symbol in common. -/
theorem singleton_begins_longestCommon {seqs : List (List Symbol)} {a : Symbol} (hne : seqs ≠ [])
    (h : ∀ seq ∈ seqs, seq.head? = some a) : [a] <+: longestCommon seqs := by
  apply prefix_longestCommon hne
  intro seq hseq
  rcases List.head?_eq_some_iff.mp (h seq hseq) with ⟨t, ht⟩
  exact ⟨t, ht.symm⟩

end Factoring

end ContextFree
