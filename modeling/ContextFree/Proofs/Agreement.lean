import Mathlib.Order.Bounds.Basic
import ContextFree.Proofs.Alternatives
import ContextFree.Proofs.CommonPrefix
import ContextFree.Proofs.Run

/-!
# How far sequences agree

The walk that finds the common prefix length goes along the first sequence and looks the others up.
The result is the same for any member in place of the first (`le_commonPrefixLength_iff_of_mem`): it
is the greatest length up to which all sequences agree. So neither order nor repetition counts, a
further sequence can only make it less, and it is the least of what a member has in common with each
of the others.
-/

namespace ContextFree

namespace Factoring

variable {seqs seqs' : List (List Symbol)} {a : List Symbol} {n : Nat}

/-- All sequences have `n` symbols, and agree on their first `n`. -/
structure Agree (n : Nat) (seqs : List (List Symbol)) : Prop where
  le_length : ∀ seq ∈ seqs, n ≤ seq.length
  take_eq : ∀ seq ∈ seqs, ∀ other ∈ seqs, seq.take n = other.take n

/-- It does not matter which member the others are compared with. -/
theorem agree_iff_of_mem (ha : a ∈ seqs) :
    Agree n seqs ↔ n ≤ a.length ∧ ∀ seq ∈ seqs, a.take n <+: seq := by
  constructor
  · intro h
    refine ⟨h.le_length a ha, fun seq hseq => ?_⟩
    rw [h.take_eq a ha seq hseq]
    exact List.take_prefix n seq
  · rintro ⟨hlen, hbegins⟩
    have htake : (a.take n).length = n := List.length_take_of_le hlen
    have heq : ∀ seq ∈ seqs, seq.take n = a.take n := by
      intro seq hseq
      have hprefix := List.prefix_iff_eq_take.mp (hbegins seq hseq)
      rw [htake] at hprefix
      exact hprefix.symm
    constructor
    · intro seq hseq
      rw [← htake]
      exact (hbegins seq hseq).length_le
    · intro seq hseq other hother
      rw [heq seq hseq, heq other hother]

/-! ## Any member in place of the first -/

theorem le_commonPrefixLength_iff_agree (hne : seqs ≠ []) :
    n ≤ commonPrefixLength seqs ↔ Agree n seqs := by
  cases seqs with
  | nil => exact absurd rfl hne
  | cons first rest =>
    rw [le_commonPrefixLength_iff, agree_iff_of_mem List.mem_cons_self, List.forall_mem_cons]
    simp only [List.take_prefix, true_and]

theorem le_commonPrefixLength_iff_of_mem (ha : a ∈ seqs) :
    n ≤ commonPrefixLength seqs ↔ n ≤ a.length ∧ ∀ seq ∈ seqs, a.take n <+: seq := by
  rw [le_commonPrefixLength_iff_agree (List.ne_nil_of_mem ha), agree_iff_of_mem ha]

/-- Of sequences among others, all have at least as much in common. -/
theorem commonPrefixLength_le_of_subset (hne : seqs ≠ []) (hsub : seqs ⊆ seqs') :
    commonPrefixLength seqs' ≤ commonPrefixLength seqs := by
  obtain ⟨a, ha⟩ := List.exists_mem_of_ne_nil seqs hne
  obtain ⟨hlen, hbegins⟩ := (le_commonPrefixLength_iff_of_mem (hsub ha)).mp le_rfl
  exact (le_commonPrefixLength_iff_of_mem ha).mpr ⟨hlen, fun seq hseq => hbegins seq (hsub hseq)⟩

/-- Only which sequences there are counts. -/
theorem commonPrefixLength_congr (hmem : ∀ seq, seq ∈ seqs ↔ seq ∈ seqs') :
    commonPrefixLength seqs = commonPrefixLength seqs' := by
  cases seqs with
  | nil =>
    have hnil : seqs' = [] := List.eq_nil_iff_forall_not_mem.mpr fun seq hseq =>
      List.not_mem_nil ((hmem seq).mpr hseq)
    rw [hnil]
  | cons first rest =>
    have hne' : seqs' ≠ [] := List.ne_nil_of_mem ((hmem first).mp List.mem_cons_self)
    exact Nat.le_antisymm
      (commonPrefixLength_le_of_subset hne' fun seq hseq => (hmem seq).mpr hseq)
      (commonPrefixLength_le_of_subset (List.cons_ne_nil first rest) fun seq hseq =>
        (hmem seq).mp hseq)

/-! ## Two by two -/

/-- How far two sequences agree, by a walk along both. -/
def pairLength (a b : List Symbol) : Nat :=
  ((a.zip b).takeWhile fun pair => pair.1 == pair.2).length

theorem commonPrefixLength_pair (a b : List Symbol) :
    commonPrefixLength [a, b] = pairLength a b := by
  -- either walk goes on at a place if both sequences have the same symbol there
  have hleft : ∀ i : Nat, (∃ entry : Symbol × Nat, a.zipIdx[i]? = some entry ∧
        ([b].all fun other => other[entry.2]? == some entry.1) = true) ↔
      ∃ x, a[i]? = some x ∧ b[i]? = some x := by
    intro i
    cases ha : a[i]? with
    | none => simp [List.getElem?_zipIdx, ha]
    | some x => simp [List.getElem?_zipIdx, ha]
  have hright : ∀ i : Nat, (∃ pair : Symbol × Symbol, (a.zip b)[i]? = some pair ∧
        (pair.1 == pair.2) = true) ↔
      ∃ x, a[i]? = some x ∧ b[i]? = some x := by
    intro i
    simp only [List.getElem?_zip_eq_some, beq_iff_eq]
    constructor
    · rintro ⟨pair, ⟨hx, hy⟩, heq⟩
      exact ⟨pair.1, hx, heq ▸ hy⟩
    · rintro ⟨x, hx, hy⟩
      exact ⟨(x, x), ⟨hx, hy⟩, rfl⟩
  apply eq_of_forall_le_iff
  intro n
  rw [commonPrefixLength, pairLength, le_length_takeWhile_iff, le_length_takeWhile_iff]
  simp only [hleft, hright]

theorem le_commonPrefixLength_pair_iff {b : List Symbol} :
    n ≤ commonPrefixLength [a, b] ↔ n ≤ a.length ∧ a.take n <+: b := by
  rw [le_commonPrefixLength_iff]
  simp only [List.mem_singleton, forall_eq]

/-- A number with the same lower bounds as some values together is the least of them. -/
theorem isLeast_of_le_iff {α : Type} {l : List α} {f : α → Nat} {m : Nat}
    (h : ∀ n, n ≤ m ↔ ∀ b ∈ l, n ≤ f b) : IsLeast {n | ∃ b ∈ l, f b = n} m := by
  have hle : ∀ b ∈ l, m ≤ f b := (h m).mp le_rfl
  constructor
  · by_contra hnone
    have hlt : ∀ b ∈ l, m + 1 ≤ f b := by
      intro b hb
      exact Nat.lt_of_le_of_ne (hle b hb) fun heq => hnone ⟨b, hb, heq.symm⟩
    exact Nat.not_succ_le_self m ((h (m + 1)).mpr hlt)
  · rintro _ ⟨b, hb, rfl⟩
    exact hle b hb

/-- The least of what a member has in common with each sequence. -/
theorem isLeast_commonPrefixLength (ha : a ∈ seqs) :
    IsLeast {n | ∃ b ∈ seqs, commonPrefixLength [a, b] = n} (commonPrefixLength seqs) := by
  refine isLeast_of_le_iff fun n => ?_
  rw [le_commonPrefixLength_iff_of_mem ha]
  simp only [le_commonPrefixLength_pair_iff]
  constructor
  · rintro ⟨hlen, hbegins⟩ b hb
    exact ⟨hlen, hbegins b hb⟩
  · intro h
    exact ⟨(h a ha).1, fun b hb => (h b hb).2⟩

/-- The least of what a sequence has in common with each of the others. -/
theorem isLeast_commonPrefixLength_cons {others : List (List Symbol)} (hne : others ≠ []) :
    IsLeast {n | ∃ b ∈ others, commonPrefixLength [a, b] = n}
      (commonPrefixLength (a :: others)) := by
  refine isLeast_of_le_iff fun n => ?_
  rw [le_commonPrefixLength_iff]
  simp only [le_commonPrefixLength_pair_iff]
  constructor
  · rintro ⟨hlen, hbegins⟩ b hb
    exact ⟨hlen, hbegins b hb⟩
  · intro h
    obtain ⟨b, hb⟩ := List.exists_mem_of_ne_nil others hne
    exact ⟨(h b hb).1, fun b hb => (h b hb).2⟩

end Factoring

/-! ## One more alternative -/

namespace Grammar

theorem rightSides_addRule (g : Grammar) (s : Symbol) (rhs : List Symbol) :
    (g.addRule ⟨s, rhs⟩).rightSides s = g.rightSides s ++ [rhs] := by
  simp [rightSides_eq, addRule]

/-- With one more alternative a symbol has no more in common than before. -/
theorem commonPrefix_addRule (g : Grammar) (s : Symbol) (rhs : List Symbol)
    (htwo : 2 ≤ g.numAlternatives s) :
    (g.addRule ⟨s, rhs⟩).commonPrefix s <+: g.commonPrefix s := by
  rw [numAlternatives_eq] at htwo
  have hmore : ¬ (g.rightSides s ++ [rhs]).length < 2 := by
    rw [List.length_append]
    omega
  rw [commonPrefix, commonPrefix, rightSides_addRule, Factoring.commonPrefix,
    Factoring.commonPrefix, if_neg hmore, if_neg (Nat.not_lt.mpr htwo)]
  have hne : g.rightSides s ≠ [] := List.ne_nil_of_length_pos (by omega)
  exact Factoring.prefix_longestCommon hne fun seq hseq =>
    Factoring.longestCommon_begins (List.mem_append_left _ hseq)

end Grammar

namespace Factoring

/-! ## The length of the longest common prefix -/

/-- A length is found for every list of sequences, and is that of the longest common prefix. -/
structure MeasuresAgreement (length : List (List Symbol) → Nat) : Prop where
  nil : length [] = 0
  isGreatest : ∀ seqs, seqs ≠ [] → IsGreatest {n | Agree n seqs} (length seqs)
  perm : ∀ seqs seqs', seqs.Perm seqs' → length seqs = length seqs'
  /-- A sequence that is there already makes no difference, wherever it is put in. -/
  repeated : ∀ before seq after, seq ∈ before ++ after →
    length (before ++ seq :: after) = length (before ++ after)
  pair : ∀ a b, length [a, b] = pairLength a b
  /-- Any member may be compared with all of them, itself included. -/
  isLeast : ∀ seqs a, a ∈ seqs → IsLeast {n | ∃ b ∈ seqs, length [a, b] = n} (length seqs)
  /-- Any member may be compared with the others, if there are any. -/
  isLeast_others : ∀ before a after, before ++ after ≠ [] →
    IsLeast {n | ∃ b ∈ before ++ after, length [a, b] = n} (length (before ++ a :: after))
  concat_le : ∀ seqs seq, seqs ≠ [] → length (seqs ++ [seq]) ≤ length seqs

/-- The common prefix length is the greatest length up to which all sequences agree, whatever their
order. So what the alternatives of a symbol have in common only gets shorter with one more. -/
theorem agreement_measured :
    MeasuresAgreement commonPrefixLength ∧
    ∀ (g : Grammar) (s : Symbol) (rhs : List Symbol), 2 ≤ g.numAlternatives s →
      (g.addRule ⟨s, rhs⟩).commonPrefix s <+: g.commonPrefix s := by
  refine ⟨?_, fun g s rhs => g.commonPrefix_addRule s rhs⟩
  exact {
    nil := rfl
    isGreatest := by
      intro seqs hne
      constructor
      · exact (le_commonPrefixLength_iff_agree hne).mp le_rfl
      · exact fun n hn => (le_commonPrefixLength_iff_agree hne).mpr hn
    perm := fun _ _ hperm => commonPrefixLength_congr fun _ => hperm.mem_iff
    repeated := by
      intro before seq after hseq
      apply commonPrefixLength_congr
      intro other
      rw [List.perm_middle.mem_iff, List.mem_cons, or_iff_right_of_imp]
      rintro rfl
      exact hseq
    pair := commonPrefixLength_pair
    isLeast := fun _ _ ha => isLeast_commonPrefixLength ha
    isLeast_others := by
      intro before a after hne
      rw [commonPrefixLength_congr fun _ => List.perm_middle.mem_iff]
      exact isLeast_commonPrefixLength_cons hne
    concat_le := fun seqs _ hne =>
      commonPrefixLength_le_of_subset hne (List.subset_append_left seqs _) }

/-- Two alternatives of symbol 0 that have the symbols 1 and 2 in common, on either side of a rule
for symbol 4. -/
def divided : Grammar :=
  .unnamed 5
    [⟨.numbered 0, [.numbered 1, .numbered 2, .numbered 3]⟩, ⟨.numbered 4, [.numbered 3]⟩,
      ⟨.numbered 0, [.numbered 1, .numbered 2]⟩]

/-- One more alternative leaves symbol 1. The lengths are the greatest ones. -/
theorem agreement_measured_divided :
    2 ≤ divided.numAlternatives (.numbered 0) ∧
    (divided.addRule ⟨.numbered 0, [.numbered 1, .numbered 3]⟩).commonPrefix (.numbered 0) =
      [.numbered 1] ∧
    [.numbered 1] <+: divided.commonPrefix (.numbered 0) ∧
    divided.rightSides (.numbered 0) ≠ [] ∧
    IsGreatest {n | Agree n (divided.rightSides (.numbered 0))} 2 := by
  have htwo : 2 ≤ divided.numAlternatives (.numbered 0) := by decide +kernel
  have hone : (divided.addRule ⟨.numbered 0, [.numbered 1, .numbered 3]⟩).commonPrefix
      (.numbered 0) = [.numbered 1] := by decide +kernel
  have hlength : commonPrefixLength (divided.rightSides (.numbered 0)) = 2 := by decide +kernel
  have hne : divided.rightSides (.numbered 0) ≠ [] := by decide +kernel
  have hshorter := agreement_measured.2 divided (.numbered 0) [.numbered 1, .numbered 3] htwo
  have hgreatest := agreement_measured.1.isGreatest _ hne
  rw [hone] at hshorter
  rw [hlength] at hgreatest
  exact ⟨htwo, hone, hshorter, hne, hgreatest⟩

end Factoring

end ContextFree
