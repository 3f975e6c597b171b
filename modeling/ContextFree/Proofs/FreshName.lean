import Mathlib.Data.Finset.Card
import Mathlib.Data.Finset.Interval
import Mathlib.Order.Interval.Finset.Nat
import ContextFree.Proofs.TakenNames

/-!
# Fresh names are free

One entry of the name table takes at most one of the names that come from numbering a base name
(`Vocabulary.Takes.numbered_injective`). That is plain for an entry that records a name. An entry
without a name takes the names that stand for its number, and two numbered names never stand for the
same number, whatever digits the base name ends with (`Placeholder.number?_append_injective`). So
of `size + 1` numbered names one is free, and the fresh name is one that is
(`Vocabulary.isTaken_freshName`).

A fresh name also never has the shape of a placeholder (`Vocabulary.hasShape_freshName`), so no
symbol that is yet to come is displayed under it.
-/

namespace ContextFree

/-! ## Digits at the end of a name -/

namespace Decimal

theorem read?_append_toDigits {ds : List Char} {n k : Nat}
    (h : read? (ds ++ Nat.toDigits 10 n) = some k) :
    k = 10 ^ (Nat.toDigits 10 n).length * Nat.ofDigitChars 10 ds 0 + n := by
  rw [read?, Option.ite_none_right_eq_some, Option.some.injEq] at h
  rw [← h.2, Nat.ofDigitChars_append, Nat.ofDigitChars_eq_ofDigitChars_zero,
    Nat.ofDigitChars_ten_toDigits]

theorem lt_pow_length_toDigits (n : Nat) : n < 10 ^ (Nat.toDigits 10 n).length :=
  (Nat.length_toDigits_le_iff (by decide) Nat.length_toDigits_pos).mp (Nat.le_refl _)

/-- With the same digits in front, the number with more digits stands for more. -/
theorem append_toDigits_lt {d m n : Nat} (hd : 0 < d)
    (h : (Nat.toDigits 10 m).length < (Nat.toDigits 10 n).length) :
    10 ^ (Nat.toDigits 10 m).length * d + m < 10 ^ (Nat.toDigits 10 n).length * d + n := by
  have hm := lt_pow_length_toDigits m
  have hle : 10 ^ (Nat.toDigits 10 m).length ≤ 10 ^ (Nat.toDigits 10 m).length * d :=
    Nat.le_mul_of_pos_right _ hd
  have hpow : 10 ^ (Nat.toDigits 10 m).length * 10 ≤ 10 ^ (Nat.toDigits 10 n).length :=
    Nat.pow_le_pow_right (Nat.succ_pos 9) h
  calc 10 ^ (Nat.toDigits 10 m).length * d + m
      < 10 ^ (Nat.toDigits 10 m).length * d * 10 := by omega
    _ = 10 ^ (Nat.toDigits 10 m).length * 10 * d := Nat.mul_right_comm ..
    _ ≤ 10 ^ (Nat.toDigits 10 n).length * d := Nat.mul_le_mul_right d hpow
    _ ≤ 10 ^ (Nat.toDigits 10 n).length * d + n := Nat.le_add_right ..

/-- Two numbers stand for different numbers also behind the same digits. -/
theorem eq_of_append_toDigits {d m n : Nat}
    (h : 10 ^ (Nat.toDigits 10 m).length * d + m = 10 ^ (Nat.toDigits 10 n).length * d + n) :
    m = n := by
  rcases Nat.eq_zero_or_pos d with rfl | hd
  · simpa using h
  rcases Nat.lt_trichotomy (Nat.toDigits 10 m).length (Nat.toDigits 10 n).length with
    hlt | heq | hlt
  · exact absurd h (Nat.ne_of_lt (append_toDigits_lt hd hlt))
  · rw [heq] at h
    exact Nat.add_left_cancel h
  · exact absurd h (Nat.ne_of_gt (append_toDigits_lt hd hlt))

end Decimal

namespace Placeholder

theorem head?_toDigits_ne {c : Char} (hc : c.isDigit = false) (n : Nat) :
    (Nat.toDigits 10 n).head? ≠ some c := by
  intro h
  have hdigit := Decimal.isDigit_of_mem_toDigits (List.mem_of_head? h)
  rw [hc] at hdigit
  cases hdigit

/-- What a numeral stands for that ends with the digits of a number: `ds` are the digits in front of
these. -/
theorem numeral?_append_toDigits (cs : List Char) :
    ∃ ds, ∀ n, numeral? (cs ++ Nat.toDigits 10 n) = Decimal.read? (ds ++ Nat.toDigits 10 n) := by
  by_cases h : cs.head? = some '+'
  · rcases List.head?_eq_some_iff.mp h with ⟨ds, rfl⟩
    exact ⟨ds, fun n => rfl⟩
  · refine ⟨cs, fun n => numeral?_of_head_ne ?_⟩
    cases cs with
    | nil => exact head?_toDigits_ne (by decide) n
    | cons c cs => exact h

theorem number?_eq_some_iff {name : String} {k : Nat} :
    number? name = some k ↔ ∃ cs, name.toList = 'g' :: cs ∧ numeral? cs = some k := by
  unfold number?
  constructor
  · intro h
    split at h
    next cs hcs => exact ⟨cs, hcs, h⟩
    · cases h
  · rintro ⟨cs, hcs, hnumeral⟩
    rw [hcs]
    exact hnumeral

theorem hasShape_iff {name : String} :
    hasShape name = true ↔ ∃ cs, name.toList = 'g' :: cs ∧ ∀ c ∈ cs, c.isDigit = true := by
  unfold hasShape
  constructor
  · intro h
    split at h
    next cs hcs => exact ⟨cs, hcs, List.all_eq_true.mp h⟩
    · cases h
  · rintro ⟨cs, hcs, hdigits⟩
    rw [hcs]
    exact List.all_eq_true.mpr hdigits

/-- Names that differ only in the number at their end stand for different numbers. -/
theorem number?_append_injective {base : String} {m n k : Nat}
    (hm : number? (base ++ toString m) = some k) (hn : number? (base ++ toString n) = some k) :
    m = n := by
  have hlist : ∀ i : Nat, (base ++ toString i).toList = base.toList ++ Nat.toDigits 10 i := by
    simp
  rcases number?_eq_some_iff.mp hm with ⟨csm, hcsm, hm⟩
  rcases number?_eq_some_iff.mp hn with ⟨csn, hcsn, hn⟩
  rw [hlist] at hcsm hcsn
  cases hbase : base.toList with
  | nil =>
    -- the name would begin with a digit
    rw [hbase, List.nil_append] at hcsm
    exact absurd (congrArg List.head? hcsm) (head?_toDigits_ne (by decide) m)
  | cons c cs =>
    rw [hbase, List.cons_append, List.cons.injEq] at hcsm hcsn
    rcases numeral?_append_toDigits cs with ⟨ds, hds⟩
    rw [← hcsm.2, hds] at hm
    rw [← hcsn.2, hds] at hn
    exact Decimal.eq_of_append_toDigits
      ((Decimal.read?_append_toDigits hm).symm.trans (Decimal.read?_append_toDigits hn))

end Placeholder

/-! ## A free number -/

namespace Vocabulary

theorem numbered_injective {base : String} {m n : Nat} (h : numbered base m = numbered base n) :
    m = n := by
  have hlist := congrArg String.toList h
  simp only [numbered, String.toList_append] at hlist
  have hdigits := congrArg (Nat.ofDigitChars 10 · 0) (List.append_cancel_left hlist)
  simpa using hdigits

/-- An entry takes at most one of the names that come from numbering a base name. -/
theorem Takes.numbered_injective {v : Vocabulary} {base : String} {id m n : Nat}
    (hm : v.Takes id (numbered base m)) (hn : v.Takes id (numbered base n)) : m = n := by
  rcases hm with hm | ⟨hm, hnumberm⟩
  · rcases hn with hn | ⟨hn, -⟩
    · rw [hm, Option.some.injEq, Option.some.injEq] at hn
      exact Vocabulary.numbered_injective hn
    · rw [hm] at hn
      cases hn
  · rcases hn with hn | ⟨-, hnumbern⟩
    · rw [hm] at hn
      cases hn
    · exact Placeholder.number?_append_injective hnumberm hnumbern

/-- Among one more numbers than there are entries, one makes a free name. -/
theorem exists_number_not_taken (v : Vocabulary) (base : String) :
    ∃ n, 1 ≤ n ∧ n ≤ v.size + 1 ∧ v.isTaken (numbered base n) = false := by
  by_contra hnone
  have htaken : ∀ n ∈ Finset.Icc 1 (v.size + 1), ∃ id, v.Takes id (numbered base n) := by
    intro n hn
    rw [← isTaken_iff, ← Bool.not_eq_false]
    intro hfree
    rcases Finset.mem_Icc.mp hn with ⟨hle, hge⟩
    exact hnone ⟨n, hle, hge, hfree⟩
  choose! taker htaker using htaken
  -- every number would have an entry of its own, and there are not so many
  have hcard : (Finset.Icc 1 (v.size + 1)).card ≤ (Finset.range v.size).card := by
    apply Finset.card_le_card_of_injOn taker
    · intro n hn
      exact Finset.mem_coe.mpr (Finset.mem_range.mpr (htaker n hn).lt_size)
    · intro m hm n hn heq
      have hsame := htaker n hn
      rw [← heq] at hsame
      exact (htaker m hm).numbered_injective hsame
  rw [Nat.card_Icc, Finset.card_range] at hcard
  omega

theorem isTaken_freshNumber (v : Vocabulary) (base : String) :
    v.isTaken (numbered base (v.freshNumber base)) = false := by
  unfold freshNumber
  cases hfind : (List.range' 1 v.size).find? fun n => !v.isTaken (numbered base n) with
  | some n => simpa using List.find?_some hfind
  | none =>
    -- the first numbers are all in use, so the free one comes after them
    rcases v.exists_number_not_taken base with ⟨n, hle, hge, hfree⟩
    have hlast : n = v.size + 1 := by
      by_contra hne
      have hmem : n ∈ List.range' 1 v.size := List.mem_range'_1.mpr ⟨hle, by omega⟩
      have hused := List.find?_eq_none.mp hfind n hmem
      simp [hfree] at hused
    rw [Option.getD_none, ← hlast]
    exact hfree

/-- A fresh name is not taken. -/
theorem isTaken_freshName (v : Vocabulary) (s : Symbol) : v.isTaken (v.freshName s) = false :=
  v.isTaken_freshNumber (v.displayName s)

/-! ## The shape of a fresh name -/

/-- A numbered name never has the shape of a placeholder. -/
theorem hasShape_numbered (base : String) (n : Nat) :
    Placeholder.hasShape (numbered base n) = false := by
  rw [← Bool.not_eq_true, Placeholder.hasShape_iff]
  rintro ⟨cs, hcs, hdigits⟩
  have hlist : (numbered base n).toList =
      base.toList ++ (separator base).toList ++ Nat.toDigits 10 n := by
    simp [numbered]
  rw [hlist] at hcs
  by_cases hbase : Placeholder.hasShape base = true
  · -- an underscore stands before the number
    rw [separator, if_pos hbase] at hcs
    rcases Placeholder.hasShape_iff.mp hbase with ⟨ds, hds, -⟩
    rw [hds, List.append_assoc, List.cons_append, List.cons.injEq] at hcs
    have hunderscore : '_' ∈ cs := by
      rw [← hcs.2]
      simp
    exact absurd (hdigits '_' hunderscore) (by decide)
  · rw [separator, if_neg hbase, String.toList_empty, List.append_nil] at hcs
    cases hds : base.toList with
    | nil =>
      -- the name begins with a digit
      rw [hds, List.nil_append] at hcs
      exact Placeholder.head?_toDigits_ne (by decide) n (congrArg List.head? hcs)
    | cons c ds =>
      -- the name has the shape only if the base name has it
      rw [hds, List.cons_append, List.cons.injEq] at hcs
      apply hbase
      rw [Placeholder.hasShape_iff]
      refine ⟨ds, by rw [hds, hcs.1], fun d hd => hdigits d ?_⟩
      rw [← hcs.2]
      exact List.mem_append_left _ hd

theorem hasShape_freshName (v : Vocabulary) (s : Symbol) :
    Placeholder.hasShape (v.freshName s) = false :=
  hasShape_numbered _ _

end Vocabulary

end ContextFree
