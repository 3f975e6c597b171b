import ContextFree.Proofs.FreshName
import ContextFree.Proofs.Invariant

/-!
# The search for a fresh name

A fresh name is found by a counter that goes up from one for as long as the name with its number is
taken (`Vocabulary.SearchesTo`). Nothing in the search itself says that it comes to an end, or that
the counter, which has 64 bits, does not run over. Both follow from the bound on the least free
number: it is at most one more than there are symbols (`Vocabulary.freshNumber_le`).
-/

namespace ContextFree

namespace Vocabulary

variable {v : Vocabulary} {base : String} {m n : Nat}

/-! ## The least free number -/

theorem one_le_freshNumber (v : Vocabulary) (base : String) : 1 ≤ v.freshNumber base := by
  unfold freshNumber
  cases hfind : (List.range' 1 v.size).find? fun n => !v.isTaken (numbered base n) with
  | some n => exact (List.mem_range'_1.mp (List.mem_of_find?_eq_some hfind)).1
  | none => exact Nat.succ_le_succ (Nat.zero_le _)

theorem freshNumber_le (v : Vocabulary) (base : String) : v.freshNumber base ≤ v.size + 1 := by
  unfold freshNumber
  cases hfind : (List.range' 1 v.size).find? fun n => !v.isTaken (numbered base n) with
  | some n =>
    have hlt := (List.mem_range'_1.mp (List.mem_of_find?_eq_some hfind)).2
    rw [Option.getD_some]
    omega
  | none => exact Nat.le_refl _

/-- The smaller numbers make names that are taken. -/
theorem isTaken_of_lt_freshNumber (hpos : 1 ≤ m) (hlt : m < v.freshNumber base) :
    v.isTaken (numbered base m) = true := by
  unfold freshNumber at hlt
  cases hfind : (List.range' 1 v.size).find? fun n => !v.isTaken (numbered base n) with
  | some n =>
    rw [hfind] at hlt
    simpa using (List.find?_range'_eq_some.mp hfind).2.2 m hpos hlt
  | none =>
    rw [hfind, Option.getD_none] at hlt
    simpa using List.find?_range'_eq_none.mp hfind m hpos (by omega)

/-! ## The search -/

/-- The search for a free number, from `n` on, comes to the number that follows. A number is passed
over if its name is taken, and then there must be a next number below `2 ^ 64`. -/
inductive SearchesTo (v : Vocabulary) (base : String) : Nat → Nat → Prop
  | found {n : Nat} : v.isTaken (numbered base n) = false → SearchesTo v base n n
  | passedOver {n m : Nat} : v.isTaken (numbered base n) = true →
      n + 1 < 18446744073709551616 → SearchesTo v base (n + 1) m → SearchesTo v base n m

/-- The search comes to one number only. -/
theorem SearchesTo.unique {m' : Nat} (h : SearchesTo v base n m) (h' : SearchesTo v base n m') :
    m' = m := by
  induction h with
  | found hfree =>
    cases h' with
    | found _ => rfl
    | passedOver htaken _ _ =>
      rw [htaken] at hfree
      cases hfree
  | passedOver htaken _ _ ih =>
    cases h' with
    | found hfree =>
      rw [htaken] at hfree
      cases hfree
    | passedOver _ _ hrest => exact ih hrest

/-- The search comes to a free number if all numbers on the way are taken. -/
theorem searchesTo_of_taken (hle : n ≤ m) (hfree : v.isTaken (numbered base m) = false)
    (htaken : ∀ k, n ≤ k → k < m → v.isTaken (numbered base k) = true)
    (hlt : m < 18446744073709551616) : SearchesTo v base n m := by
  -- by the distance that is left
  induction hd : m - n generalizing n with
  | zero =>
    have heq : n = m := by omega
    rw [heq]
    exact .found hfree
  | succ d ih =>
    refine .passedOver (htaken n (Nat.le_refl _) (by omega)) (by omega) ?_
    exact ih (by omega) (fun k hk => htaken k (by omega)) (by omega)

theorem searchesTo_freshNumber (hsize : v.size < 9223372036854775808) (base : String) :
    SearchesTo v base 1 (v.freshNumber base) := by
  have hle := v.freshNumber_le base
  exact searchesTo_of_taken (v.one_le_freshNumber base) (v.isTaken_freshNumber base)
    (fun _ => isTaken_of_lt_freshNumber) (by omega)

/-- The search for a fresh name comes to an end before its counter runs over, and its answer is the
least positive number that makes a free name, which is at most one more than there are symbols. No
symbol is displayed under that name, and it is not `g` with nothing but digits behind it. -/
theorem name_search_ends {v : Vocabulary} (hsize : v.size < 9223372036854775808) (s : Symbol) :
    ∃ n, (∀ m, SearchesTo v (v.displayName s) 1 m ↔ m = n) ∧
      v.freshName s = v.displayName s ++ separator (v.displayName s) ++ toString n ∧
      1 ≤ n ∧ n ≤ v.size + 1 ∧ v.isTaken (v.freshName s) = false ∧
      (∀ m, 1 ≤ m → m < n →
        v.isTaken (v.displayName s ++ separator (v.displayName s) ++ toString m) = true) ∧
      (∀ t : Symbol, t.id < v.size → v.displayName t ≠ v.freshName s) ∧
      ¬ ∃ digits, (v.freshName s).toList = 'g' :: digits ∧ ∀ c ∈ digits, c.isDigit = true := by
  have hends := searchesTo_freshNumber hsize (v.displayName s)
  have hfree := v.isTaken_freshName s
  refine ⟨v.freshNumber (v.displayName s), fun m => ⟨hends.unique, ?_⟩, rfl,
    v.one_le_freshNumber _, v.freshNumber_le _, hfree, fun m => isTaken_of_lt_freshNumber,
    fun t ht => displayName_ne_of_not_taken ht hfree, ?_⟩
  · rintro rfl
    exact hends
  · rw [← Placeholder.hasShape_iff, v.hasShape_freshName s]
    exact Bool.false_ne_true

/-- The first numbered names of symbol 0 stand for the two symbols without a name, and the third one
is recorded. -/
def signed : Vocabulary :=
  Outcome.state (issueAll [some "g+", none, none, some "g+3"] .empty)

/-- The one symbol that there is has the first numbered name of a symbol that has not been
issued. -/
def foreseen : Vocabulary :=
  Outcome.state (issue (some "g7_1") .empty)

/-- In the second search the answer is as great as the bound allows. -/
theorem name_search_ends_signed :
    (signed.size < 9223372036854775808 ∧ SearchesTo signed "g+" 1 4 ∧
      signed.freshName (.numbered 0) = "g+4" ∧ signed.isTaken "g+2" = true) ∧
    foreseen.size < 9223372036854775808 ∧ SearchesTo foreseen "g7" 1 (foreseen.size + 1) ∧
      foreseen.freshName (.numbered 7) = "g7_2" := by
  have hsigned : signed.size < 9223372036854775808 := by decide +kernel
  have hforeseen : foreseen.size < 9223372036854775808 := by decide +kernel
  have hfour : signed.freshName (.numbered 0) = "g+4" := by decide +kernel
  have htwo : foreseen.freshName (.numbered 7) = "g7_2" := by decide +kernel
  have hbase : signed.displayName (.numbered 0) = "g+" := by decide +kernel
  have hbase' : foreseen.displayName (.numbered 7) = "g7" := by decide +kernel
  obtain ⟨n, hends, hname, -, -, -, htaken, -⟩ := name_search_ends hsigned (.numbered 0)
  obtain ⟨n', hends', hname', -⟩ := name_search_ends hforeseen (.numbered 7)
  rw [hbase, hfour] at hname
  rw [hbase', htwo] at hname'
  -- the name tells its number
  have hfourth : numbered "g+" 4 = numbered "g+" n := Eq.trans (by decide +kernel) hname
  have hsecond : numbered "g7" 2 = numbered "g7" n' := Eq.trans (by decide +kernel) hname'
  have hn : 4 = n := numbered_injective hfourth
  have hn' : 2 = n' := numbered_injective hsecond
  rw [hbase] at hends htaken
  rw [hbase'] at hends'
  exact ⟨⟨hsigned, (hends 4).mpr hn, hfour, htaken 2 (by decide) (by omega)⟩, hforeseen,
    (hends' _).mpr hn', htwo⟩

end Vocabulary

end ContextFree
