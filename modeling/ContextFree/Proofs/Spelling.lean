import ContextFree.Proofs.NameOwners

/-!
# Spellings of placeholders

Names are read as placeholders more generously than placeholders are written. A numeral stands for a
number if it is the digits of that number behind any number of zeros, and behind a `+` or not
(`Placeholder.number?_eq_some_iff_spelling`). The placeholder itself has neither, and no other
spelling is a placeholder (`Placeholder.spelling_eq_name_iff`).

So there are two ways for a symbol to take a name. Either the symbol is displayed under the name, or
it has no name and the name is another spelling of its placeholder, under which no symbol need be
displayed (`Vocabulary.taken_iff_displayed_or_respelled`).
-/

namespace ContextFree

/-! ## Numerals with leading zeros -/

namespace Decimal

theorem digit_lt {c : Char} (hc : c.isDigit = true) : c.toNat - '0'.toNat < 10 := by
  have hbounds := Char.isDigit_iff_toNat.mp hc
  have hlow : '0'.toNat = 48 := rfl
  have hhigh : '9'.toNat = 57 := rfl
  omega

theorem toDigits_digit {c : Char} (hc : c.isDigit = true) :
    Nat.toDigits 10 (c.toNat - '0'.toNat) = [c] := by
  have hbounds := Char.isDigit_iff_toNat.mp hc
  have hlow : '0'.toNat = 48 := rfl
  rw [Nat.toDigits_of_lt_base (digit_lt hc)]
  congr 1
  apply Char.toNat_inj.mp
  rw [Nat.toNat_digitChar_of_lt_ten (digit_lt hc)]
  omega

/-- A digit behind the digits of a positive number makes the digits of a greater one. -/
theorem toDigits_concat {m : Nat} {c : Char} (hm : 0 < m) (hc : c.isDigit = true) :
    Nat.toDigits 10 m ++ [c] = Nat.toDigits 10 (10 * m + (c.toNat - '0'.toNat)) := by
  rw [← Nat.toDigits_append_toDigits (by decide) hm (digit_lt hc), toDigits_digit hc]

/-- Digits are those of the number they stand for, behind zeros. -/
theorem eq_replicate_append_toDigits {cs : List Char} (hne : cs ≠ [])
    (hdigits : ∀ c ∈ cs, c.isDigit = true) :
    ∃ zeros, cs = List.replicate zeros '0' ++ Nat.toDigits 10 (Nat.ofDigitChars 10 cs 0) := by
  -- by the number of digits, the last of which counts least
  induction cs using List.reverseRecOn with
  | nil => exact absurd rfl hne
  | append_singleton ds c ih =>
    have hc : c.isDigit = true := hdigits c (by simp)
    rw [Nat.ofDigitChars_append, Nat.ofDigitChars_cons, Nat.ofDigitChars_nil]
    by_cases hds : ds = []
    · refine ⟨0, ?_⟩
      rw [hds, Nat.ofDigitChars_nil, Nat.mul_zero, Nat.zero_add, toDigits_digit hc]
      rfl
    · obtain ⟨zeros, hzeros⟩ := ih hds fun d hd => hdigits d (List.mem_append_left _ hd)
      rcases Nat.eq_zero_or_pos (Nat.ofDigitChars 10 ds 0) with hzero | hpos
      · -- all digits before the last one are zeros
        rw [hzero, Nat.toDigits_zero, ← List.replicate_succ'] at hzeros
        refine ⟨zeros + 1, ?_⟩
        rw [hzero, Nat.mul_zero, Nat.zero_add, toDigits_digit hc, ← hzeros]
      · refine ⟨zeros, ?_⟩
        rw [← toDigits_concat hpos hc, ← List.append_assoc, ← hzeros]

theorem read?_eq_some_iff {cs : List Char} {n : Nat} :
    read? cs = some n ↔ ∃ zeros, cs = List.replicate zeros '0' ++ Nat.toDigits 10 n := by
  rw [read?, Option.ite_none_right_eq_some, Option.some.injEq]
  constructor
  · rintro ⟨⟨hne, hdigits⟩, hn⟩
    rw [← hn]
    exact eq_replicate_append_toDigits hne (List.all_eq_true.mp hdigits)
  · rintro ⟨zeros, hcs⟩
    rw [hcs]
    refine ⟨⟨?_, ?_⟩, ?_⟩
    · exact List.append_ne_nil_of_right_ne_nil _ Nat.toDigits_ne_nil
    · rw [List.all_append, all_isDigit_toDigits, Bool.and_true, List.all_replicate]
      simp
    · rw [Nat.ofDigitChars_append, Nat.ofDigitChars_replicate_zero, Nat.mul_zero,
        Nat.ofDigitChars_ten_toDigits]

theorem head?_ne_of_read? {cs : List Char} {n : Nat} {c : Char} (h : read? cs = some n)
    (hc : c.isDigit = false) : cs.head? ≠ some c := by
  rw [read?, Option.ite_none_right_eq_some, List.all_eq_true] at h
  intro hhead
  have hdigit := h.1.2 c (List.mem_of_head? hhead)
  rw [hc] at hdigit
  cases hdigit

end Decimal

/-! ## Placeholders -/

namespace Placeholder

/-- The sign of a numeral, which may be left out. -/
def sign (signed : Bool) : String :=
  if signed then "+" else ""

/-- A spelling of the placeholder for `id`: with a sign or not, and with zeros in front. -/
def spelling (signed : Bool) (zeros id : Nat) : String :=
  "g" ++ sign signed ++ String.ofList (List.replicate zeros '0') ++ toString id

theorem toList_spelling (signed : Bool) (zeros id : Nat) :
    (spelling signed zeros id).toList =
      'g' :: ((sign signed).toList ++ (List.replicate zeros '0' ++ Nat.toDigits 10 id)) := by
  simp [spelling]

theorem numeral?_eq_some_iff {cs : List Char} {n : Nat} :
    numeral? cs = some n ↔ ∃ signed zeros,
      cs = (sign signed).toList ++ (List.replicate zeros '0' ++ Nat.toDigits 10 n) := by
  constructor
  · intro h
    unfold numeral? at h
    split at h
    next cs =>
      obtain ⟨zeros, hcs⟩ := Decimal.read?_eq_some_iff.mp h
      exact ⟨true, zeros, by rw [hcs]; rfl⟩
    · obtain ⟨zeros, hcs⟩ := Decimal.read?_eq_some_iff.mp h
      exact ⟨false, zeros, by rw [hcs]; rfl⟩
  · rintro ⟨signed, zeros, hcs⟩
    have hread : Decimal.read? (List.replicate zeros '0' ++ Nat.toDigits 10 n) = some n :=
      Decimal.read?_eq_some_iff.mpr ⟨zeros, rfl⟩
    cases signed with
    | true =>
      rw [hcs]
      exact hread
    | false =>
      rw [hcs]
      exact (numeral?_of_head_ne (Decimal.head?_ne_of_read? hread (by decide))).trans hread

/-- A name stands for a number if and only if it is a spelling of the placeholder for it. -/
theorem number?_eq_some_iff_spelling {name : String} {id : Nat} :
    number? name = some id ↔ ∃ signed zeros, name = spelling signed zeros id := by
  rw [number?_eq_some_iff]
  constructor
  · rintro ⟨cs, hname, hcs⟩
    obtain ⟨signed, zeros, rfl⟩ := numeral?_eq_some_iff.mp hcs
    refine ⟨signed, zeros, ?_⟩
    rw [← String.toList_inj, hname, toList_spelling]
  · rintro ⟨signed, zeros, rfl⟩
    exact ⟨_, toList_spelling signed zeros id, numeral?_eq_some_iff.mpr ⟨signed, zeros, rfl⟩⟩

/-- The one spelling that is displayed has no sign and no zeros in front. -/
theorem spelling_eq_name_iff {signed : Bool} {zeros id : Nat} :
    spelling signed zeros id = name id ↔ signed = false ∧ zeros = 0 := by
  rw [← String.toList_inj, toList_spelling, toList_name]
  cases signed with
  | true =>
    -- the digits do not begin with a sign
    have hhead := head?_toDigits_ne (c := '+') (by decide) id
    constructor
    · intro h
      rw [← (List.cons.inj h).2] at hhead
      exact absurd rfl hhead
    · rintro ⟨h, -⟩
      cases h
  | false => simp [sign]

end Placeholder

/-! ## Who takes a name -/

namespace Vocabulary

variable {v : Vocabulary} {name : String}

/-- A symbol takes a name if it is displayed under it, or if it has no name and the name is another
spelling of its placeholder. -/
theorem takes_iff {s : Symbol} (hs : s.id < v.size) :
    v.Takes s.id name ↔ v.displayName s = name ∨
      ∃ signed zeros, v.names[s.id]? = some none ∧ (signed = true ∨ 0 < zeros) ∧
        name = Placeholder.spelling signed zeros s.id := by
  constructor
  · rintro (hrecorded | ⟨hunnamed, hnumber⟩)
    · exact .inl (displayName_of_recorded hrecorded)
    · obtain ⟨signed, zeros, rfl⟩ := Placeholder.number?_eq_some_iff_spelling.mp hnumber
      by_cases hplain : signed = false ∧ zeros = 0
      · left
        rw [displayName_of_unnamed hunnamed, Placeholder.spelling_eq_name_iff.mpr hplain]
      · refine .inr ⟨signed, zeros, hunnamed, ?_, rfl⟩
        by_contra hnone
        rw [not_or, Bool.not_eq_true, Nat.not_lt, Nat.le_zero] at hnone
        exact hplain hnone
  · rintro (rfl | ⟨signed, zeros, hunnamed, -, rfl⟩)
    · exact takes_displayName hs
    · exact .inr ⟨hunnamed, Placeholder.number?_eq_some_iff_spelling.mpr ⟨signed, zeros, rfl⟩⟩

/-- A name is taken if and only if a symbol is displayed under it, or it is a spelling with a sign
or with zeros of the placeholder of a symbol without a name, or an entry takes it that comes after
all symbols. There are no such entries in a table with no more entries than symbols. -/
theorem taken_iff_displayed_or_respelled (v : Vocabulary) (name : String) :
    (v.isTaken name = true ↔
      (∃ s : Symbol, s.id < v.size ∧ v.displayName s = name) ∨
      (∃ (s : Symbol) (signed : Bool) (zeros : Nat), v.names[s.id]? = some none ∧
        (signed = true ∨ 0 < zeros) ∧ name = Placeholder.spelling signed zeros s.id) ∨
      ∃ id, 4294967295 ≤ id ∧ v.Takes id name) ∧
    (v.size ≤ 4294967295 → ∀ id, 4294967295 ≤ id → ¬ v.Takes id name) := by
  refine ⟨?_, fun hsize id hid htakes => ?_⟩
  · rw [isTaken_iff]
    constructor
    · rintro ⟨id, htakes⟩
      rcases Nat.lt_or_ge id 4294967295 with hlt | hge
      · have hs : (Symbol.mk id hlt).id < v.size := htakes.lt_size
        rcases (takes_iff hs).mp htakes with hname | ⟨signed, zeros, hrespelled⟩
        · exact .inl ⟨⟨id, hlt⟩, hs, hname⟩
        · exact .inr (.inl ⟨⟨id, hlt⟩, signed, zeros, hrespelled⟩)
      · exact .inr (.inr ⟨id, hge, htakes⟩)
    · rintro (⟨s, hs, hname⟩ | ⟨s, signed, zeros, hunnamed, hother, rfl⟩ | ⟨id, -, htakes⟩)
      · exact ⟨s.id, (takes_iff hs).mpr (.inl hname)⟩
      · have hs : s.id < v.size := (List.getElem?_eq_some_iff.mp hunnamed).1
        exact ⟨s.id, (takes_iff hs).mpr (.inr ⟨signed, zeros, hunnamed, hother, rfl⟩)⟩
      · exact ⟨id, htakes⟩
  · have hlt := htakes.lt_size
    omega

/-- Two symbols without a name, and one whose name is another spelling of a placeholder. -/
def respelled : Vocabulary :=
  Request.after (.issueAll [none, none, some "g+1"]) .empty

/-- Symbol 1 takes the names `g1` and `g01`, under the first of which it is displayed. The name
`g+1` is taken by two symbols. -/
theorem taken_iff_displayed_or_respelled_twice :
    respelled.size ≤ 4294967295 ∧ (∀ id, 4294967295 ≤ id → ¬ respelled.Takes id "g01") ∧
    respelled.isTaken "g01" = true ∧ respelled.isTaken "g1" = true ∧
    respelled.isTaken "g+1" = true ∧ respelled.displayName (.numbered 2) = "g+1" := by
  have hsize : respelled.size ≤ 4294967295 := by decide +kernel
  have hunnamed : respelled.names[(Symbol.numbered 1).id]? = some none := by decide +kernel
  have hshown : respelled.displayName (.numbered 2) = "g+1" := by decide +kernel
  have hzero := taken_iff_displayed_or_respelled respelled "g01"
  have hplain := taken_iff_displayed_or_respelled respelled "g1"
  have hsign := taken_iff_displayed_or_respelled respelled "g+1"
  refine ⟨hsize, hzero.2 hsize, hzero.1.mpr ?_, hplain.1.mpr ?_, hsign.1.mpr ?_, hshown⟩
  · exact .inr (.inl ⟨.numbered 1, false, 1, hunnamed, by decide, by decide +kernel⟩)
  · exact .inl ⟨.numbered 1, by decide +kernel, by decide +kernel⟩
  · exact .inr (.inl ⟨.numbered 1, true, 0, hunnamed, by decide, by decide +kernel⟩)

/-- The name `g00` is taken although no symbol is displayed under it. -/
theorem taken_undisplayed :
    ∃ v : Vocabulary, v.Reached ∧
      ¬ (v.isTaken "g00" = true ↔ ∃ s : Symbol, s.id < v.size ∧ v.displayName s = "g00") := by
  refine ⟨Request.after (.issue none) .empty, Reached.empty.after (.issue none), ?_⟩
  intro h
  obtain ⟨s, hs, hname⟩ := h.mp (by decide +kernel)
  -- the one symbol that there is has number 0
  have hzero : s = .numbered 0 := Symbol.ext (Nat.lt_one_iff.mp hs)
  rw [hzero] at hname
  exact absurd hname (by decide +kernel)

end Vocabulary

end ContextFree
