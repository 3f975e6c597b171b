/-!
# Grammar symbols

A symbol is a number below 4294967295, which is `2 ^ 32 - 1`. Symbols are compared by number only:
whether one is terminal is up to the grammar that uses it.

`Symbol.ofNat` reads a number by its low 32 bits. The one 32-bit number without a symbol is the
greatest, so `Symbol.ofNat` is also where the symbols run out.
-/

namespace ContextFree

/-- A grammar symbol, known by its number. -/
@[ext]
structure Symbol where
  id : Nat
  id_lt : id < 4294967295
deriving DecidableEq, Repr

/-- Every symbol is in use, so there is none left to hand out. -/
structure OutOfSymbols where
deriving DecidableEq, Repr

/-- What is reported when the symbols have run out. -/
def OutOfSymbols.message (_ : OutOfSymbols) : String :=
  "ran out of Symbol space?"

namespace Symbol

/-- The symbol with the least number. -/
def first : Symbol :=
  ⟨0, by decide⟩

instance : Inhabited Symbol :=
  ⟨first⟩

/-- Symbols are ordered by number. -/
instance : Ord Symbol :=
  ⟨fun s t => compare s.id t.id⟩

instance : Std.TransOrd Symbol :=
  inferInstanceAs (Std.TransCmp (compareOn Symbol.id))

instance : Std.LawfulEqOrd Symbol where
  compare_self {s} := Std.ReflOrd.compare_self (a := s.id)
  eq_of_compare {s t} h := Symbol.ext (Std.LawfulEqOrd.eq_of_compare (a := s.id) (b := t.id) h)

/-- The symbol that a number stands for: only its low 32 bits count, and the
greatest 32-bit number is no symbol. -/
def ofNat (n : Nat) : Except OutOfSymbols Symbol :=
  if h : n % 4294967296 < 4294967295 then .ok ⟨n % 4294967296, h⟩ else .error ⟨⟩

/-! ## Reading a number -/

theorem ofNat_eq_ok_iff {n : Nat} {s : Symbol} : ofNat n = .ok s ↔ s.id = n % 4294967296 := by
  constructor
  · intro h
    unfold ofNat at h
    split at h
    · cases h
      rfl
    · cases h
  · intro h
    have hlt := s.id_lt
    have hn : n % 4294967296 < 4294967295 := by omega
    simp only [ofNat, hn, dif_pos, Except.ok.injEq]
    exact Symbol.ext h.symm

theorem ofNat_eq_error_iff {n : Nat} {e : OutOfSymbols} :
    ofNat n = .error e ↔ n % 4294967296 = 4294967295 := by
  cases e
  unfold ofNat
  split
  · simp only [reduceCtorEq, false_iff]
    omega
  · simp only [true_iff]
    have := Nat.mod_lt n (show 4294967296 > 0 by decide)
    omega

/-- Every symbol is read back from its own number. -/
@[simp]
theorem ofNat_id (s : Symbol) : ofNat s.id = .ok s := by
  rw [ofNat_eq_ok_iff, Nat.mod_eq_of_lt]
  have := s.id_lt
  omega

/-- A symbol is found among others by its number. -/
theorem id_mem_map {s : Symbol} {l : List Symbol} : s.id ∈ l.map (·.id) ↔ s ∈ l := by
  rw [List.mem_map]
  constructor
  · rintro ⟨t, ht, heq⟩
    rwa [← Symbol.ext heq]
  · intro hs
    exact ⟨s, hs, rfl⟩

end Symbol

end ContextFree
