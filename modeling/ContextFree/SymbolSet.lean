import ContextFree.Symbol

/-!
# Sets of symbols

A set of symbols is a row of bits, one for each symbol number from zero on. A symbol beyond the row
can be neither put in nor taken out.

Taking symbols out one after the other stops at the first that is beyond the row
(`SymbolSet.eraseAll_eq_error_iff`). If none is, then all of them are out and the others are as
before (`SymbolSet.mem_of_eraseAll`).
-/

namespace ContextFree

/-- A set of symbols whose numbers are below the number of bits. -/
structure SymbolSet where
  bits : List Bool
deriving DecidableEq, Repr

/-- A symbol was put into, or taken out of, a set that has no bit for it. -/
structure OutOfRange where
  id : Nat
  size : Nat
deriving DecidableEq, Repr

/-- What is reported for a symbol without a bit. -/
def OutOfRange.message (e : OutOfRange) : String :=
  "index out of bounds: " ++ toString e.id ++ " >= " ++ toString e.size

namespace SymbolSet

/-- The set without bits. -/
def empty : SymbolSet :=
  ⟨[]⟩

instance : Inhabited SymbolSet :=
  ⟨empty⟩

/-- The set of the first `n` symbols. -/
def full (n : Nat) : SymbolSet :=
  ⟨List.replicate n true⟩

/-- Puts `s` into the set, or takes it out. -/
def set (A : SymbolSet) (s : Symbol) (present : Bool) : Except OutOfRange SymbolSet :=
  if s.id < A.bits.length then .ok ⟨A.bits.set s.id present⟩ else .error ⟨s.id, A.bits.length⟩

/-- Takes the symbols of a list out of the set, one after the other. -/
def eraseAll (A : SymbolSet) (symbols : List Symbol) : Except OutOfRange SymbolSet :=
  symbols.foldlM (fun B s => B.set s false) A

/-- The symbols in the set, by number. -/
def toList (A : SymbolSet) : Except OutOfSymbols (List Symbol) :=
  (A.bits.zipIdx.filter (·.1)).mapM fun entry => Symbol.ofNat entry.2

/-! ## Membership -/

/-- A symbol is in the set if its bit is set. -/
instance : Membership Symbol SymbolSet :=
  ⟨fun A s => A.bits[s.id]? = some true⟩

variable {A B : SymbolSet} {s t : Symbol} {present : Bool}

theorem mem_iff : s ∈ A ↔ A.bits[s.id]? = some true :=
  Iff.rfl

theorem mem_full {n : Nat} : s ∈ full n ↔ s.id < n := by
  rw [mem_iff, full, List.getElem?_replicate]
  simp

theorem set_eq_ok_iff :
    A.set s present = .ok B ↔ s.id < A.bits.length ∧ B = ⟨A.bits.set s.id present⟩ := by
  unfold set
  split
  next hlt => simp [hlt, eq_comm]
  next hge => simp [hge]

theorem set_eq_error_iff {e : OutOfRange} :
    A.set s present = .error e ↔ A.bits.length ≤ s.id ∧ e = ⟨s.id, A.bits.length⟩ := by
  unfold set
  split
  next hlt => simp [Nat.not_le.mpr hlt]
  next hge => simp [Nat.le_of_not_lt hge, eq_comm]

theorem length_bits_of_set (h : A.set s present = .ok B) : B.bits.length = A.bits.length := by
  rw [(set_eq_ok_iff.mp h).2, List.length_set]

/-- Only the symbol itself is put in or taken out. -/
theorem mem_of_set (h : A.set s present = .ok B) :
    t ∈ B ↔ if t = s then present = true else t ∈ A := by
  obtain ⟨hlt, rfl⟩ := set_eq_ok_iff.mp h
  rw [mem_iff, List.getElem?_set]
  by_cases hts : t = s
  · subst hts
    simp [hlt]
  · have hid : s.id ≠ t.id := fun hid => hts (Symbol.ext hid.symm)
    rw [if_neg hid, if_neg hts, mem_iff]

/-! ## Taking out many symbols -/

theorem eraseAll_cons (A : SymbolSet) (s : Symbol) (symbols : List Symbol) :
    A.eraseAll (s :: symbols) = (A.set s false).bind (·.eraseAll symbols) :=
  rfl

/-- The first symbol beyond the row is the error. -/
theorem eraseAll_eq_error_iff {symbols : List Symbol} {e : OutOfRange} :
    A.eraseAll symbols = .error e ↔
      ∃ s, symbols.find? (A.bits.length ≤ ·.id) = some s ∧ e = ⟨s.id, A.bits.length⟩ := by
  induction symbols generalizing A with
  | nil => simp [eraseAll, pure, Except.pure]
  | cons s symbols ih =>
    rw [eraseAll_cons]
    cases hset : A.set s false with
    | ok B =>
      have hlt := (set_eq_ok_iff.mp hset).1
      rw [List.find?_cons_of_neg (by simpa using hlt), ← length_bits_of_set hset]
      exact ih
    | error e' =>
      obtain ⟨hge, rfl⟩ := set_eq_error_iff.mp hset
      rw [List.find?_cons_of_pos (by simpa using hge)]
      simp [Except.bind, eq_comm]

theorem eraseAll_cons_eq_ok_iff {symbols : List Symbol} :
    A.eraseAll (s :: symbols) = .ok B ↔
      ∃ A₁, A.set s false = .ok A₁ ∧ A₁.eraseAll symbols = .ok B := by
  rw [eraseAll_cons]
  cases A.set s false <;> simp [Except.bind]

theorem length_bits_of_eraseAll {symbols : List Symbol} (h : A.eraseAll symbols = .ok B) :
    B.bits.length = A.bits.length := by
  induction symbols generalizing A with
  | nil =>
    cases h
    rfl
  | cons s symbols ih =>
    obtain ⟨A₁, hset, hrest⟩ := eraseAll_cons_eq_ok_iff.mp h
    rw [ih hrest, length_bits_of_set hset]

/-- All the symbols are out, and the others are as before. -/
theorem mem_of_eraseAll {symbols : List Symbol} (h : A.eraseAll symbols = .ok B) :
    t ∈ B ↔ t ∈ A ∧ t ∉ symbols := by
  induction symbols generalizing A with
  | nil =>
    cases h
    simp
  | cons s symbols ih =>
    obtain ⟨A₁, hset, hrest⟩ := eraseAll_cons_eq_ok_iff.mp h
    rw [ih hrest, mem_of_set hset]
    by_cases hts : t = s <;> simp [hts]

end SymbolSet

end ContextFree
