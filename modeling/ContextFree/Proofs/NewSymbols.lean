import ContextFree.Proofs.NameOwners
import ContextFree.Proofs.NameTable

/-!
# New symbols

A table of any length gives a vocabulary, unless it names an entry whose number stands for no symbol
(`Vocabulary.exists_ofNames_iff`). Whatever the table was, the symbols that requests generate from
there on have the numbers that follow (`Vocabulary.Request.grows_of_generateAll`) and so are all
different.

Are they also different from the symbols of the table? A number stands for a symbol by its low 32
bits, and only a number with the low bits of `2 ^ 32 - 1` is refused. A vocabulary that starts with
fewer than `2 ^ 32` entries is refused its next symbol before any number comes again. One that
starts with `2 ^ 32` or more has passed that point, and issues symbols of its table once more.
-/

namespace ContextFree

/-! ## Tables of any length -/

namespace Owners

theorem exists_enterAt_iff {owners : Owners} {name? : Option String} {n : Nat} :
    (∃ after, owners.enterAt (name?, n) = .ok after) ↔
      ∀ name, name? = some name → n % 4294967296 ≠ 4294967295 := by
  cases name? with
  | none => simp [enterAt]
  | some name =>
    constructor
    · rintro ⟨after, hafter⟩ _ - hlast
      rw [← Symbol.ofNat_eq_error_iff (e := ⟨⟩)] at hlast
      simp [enterAt, hlast, Except.map] at hafter
    · intro hn
      cases hread : Symbol.ofNat n with
      | ok s => exact ⟨_, enterAt_of_ofNat hread⟩
      | error e => exact absurd (Symbol.ofNat_eq_error_iff.mp hread) (hn name rfl)

/-- What holds of the numbers of all named entries is said of the last entry and of those before. -/
theorem forall_named_concat {P : Nat → Prop} {names : List (Option String)}
    {name? : Option String} :
    (∀ i name, (names ++ [name?])[i]? = some (some name) → P i) ↔
      (∀ i name, names[i]? = some (some name) → P i) ∧
        ∀ name, name? = some name → P names.length := by
  constructor
  · intro h
    refine ⟨fun i name hi => h i name ?_, fun name hname => h names.length name ?_⟩
    · rw [List.getElem?_append_left (List.getElem?_eq_some_iff.mp hi).1, hi]
    · rw [List.getElem?_concat_length, hname]
  · rintro ⟨hbefore, hlast⟩ i name hi
    rcases Nat.lt_trichotomy i names.length with hlt | rfl | hgt
    · rw [List.getElem?_append_left hlt] at hi
      exact hbefore i name hi
    · rw [List.getElem?_concat_length] at hi
      exact hlast name (Option.some.inj hi)
    · rw [List.getElem?_eq_none (by simpa using hgt)] at hi
      cases hi

/-- All owners are found if and only if every entry with a name has a number that stands for a
symbol. -/
theorem exists_ofNames_iff {names : List (Option String)} :
    (∃ owners, ofNames names = .ok owners) ↔
      ∀ i name, names[i]? = some (some name) → i % 4294967296 ≠ 4294967295 := by
  induction names using List.reverseRecOn with
  | nil =>
    refine ⟨fun _ i name hi => ?_, fun _ => ⟨∅, rfl⟩⟩
    rw [List.getElem?_nil] at hi
    cases hi
  | append_singleton names name? ih =>
    rw [forall_named_concat (P := fun i => i % 4294967296 ≠ 4294967295), ← ih, ofNames_concat]
    constructor
    · rintro ⟨owners, howners⟩
      cases hbefore : ofNames names with
      | error e =>
        rw [hbefore] at howners
        cases howners
      | ok before =>
        rw [hbefore] at howners
        exact ⟨⟨before, rfl⟩, exists_enterAt_iff.mp ⟨owners, howners⟩⟩
    · rintro ⟨⟨before, hbefore⟩, hlast⟩
      rw [hbefore]
      exact exists_enterAt_iff.mpr hlast

end Owners

namespace Vocabulary

variable {v w : Vocabulary} {names : List (Option String)} {new : List Symbol}

/-- A table gives a vocabulary if and only if every entry with a name has a number that stands for a
symbol. -/
theorem exists_ofNames_iff :
    (∃ v, ofNames names = .ok v) ↔
      ∀ i name, names[i]? = some (some name) → i % 4294967296 ≠ 4294967295 := by
  rw [← Owners.exists_ofNames_iff]
  constructor
  · rintro ⟨v, hv⟩
    exact ⟨v.owners, names_of_ofNames hv ▸ v.ofNames_names⟩
  · rintro ⟨owners, howners⟩
    exact ⟨⟨names, owners, howners⟩, ofNames_eq ⟨names, owners, howners⟩⟩

theorem exists_ofNames_replicate_none (n : Nat) :
    ∃ v, ofNames (List.replicate n none) = .ok v := by
  refine exists_ofNames_iff.mpr fun i name hi => ?_
  have hnone := List.eq_of_mem_replicate (List.mem_of_getElem? hi)
  cases hnone

/-! ## Requests in turn -/

theorem Grows.of_issueAll (h : issueAll names v = .ok new w) : v.Grows new w := by
  rw [issueAll] at h
  induction names generalizing new v with
  | nil =>
    cases h
    exact .refl _
  | cons name? names ih =>
    simp only [List.mapM_cons, Action.bind_eq_ok_iff, Action.pure_apply,
      EStateM.Result.ok.injEq] at h
    obtain ⟨s, v₁, hissue, later, _, hrest, rfl, rfl⟩ := h
    exact (Grows.of_issue hissue).trans (ih hrest)

namespace Request

variable {r : Request} {requests : List Request}

/-- Does the request ask for the owner of a name that has one? It is answered with no new symbol
then. -/
def isOwned (r : Request) (v : Vocabulary) : Bool :=
  match r with
  | intern name => (v.find? name).isSome
  | _ => false

/-- Performs a request. The answer is the symbols that are new. -/
def generate (r : Request) : Action Vocabulary (List Symbol) := do
  let owned := r.isOwned (← get)
  let answers ← r.perform
  return if owned then [] else answers

/-- Performs requests in turn. The answer is the symbols that are new, from the first to the
last. -/
def generateAll : List Request → Action Vocabulary (List Symbol)
  | [] => return []
  | r :: rest => do
    let new ← r.generate
    let later ← generateAll rest
    return new ++ later

/-- New symbols have the numbers that follow. -/
theorem grows_of_generate (h : r.generate v = .ok new w) : v.Grows new w := by
  simp only [generate, Action.bind_eq_ok_iff, Action.get_apply, Action.pure_apply,
    EStateM.Result.ok.injEq] at h
  obtain ⟨_, _, ⟨rfl, rfl⟩, answers, _, hperform, rfl, rfl⟩ := h
  cases r with
  | issue name? =>
    obtain ⟨s, rfl, hissue⟩ := Action.singleton_eq_ok_iff.mp hperform
    exact .of_issue hissue
  | issueAll names => exact .of_issueAll hperform
  | intern name =>
    obtain ⟨s, rfl, hintern⟩ := Action.singleton_eq_ok_iff.mp hperform
    cases hfind : v.find? name with
    | some owner =>
      rw [intern_of_some hfind] at hintern
      cases hintern
      simp only [isOwned, hfind]
      exact .refl v
    | none =>
      rw [intern_of_none hfind] at hintern
      simp only [isOwned, hfind]
      exact .of_issue hintern

theorem grows_of_generateAll (h : generateAll requests v = .ok new w) : v.Grows new w := by
  induction requests generalizing new v with
  | nil =>
    cases h
    exact .refl _
  | cons r requests ih =>
    simp only [generateAll, Action.bind_eq_ok_iff, Action.pure_apply, EStateM.Result.ok.injEq] at h
    obtain ⟨first, v₁, hfirst, later, _, hlater, rfl, rfl⟩ := h
    exact (grows_of_generate hfirst).trans (ih hlater)

end Request

/-! ## New and old -/

/-- The numbers of new symbols come after those of all entries so far if and only if these are fewer
than `2 ^ 32`, or if nothing is new. -/
theorem Grows.size_le_id_iff (h : v.Grows new w) :
    (∀ s ∈ new, v.size ≤ s.id) ↔ v.size < 4294967296 ∨ new = [] := by
  constructor
  · intro hnew
    cases new with
    | nil => exact .inr rfl
    | cons s later =>
      have hle := hnew s List.mem_cons_self
      have hlt := s.id_lt
      exact .inl (by omega)
  · rintro (hlt | rfl) s hs
    · have hid : s.id ∈ List.range' (v.size % 4294967296) new.length :=
        h.ids ▸ Symbol.id_mem_map.mpr hs
      rw [Nat.mod_eq_of_lt hlt, List.mem_range'_1] at hid
      exact hid.1
    · cases hs

/-- A table gives a vocabulary unless it names an entry that has no symbol. The symbols that are
generated from there on are all different, and one entry is added for each. If the table has fewer
than `2 ^ 32` entries they are also different from those of the table. Otherwise each is a symbol
that the table has, and is displayed as it was. -/
theorem generated_new_iff (names : List (Option String)) :
    ((∃ v, ofNames names = .ok v) ↔
      ∀ i name, names[i]? = some (some name) → i % 4294967296 ≠ 4294967295) ∧
    ∀ (v : Vocabulary) (requests : List Request) (new : List Symbol) (w : Vocabulary),
      ofNames names = .ok v → Request.generateAll requests v = .ok new w →
      w.size = names.length + new.length ∧ new.Nodup ∧
      new.map (·.id) = List.range' (names.length % 4294967296) new.length ∧
      ((∀ s ∈ new, names.length ≤ s.id) ↔ names.length < 4294967296 ∨ new = []) ∧
      (4294967296 ≤ names.length →
        ∀ s ∈ new, s.id < names.length ∧ w.displayName s = v.displayName s) := by
  refine ⟨exists_ofNames_iff, fun v requests new w hv hnew => ?_⟩
  have hsize : v.size = names.length := congrArg List.length (names_of_ofNames hv)
  have hgrows := Request.grows_of_generateAll hnew
  rw [← hsize]
  refine ⟨hgrows.size_eq, hgrows.nodup, hgrows.ids, hgrows.size_le_id_iff, fun hle s _ => ?_⟩
  have hold : s.id < v.size := by
    have hlt := s.id_lt
    omega
  exact ⟨hold, displayName_of_prefix hgrows.prefix_names hold⟩

/-- The new symbols of requests that succeed. -/
def Request.generated? (requests : List Request) (v : Vocabulary) : Option (List Symbol) :=
  match generateAll requests v with
  | .ok new _ => some new
  | .error _ _ => none

theorem Request.exists_of_generated? {requests : List Request}
    (h : generated? requests v = some new) : ∃ w, generateAll requests v = .ok new w := by
  unfold generated? at h
  split at h
  next w hrun =>
    cases h
    exact ⟨w, hrun⟩
  · cases h

/-- The name `a` has an owner and gets no new symbol, and `b` gets one. Both are then recorded for
new symbols once more. -/
theorem generated_new_iff_shared :
    ∃ v w, ofNames [some "a", none, some "a"] = .ok v ∧
      Request.generateAll
        [.intern "a", .intern "b", .issueAll [none, some "a"], .intern "b", .issue (some "b")] v =
          .ok [.numbered 3, .numbered 4, .numbered 5, .numbered 6] w ∧
      [Symbol.numbered 3, .numbered 4, .numbered 5, .numbered 6].Nodup ∧
      ∀ s ∈ [Symbol.numbered 3, .numbered 4, .numbered 5, .numbered 6], 3 ≤ s.id := by
  let v := Outcome.state (issueAll [some "a", none, some "a"] .empty)
  have hnames : v.names = [some "a", none, some "a"] := by decide +kernel
  have hv : ofNames [some "a", none, some "a"] = .ok v := hnames ▸ ofNames_eq v
  have hnew : Request.generated?
      [.intern "a", .intern "b", .issueAll [none, some "a"], .intern "b", .issue (some "b")] v =
        some [.numbered 3, .numbered 4, .numbered 5, .numbered 6] := by decide +kernel
  obtain ⟨w, hw⟩ := Request.exists_of_generated? hnew
  obtain ⟨-, hnodup, -, hafter, -⟩ := (generated_new_iff _).2 v _ _ w hv hw
  exact ⟨v, w, hv, hw, hnodup, hafter.mpr (.inl (by decide))⟩

/-- A table of `2 ^ 32` entries without names is that of a vocabulary. The symbol that is issued
next is the first one of the table, and is not displayed under the name that is recorded for it. -/
theorem first_issued_again :
    ∃ v w, ofNames (List.replicate 4294967296 none) = .ok v ∧
      Request.generateAll [.issue (some "x")] v = .ok [.first] w ∧
      Symbol.first.id < v.size ∧ w.displayName .first = "g0" := by
  -- the vocabulary is taken as it comes, since its table is too long to be written out
  obtain ⟨v, hv⟩ := exists_ofNames_replicate_none 4294967296
  have hnames := names_of_ofNames hv
  have hsize : v.size = 4294967296 := by rw [size, hnames, List.length_replicate]
  have hroom : 0 < v.room := by
    rw [room, hsize]
    decide
  obtain ⟨s, w, hissue⟩ := issue_of_room (some "x") hroom
  have hfirst : s = .first := by
    have hid := Symbol.ofNat_eq_ok_iff.mp (of_issue hissue).2
    rw [hsize, Nat.mod_self] at hid
    exact Symbol.ext hid
  have hold : Symbol.first.id < v.size := by
    rw [hsize]
    decide
  have hunnamed : v.names[Symbol.first.id]? = some none := by
    rw [hnames]
    exact List.getElem?_replicate_of_lt (by decide)
  refine ⟨v, w, hv, ?_, hold, ?_⟩
  · rw [hfirst] at hissue
    simp only [Request.generateAll, Request.generate, Request.perform, Request.isOwned,
      Action.bind_apply, Action.get_apply, Action.pure_apply, hissue]
    rfl
  · calc w.displayName .first
        _ = v.displayName .first := displayName_of_prefix (prefix_of_issue hissue) hold
        _ = "g0" := displayName_of_unnamed hunnamed

end Vocabulary

end ContextFree
