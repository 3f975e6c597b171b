import Std.Data.ExtTreeMap
import ContextFree.Action
import ContextFree.Vocabulary.Placeholder

/-!
# Vocabularies

A vocabulary hands out symbols, and may record a name for each. Entry `i` of its name table is what
is recorded for symbol number `i`. A name may be recorded more than once; the symbol recorded first
is its owner, and `Vocabulary.find?` answers with it.

The owners are kept beside the table so that a name is found without a search. `Owners.ofNames`
says what they are for a given table, and every vocabulary carries the proof that its owners are
those.
-/

namespace ContextFree

/-! ## Owners of names -/

/-- The owner of each recorded name. -/
abbrev Owners : Type :=
  Std.ExtTreeMap String Symbol

namespace Owners

/-- The owners after `name?` is recorded for `s`: a name that has an owner keeps it. -/
def enter (owners : Owners) (name? : Option String) (s : Symbol) : Owners :=
  match name? with
  | none => owners
  | some name => owners.insertIfNew name s

/-- The owners after table entry number `id` holds `name?`. Only a named entry needs a symbol. -/
def enterAt (owners : Owners) (entry : Option String × Nat) : Except OutOfSymbols Owners :=
  match entry.1 with
  | none => .ok owners
  | some name => (Symbol.ofNat entry.2).map (owners.enter (some name))

/-- The owners of the names in a table, entered from the first entry on. -/
def ofNames (names : List (Option String)) : Except OutOfSymbols Owners :=
  names.zipIdx.foldlM enterAt ∅

theorem enterAt_of_ofNat {owners : Owners} {name? : Option String} {n : Nat} {s : Symbol}
    (h : Symbol.ofNat n = .ok s) : owners.enterAt (name?, n) = .ok (owners.enter name? s) := by
  cases name? with
  | none => rfl
  | some name => simp [enterAt, h, Except.map]

/-- One more entry at the end of the table is entered last. -/
theorem ofNames_concat (names : List (Option String)) (name? : Option String) :
    ofNames (names ++ [name?]) = (ofNames names).bind (enterAt · (name?, names.length)) := by
  simp only [ofNames, List.zipIdx_append, List.zipIdx_singleton, List.foldlM_append,
    List.foldlM_cons, List.foldlM_nil, Nat.zero_add]
  cases List.foldlM enterAt ∅ names.zipIdx with
  | error e => rfl
  | ok owners =>
    simp only [bind, Except.bind, pure, Except.pure]
    cases enterAt owners (name?, names.length) <;> rfl

end Owners

/-! ## The vocabulary -/

/-- A source of symbols with optional names. -/
structure Vocabulary where
  /-- What is recorded for each symbol, by number; `none` for a symbol without a name. -/
  names : List (Option String)
  /-- The first symbol recorded under each name. -/
  owners : Owners
  /-- The owners are those of the table. -/
  ofNames_names : Owners.ofNames names = .ok owners

namespace Vocabulary

/-- Two vocabularies with one name table are the same. -/
@[ext]
theorem ext {v w : Vocabulary} (h : v.names = w.names) : v = w := by
  rcases v with ⟨names, owners, hv⟩
  rcases w with ⟨_, owners', hw⟩
  cases h
  have : owners = owners' := by
    rw [hv] at hw
    exact Except.ok.inj hw
  cases this
  rfl

/-- The vocabulary without symbols. -/
def empty : Vocabulary :=
  ⟨[], ∅, rfl⟩

instance : Inhabited Vocabulary :=
  ⟨empty⟩

/-- The vocabulary with a given name table. A table of more than `2 ^ 32 - 1` entries has no
vocabulary if it names an entry whose number stands for no symbol. -/
def ofNames (names : List (Option String)) : Except OutOfSymbols Vocabulary :=
  match h : Owners.ofNames names with
  | .ok owners => .ok ⟨names, owners, h⟩
  | .error e => .error e

/-- A table that is some vocabulary's gives that vocabulary back. -/
@[simp]
theorem ofNames_eq (v : Vocabulary) : ofNames v.names = .ok v := by
  unfold ofNames
  split
  · exact congrArg Except.ok (Vocabulary.ext rfl)
  next e h =>
    rw [v.ofNames_names] at h
    cases h

/-- How many symbols there are. -/
def size (v : Vocabulary) : Nat :=
  v.names.length

/-- The symbols, by number. -/
def symbols (v : Vocabulary) : Except OutOfSymbols (List Symbol) :=
  (List.range v.size).mapM Symbol.ofNat

/-- The owner of a name. -/
def find? (v : Vocabulary) (name : String) : Option Symbol :=
  v.owners[name]?

/-- The name that `s` is displayed under: the recorded one, or else a placeholder. -/
def displayName (v : Vocabulary) (s : Symbol) : String :=
  match v.names[s.id]? with
  | some (some name) => name
  | _ => Placeholder.name s.id

/-- The displayed names of symbols, with one space between them. -/
def displayNames (v : Vocabulary) (symbols : List Symbol) : String :=
  " ".intercalate (symbols.map v.displayName)

/-- How many symbols can still be issued. -/
def room (v : Vocabulary) : Nat :=
  4294967295 - v.size % 4294967296

/-! ## Issuing symbols -/

/-- The vocabulary with one more symbol `s`, of the next number. -/
def push (v : Vocabulary) (name? : Option String) (s : Symbol)
    (h : Symbol.ofNat v.size = .ok s) : Vocabulary where
  names := v.names ++ [name?]
  owners := v.owners.enter name? s
  ofNames_names := by
    rw [Owners.ofNames_concat, v.ofNames_names]
    exact Owners.enterAt_of_ofNat h

/-- Issues a new symbol, and records its name if there is one. A vocabulary that has no symbol left
is not changed. -/
def issue (name? : Option String) : Action Vocabulary Symbol := fun v =>
  match h : Symbol.ofNat v.size with
  | .ok s => .ok s (v.push name? s h)
  | .error e => .error e v

/-- Each new symbol takes up room. -/
theorem room_of_issue {name? : Option String} {v w : Vocabulary} {s : Symbol}
    (h : issue name? v = .ok s w) : w.room + 1 = v.room := by
  unfold issue at h
  split at h
  next hs =>
    cases h
    have hlt := s.id_lt
    have hid := Symbol.ofNat_eq_ok_iff.mp hs
    simp only [room, size, push, List.length_append, List.length_singleton] at hid ⊢
    omega
  · cases h

/-- Issues a new symbol for each entry of a list of names. -/
def issueAll (names : List (Option String)) : Action Vocabulary (List Symbol) :=
  names.mapM issue

/-- The owner of `name`, which is a new symbol if the name has none yet. -/
def intern (name : String) : Action Vocabulary Symbol := do
  match (← get).find? name with
  | some s => pure s
  | none => issue (some name)

end Vocabulary

end ContextFree
