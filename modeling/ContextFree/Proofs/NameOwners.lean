import ContextFree.Proofs.DisplayNames

/-!
# First owners

The owners that a vocabulary keeps beside its name table are entered one by one as symbols are
issued, and all at once when a table is read. Either way the owner of a name is the first symbol
recorded under it (`Vocabulary.find?_eq_some_iff`), as long as the table has no more entries than
there are symbols.

A vocabulary comes into being empty or from such a table, and is changed by requests for symbols
(`Vocabulary.Reached`). Requests add entries at the end of the table and nothing else
(`Vocabulary.Request.prefix_after`), also those that fail halfway, so what has been recorded stays
as it is.
-/

namespace ContextFree

namespace Vocabulary

variable {v w : Vocabulary} {s : Symbol} {name : String} {names : List (Option String)}

/-! ## The owner of a name -/

/-- Symbol `s` is the first one that the table records under `name`. -/
def Owns (v : Vocabulary) (s : Symbol) (name : String) : Prop :=
  v.names[s.id]? = some (some name) ∧ ∀ id < s.id, v.names[id]? ≠ some (some name)

/-- All numbers are read in full if there are not more entries than symbols. -/
theorem map_id_find?_of_le (hsize : v.size ≤ 4294967295) (name : String) :
    (v.find? name).map (·.id) = v.names.findIdx? (· == some name) := by
  rw [map_id_find?]
  cases hfirst : v.names.findIdx? (· == some name) with
  | none => rfl
  | some id =>
    have hlt : id < v.size := (List.findIdx?_eq_some_iff_getElem.mp hfirst).1
    rw [Option.map_some, Nat.mod_eq_of_lt (by omega)]

theorem find?_eq_some_iff (hsize : v.size ≤ 4294967295) :
    v.find? name = some s ↔ v.Owns s name := by
  have hid : v.find? name = some s ↔ (v.find? name).map (·.id) = some s.id :=
    ⟨fun h => by rw [h]; rfl, fun h => Option.map_injective (fun _ _ => Symbol.ext) h⟩
  rw [hid, map_id_find?_of_le hsize, List.findIdx?_eq_some_iff_getElem, Owns,
    List.getElem?_eq_some_iff]
  constructor
  · rintro ⟨hlt, hs, hfirst⟩
    refine ⟨⟨hlt, eq_of_beq hs⟩, fun id hbefore hname => hfirst id hbefore ?_⟩
    obtain ⟨_, hentry⟩ := List.getElem?_eq_some_iff.mp hname
    rw [hentry, beq_self_eq_true]
  · rintro ⟨⟨hlt, hs⟩, hfirst⟩
    refine ⟨hlt, by rw [hs, beq_self_eq_true], fun id hbefore hname => hfirst id hbefore ?_⟩
    rw [List.getElem?_eq_getElem (Nat.lt_trans hbefore hlt), eq_of_beq hname]

/-! ## The next symbol -/

theorem room_eq_zero_iff (hsize : v.size ≤ 4294967295) : v.room = 0 ↔ v.size = 4294967295 := by
  rw [room]
  omega

theorem issue_of_lt (hlt : v.size < 4294967295) (name? : Option String) :
    ∃ s w, issue name? v = .ok s w ∧ s.id = v.size ∧ w.names = v.names ++ [name?] := by
  have hroom : v.room ≠ 0 := fun h => Nat.ne_of_lt hlt ((room_eq_zero_iff hlt.le).mp h)
  obtain ⟨s, w, hissue⟩ := issue_of_room name? (Nat.pos_of_ne_zero hroom)
  exact ⟨s, w, hissue, id_of_issue hissue hlt.le, (of_issue hissue).1⟩

/-- The symbols of a request for many have the numbers that follow. -/
theorem issueAll_of_le (hle : v.size + names.length ≤ 4294967295) :
    ∃ symbols w, issueAll names v = .ok symbols w ∧
      symbols.map (·.id) = List.range' v.size names.length ∧ w.names = v.names ++ names := by
  induction names generalizing v with
  | nil => exact ⟨[], v, rfl, rfl, (List.append_nil _).symm⟩
  | cons name? names ih =>
    rw [List.length_cons] at hle
    obtain ⟨s, v₁, hissue, hid, hnames⟩ := issue_of_lt (v := v) (by omega) name?
    have hsize := size_of_issue hissue
    obtain ⟨symbols, w, hrest, hids, hadded⟩ := ih (v := v₁) (by omega)
    refine ⟨s :: symbols, w, ?_, ?_, ?_⟩
    · rw [issueAll] at hrest ⊢
      simp only [List.mapM_cons, Action.bind_apply, hissue, hrest, Action.pure_apply]
    · rw [List.map_cons, hid, hids, hsize, List.length_cons, List.range'_succ]
    · rw [hadded, hnames, List.append_assoc, List.singleton_append]

/-- A request for too many symbols is answered with none, but all that are left are used up. -/
theorem issueAll_of_lt (hsize : v.size ≤ 4294967295)
    (hlt : 4294967295 < v.size + names.length) (e : OutOfSymbols) :
    ∃ w, issueAll names v = .error e w ∧
      w.names = v.names ++ names.take (4294967295 - v.size) := by
  induction names generalizing v with
  | nil => exact absurd hlt (Nat.not_lt.mpr hsize)
  | cons name? names ih =>
    rw [List.length_cons] at hlt
    rcases Nat.lt_or_eq_of_le hsize with hroom | hfull
    · obtain ⟨s, v₁, hissue, -, hnames⟩ := issue_of_lt hroom name?
      have hnext := size_of_issue hissue
      obtain ⟨w, hrest, hadded⟩ := ih (size_le_of_issue hissue hsize) (by omega)
      have hleft : 4294967295 - v.size = 4294967295 - v₁.size + 1 := by omega
      refine ⟨w, ?_, ?_⟩
      · rw [issueAll] at hrest ⊢
        simp only [List.mapM_cons, Action.bind_apply, hissue, hrest]
      · rw [hadded, hnames, hleft, List.take_succ_cons, List.append_assoc, List.singleton_append]
    · have herror : issue name? v = .error e v :=
        issue_eq_error_iff.mpr ⟨(room_eq_zero_iff hsize).mpr hfull, rfl⟩
      refine ⟨v, ?_, ?_⟩
      · simp only [issueAll, List.mapM_cons, Action.bind_apply, herror]
      · rw [hfull, Nat.sub_self, List.take_zero, List.append_nil]

/-! ## The owner that is asked for -/

theorem intern_of_some (h : v.find? name = some s) : intern name v = .ok s v := by
  simp only [intern, Action.bind_apply, Action.get_apply, h, Action.pure_apply]

theorem intern_of_none (h : v.find? name = none) : intern name v = issue (some name) v := by
  simp only [intern, Action.bind_apply, Action.get_apply, h]

theorem intern_eq_error_iff (hsize : v.size ≤ 4294967295) {e : OutOfSymbols} :
    intern name v = .error e w ↔ v.find? name = none ∧ v.size = 4294967295 ∧ w = v := by
  cases hfind : v.find? name with
  | some s => simp [intern_of_some hfind]
  | none => simp [intern_of_none hfind, issue_eq_error_iff, room_eq_zero_iff hsize]

/-- The symbol that is issued under a name without an owner becomes the owner. -/
theorem find?_of_issue_new (h : issue (some name) v = .ok s w) (hnone : v.find? name = none) :
    w.find? name = some s := by
  unfold issue at h
  split at h
  · cases h
    show (v.owners.enter (some name) s)[name]? = some s
    have howner : v.owners[name]? = none := hnone
    rw [Owners.getElem?_enter, howner, if_pos rfl]
    rfl
  · cases h

/-- The symbol that is asked for by a name is the owner from then on. -/
theorem find?_of_intern (h : intern name v = .ok s w) : w.find? name = some s := by
  cases hfind : v.find? name with
  | some t =>
    rw [intern_of_some hfind] at h
    cases h
    exact hfind
  | none =>
    rw [intern_of_none hfind] at h
    exact find?_of_issue_new h hfind

/-! ## Tables -/

theorem names_of_ofNames (h : ofNames names = .ok v) : v.names = names := by
  unfold ofNames at h
  split at h
  · cases h
    rfl
  · cases h

theorem exists_ofNames (h : names.length ≤ 4294967295) :
    ∃ v, ofNames names = .ok v ∧ v.names = names := by
  -- the table is that of the vocabulary that has issued its entries
  obtain ⟨_, v, -, -, hadded⟩ := issueAll_of_le (v := .empty) (by simpa [size, empty] using h)
  have hnames : v.names = names := hadded
  exact ⟨v, hnames ▸ ofNames_eq v, hnames⟩

/-! ## Requests -/

/-- Asking for the owner of a name keeps what a new symbol keeps. -/
theorem keeps_intern {P : Vocabulary → Prop} (hP : ∀ name?, (issue name?).Keeps P)
    (name : String) : (intern name).Keeps P := by
  refine Action.Keeps.get.bind fun v => ?_
  split
  · exact .pure _
  · exact hP (some name)

/-- Issuing a symbol adds an entry at the end of the table, or nothing. -/
theorem keeps_prefix_issue (v : Vocabulary) (name? : Option String) :
    (issue name?).Keeps fun w => v.names <+: w.names := by
  intro w hw
  exact of_state_issue hw fun _ _ h => hw.trans (prefix_of_issue h)

/-- A request for symbols. -/
inductive Request where
  /-- A new symbol, with a name or without. -/
  | issue (name? : Option String)
  /-- New symbols in a row. All are without a name if `names` holds nothing else than `none`. -/
  | issueAll (names : List (Option String))
  /-- The owner of a name, which is a new symbol if there is none. -/
  | intern (name : String)
deriving DecidableEq, Repr

namespace Request

/-- The symbols that a request is answered with. -/
def perform : Request → Action Vocabulary (List Symbol)
  | issue name? => do return [← Vocabulary.issue name?]
  | issueAll names => Vocabulary.issueAll names
  | intern name => do return [← Vocabulary.intern name]

/-- The vocabulary after a request, whatever the answer is. -/
def after (r : Request) (v : Vocabulary) : Vocabulary :=
  Outcome.state (r.perform v)

variable {P : Vocabulary → Prop}

/-- A property that a new symbol keeps is kept by every request. -/
theorem keeps_perform (hP : ∀ name?, (Vocabulary.issue name?).Keeps P) (r : Request) :
    r.perform.Keeps P := by
  cases r with
  | issue name? => exact (hP name?).bind fun _ => .pure _
  | issueAll names => exact .mapM fun name? _ => hP name?
  | intern name => exact (keeps_intern hP name).bind fun _ => .pure _

theorem size_after_le (r : Request) (hsize : v.size ≤ 4294967295) :
    (r.after v).size ≤ 4294967295 := by
  refine keeps_perform (P := fun v => v.size ≤ 4294967295) ?_ r v hsize
  exact fun _ v hv => of_state_issue hv fun _ _ h => size_le_of_issue h hv

/-- A request adds entries at the end of the table, and does nothing else to it. -/
theorem prefix_after (r : Request) (v : Vocabulary) : v.names <+: (r.after v).names := by
  exact r.keeps_perform (keeps_prefix_issue v) v (List.prefix_refl _)

end Request

/-- A vocabulary that requests lead to, from the empty one or from one that is given by a table with
no more entries than there are symbols. -/
inductive Reached : Vocabulary → Prop
  | empty : Reached .empty
  | ofNames {names : List (Option String)} {v : Vocabulary} : names.length ≤ 4294967295 →
      Vocabulary.ofNames names = .ok v → Reached v
  | after {v : Vocabulary} (r : Request) : Reached v → Reached (r.after v)

theorem Reached.size_le (h : v.Reached) : v.size ≤ 4294967295 := by
  induction h with
  | empty => exact Nat.zero_le _
  | ofNames hlength hof => rwa [size, names_of_ofNames hof]
  | after r _ ih => exact r.size_after_le ih

/-! ## What a vocabulary answers -/

/-- The owners of names are the inverse of the name table, before and after a request, and also in
the vocabulary that the table gives back. -/
structure InvertsTable (v : Vocabulary) : Prop where
  find?_iff : ∀ name s, v.find? name = some s ↔ v.Owns s name
  /-- A name that has an owner is not recorded again. -/
  intern_owned : ∀ name s, v.find? name = some s → intern name v = .ok s v
  /-- The next symbol becomes the owner of a name that has none. -/
  intern_new : ∀ name, v.find? name = none → v.size < 4294967295 →
    ∃ s w, intern name v = .ok s w ∧ s.id = v.size ∧ w.names = v.names ++ [some name] ∧
      w.displayName s = name ∧ w.find? name = some s
  issue_next : ∀ name?, v.size < 4294967295 →
    ∃ s w, issue name? v = .ok s w ∧ s.id = v.size ∧ w.names = v.names ++ [name?]
  issueAll_next : ∀ names, v.size + names.length ≤ 4294967295 →
    ∃ symbols w, issueAll names v = .ok symbols w ∧
      symbols.map (·.id) = List.range' v.size names.length ∧ w.names = v.names ++ names
  /-- Symbols are refused only when all of them are in use, and then nothing changes. -/
  issue_error_iff : ∀ name? e w, issue name? v = .error e w ↔ v.size = 4294967295 ∧ w = v
  intern_error_iff : ∀ name e w,
    intern name v = .error e w ↔ v.find? name = none ∧ v.size = 4294967295 ∧ w = v
  /-- A request for too many symbols uses up those that are left. -/
  issueAll_error : ∀ names e, 4294967295 < v.size + names.length →
    ∃ w, issueAll names v = .error e w ∧
      w.names = v.names ++ names.take (4294967295 - v.size)
  /-- No request changes under which name an issued symbol is displayed, or who owns a name. -/
  displayName_after : ∀ (r : Request) s, s.id < v.size →
    (r.after v).displayName s = v.displayName s
  find?_after : ∀ (r : Request) name, some name ∈ v.names →
    (r.after v).find? name = v.find? name
  /-- The table is enough to tell all answers. -/
  rebuilt : ∃ w, Vocabulary.ofNames v.names = .ok w ∧
    (∀ name, w.find? name = v.find? name) ∧ (∀ s, w.displayName s = v.displayName s) ∧
    ∀ name, w.isTaken name = v.isTaken name

/-- Every table with no more entries than there are symbols is that of a vocabulary, and whatever is
requested of it or of the empty vocabulary, the owners stay the inverse of the table. -/
theorem owners_invert_table :
    (∀ names : List (Option String), names.length ≤ 4294967295 →
      ∃ v, ofNames names = .ok v ∧ v.names = names ∧ v.Reached) ∧
    ∀ v : Vocabulary, v.Reached → v.InvertsTable := by
  constructor
  · intro names hlength
    obtain ⟨v, hof, hnames⟩ := exists_ofNames hlength
    exact ⟨v, hof, hnames, .ofNames hlength hof⟩
  · intro v hv
    have hsize := hv.size_le
    exact {
      find?_iff := fun _ _ => find?_eq_some_iff hsize
      intern_owned := fun _ _ => intern_of_some
      intern_new := by
        intro name hnone hlt
        obtain ⟨s, w, hissue, hid, hnames⟩ := issue_of_lt hlt (some name)
        exact ⟨s, w, (intern_of_none hnone).trans hissue, hid, hnames,
          displayName_of_issue_self hissue hid, find?_of_issue_new hissue hnone⟩
      issue_next := fun name? hlt => issue_of_lt hlt name?
      issueAll_next := fun _ => issueAll_of_le
      issue_error_iff := fun _ _ _ => by rw [issue_eq_error_iff, room_eq_zero_iff hsize]
      intern_error_iff := fun _ _ _ => intern_eq_error_iff hsize
      issueAll_error := fun _ e hlt => issueAll_of_lt hsize hlt e
      displayName_after := fun r _ => displayName_of_prefix (r.prefix_after v)
      find?_after := fun r _ => find?_of_prefix (r.prefix_after v)
      rebuilt := ⟨v, ofNames_eq v, fun _ => rfl, fun _ => rfl, fun _ => rfl⟩ }

/-- The first of the symbols named `a` is found, also after a request for another name. -/
theorem owners_invert_table_shared :
    [none, some "a", some "b", some "a"].length ≤ 4294967295 ∧
    ∃ v w, ofNames [none, some "a", some "b", some "a"] = .ok v ∧ v.Reached ∧
      intern "c" v = .ok (.numbered 4) w ∧ w.Reached ∧ w.find? "a" = some (.numbered 1) ∧
      intern "a" w = .ok (.numbered 1) w := by
  have hlength : [none, some "a", some "b", some "a"].length ≤ 4294967295 := by decide
  obtain ⟨v, hof, hnames, hv⟩ := owners_invert_table.1 _ hlength
  have hnone : v.find? "c" = none := by
    rw [← Option.not_isSome_iff_eq_none, find?_isSome_iff, hnames]
    decide
  have hsize : v.size = 4 := congrArg List.length hnames
  obtain ⟨s, w, hintern, hid, hadded, -⟩ :=
    (owners_invert_table.2 v hv).intern_new "c" hnone (by omega)
  have hs : s = .numbered 4 := Symbol.ext (hid.trans hsize)
  have hw : w.Reached := by
    have hafter : Request.after (.intern "c") v = w := by
      simp [Request.after, Request.perform, Action.bind_apply, hintern, Outcome.state,
        Action.pure_apply]
    exact hafter ▸ hv.after (.intern "c")
  have hanswers := owners_invert_table.2 w hw
  have hfound : w.find? "a" = some (.numbered 1) := by
    rw [hanswers.find?_iff, Owns, hadded, hnames]
    decide
  exact ⟨hlength, v, w, hof, hv, hs ▸ hintern, hw, hfound, hanswers.intern_owned _ _ hfound⟩

end Vocabulary

end ContextFree
