import Mathlib.Data.List.Nodup
import ContextFree.Serialized
import ContextFree.Proofs.Json.Values

/-!
# Grammars survive being written

A grammar is read back from the text it is written as (`Grammar.read_write`), whatever its symbols
are named and whatever symbols its rules use. What is not written, the owners of the names and the
index of the rules, follows from what is, so the grammar that was read is the one that was written
in every respect.

The parts are taken one by one: each is read back from its own JSON (`ofJson_toJson` and its kin),
and its JSON is spelled as JSON allows.
-/

namespace ContextFree

/-! ## Numbers -/

namespace Decimal

/-- A positive number is written without a zero in front. -/
theorem head?_toDigits_ne_zero {n : Nat} (h : 0 < n) : (Nat.toDigits 10 n).head? ≠ some '0' := by
  induction n using Nat.strong_induction_on with
  | h n ih =>
    rw [Nat.toDigits_eq_if (by decide)]
    split
    next hlt =>
      have hdigit : ∀ d < 10, 0 < d → Nat.digitChar d ≠ '0' := by decide
      simpa using hdigit n hlt h
    · rw [List.head?_append_of_ne_nil _ Nat.toDigits_ne_nil]
      exact ih (n / 10) (by omega) (by omega)

theorem isNumber_of_digits {c : Char} {cs : List Char} (hc : c ≠ '0') (h : c.isDigit = true)
    (hcs : ∀ d ∈ cs, d.isDigit = true) : Json.isNumber (c :: cs) = true := by
  have hsign : c ≠ '-' := by
    rintro rfl
    cases h
  have hrest : cs.dropWhile Char.isDigit = [] := List.dropWhile_eq_nil_iff.mpr hcs
  unfold Json.isNumber
  split
  next heq => exact absurd (List.cons.inj heq).1 hsign
  · unfold Json.isUnsigned
    split
    next heq => cases heq
    next heq => exact absurd (List.cons.inj heq).1 hc
    next heq =>
      cases heq
      rw [h, hrest]
      rfl

/-- A positive number is written as a number of JSON. -/
theorem isNumber_toDigits {n : Nat} (h : 0 < n) : Json.isNumber (Nat.toDigits 10 n) = true := by
  have hzero := head?_toDigits_ne_zero h
  have hdigits := List.all_eq_true.mp (all_isDigit_toDigits n)
  cases hcs : Nat.toDigits 10 n with
  | nil => exact absurd hcs Nat.toDigits_ne_nil
  | cons c cs =>
    rw [hcs] at hzero hdigits
    refine isNumber_of_digits ?_ (hdigits c (List.mem_cons_self ..))
      fun d hd => hdigits d (List.mem_cons_of_mem c hd)
    rintro rfl
    exact hzero rfl

end Decimal

/-! ## Records and arrays -/

theorem mapM_eq_some_map {α β : Type} {f : α → Option β} {g : α → β} {l : List α}
    (h : ∀ a ∈ l, f a = some (g a)) : l.mapM f = some (l.map g) := by
  induction l with
  | nil => rfl
  | cons a l ih =>
    have hrest := ih fun b hb => h b (List.mem_cons_of_mem a hb)
    rw [List.mapM_cons, h a (List.mem_cons_self ..), hrest]
    rfl

namespace Json

theorem filter_name_eq {members : List (String × Json)} (hnodup : (members.map (·.1)).Nodup)
    {m : String × Json} (hm : m ∈ members) : members.filter (·.1 = m.1) = [m] := by
  induction members with
  | nil => cases hm
  | cons first members ih =>
    rw [List.map_cons, List.nodup_cons, List.mem_map, not_exists] at hnodup
    rcases hnodup with ⟨hfirst, hrest⟩
    rcases List.mem_cons.mp hm with rfl | hm
    · have hnone : members.filter (·.1 = m.1) = [] := by
        rw [List.filter_eq_nil_iff]
        exact fun m' hm' heq => hfirst m' ⟨hm', of_decide_eq_true heq⟩
      simp [hnone]
    · have hne : first.1 ≠ m.1 := fun heq => hfirst m ⟨hm, heq.symm⟩
      simp [hne, ih hrest hm]

/-- A member whose name no other member has is the only one of its name. -/
theorem only?_of_mem {members : List (String × Json)} (hnodup : (members.map (·.1)).Nodup)
    {m : String × Json} (hm : m ∈ members) :
    only? (members.map fun m => (m.1.toList, m.2)) m.1 = some m.2 := by
  have hname : ∀ m' : String × Json, (m'.1.toList == m.1.toList) = decide (m'.1 = m.1) := by
    intro m'
    rw [Bool.eq_iff_iff, beq_iff_eq, decide_eq_true_eq, String.toList_inj]
  rw [only?, List.filter_map]
  simp only [Function.comp_def, hname, filter_name_eq hnodup hm, List.map_cons, List.map_nil]

/-- The fields of a record that is written as an object are read back. -/
theorem fields?_ofMembers {members : List (String × Json)}
    (hnodup : (members.map (·.1)).Nodup) :
    fields? (members.map (·.1)) (ofMembers members) = some (members.map (·.2)) := by
  have hkeys : decodeKeys (members.map fun m => (Piece.ofText m.1, m.2)) =
      some (members.map fun m => (m.1.toList, m.2)) := by
    rw [decodeKeys, List.mapM_map]
    apply mapM_eq_some_map
    intro m _
    simp
  rw [ofMembers, fields?, hkeys, Option.bind_some, List.mapM_map]
  exact mapM_eq_some_map fun m hm => only?_of_mem hnodup hm

/-- The items of an array are read back if each of them is. -/
theorem items?_array_map {α : Type} {item? : Json → Option α} {toJson : α → Json} {l : List α}
    (h : ∀ a ∈ l, item? (toJson a) = some a) :
    items? item? (.array (l.map toJson)) = some l := by
  have hread : l.mapM (item? ∘ toJson) = some (l.map id) := mapM_eq_some_map h
  rw [items?, List.mapM_map, hread, List.map_id]

theorem spelled_ofText (text : String) : (Token.string (Piece.ofText text)).Spelled := by
  intro p hp
  rcases List.mem_map.mp hp with ⟨c, -, rfl⟩
  trivial

theorem spelled_ofMembers {members : List (String × Json)} (h : ∀ m ∈ members, Spelled m.2) :
    Spelled (ofMembers members) := by
  refine .object ?_ ?_
  · intro m hm
    rcases List.mem_map.mp hm with ⟨m, -, rfl⟩
    exact spelled_ofText m.1
  · intro m hm
    rcases List.mem_map.mp hm with ⟨m, hmem, rfl⟩
    exact h m hmem

theorem spelled_array_map {α : Type} {toJson : α → Json} (h : ∀ a, Spelled (toJson a))
    (l : List α) : Spelled (.array (l.map toJson)) := by
  refine .array ?_
  intro v hv
  rcases List.mem_map.mp hv with ⟨a, -, rfl⟩
  exact h a

end Json

/-! ## Symbols and rules -/

theorem Symbol.spelled_toJson (s : Symbol) : Json.Spelled s.toJson := by
  apply Json.spelled_ofMembers
  intro m hm
  rw [List.mem_singleton.mp hm]
  exact .number (Decimal.isNumber_toDigits (Nat.succ_pos s.id))

@[simp]
theorem Symbol.ofJson?_toJson (s : Symbol) : ofJson? s.toJson = some s := by
  have hfields : s.toJson.fields? ["n"] = some [.number (Nat.toDigits 10 (s.id + 1))] :=
    Json.fields?_ofMembers (List.nodup_singleton "n")
  have hlt := s.id_lt
  have hsucc : ofSucc? (s.id + 1) = some s := by
    rw [ofSucc?, dif_pos (by omega)]
    rfl
  rw [ofJson?, hfields]
  simp only [ofNumber?, Decimal.read?_toDigits, Option.bind_some, hsucc]

theorem Rule.spelled_toJson (r : Rule) : Json.Spelled r.toJson := by
  apply Json.spelled_ofMembers
  intro m hm
  rcases List.mem_pair.mp hm with rfl | rfl
  · exact r.lhs.spelled_toJson
  · exact Json.spelled_array_map Symbol.spelled_toJson r.rhs

@[simp]
theorem Rule.ofJson?_toJson (r : Rule) : ofJson? r.toJson = some r := by
  have hfields : r.toJson.fields? ["lhs", "rhs"] =
      some [r.lhs.toJson, .array (r.rhs.map Symbol.toJson)] :=
    Json.fields?_ofMembers (by simp)
  have hrhs := Json.items?_array_map (l := r.rhs) fun s _ => s.ofJson?_toJson
  rw [ofJson?, hfields]
  simp only [Symbol.ofJson?_toJson, hrhs, bind, Option.bind_some, pure]

/-! ## Vocabularies and grammars -/

namespace Vocabulary

theorem spelled_nameToJson (name? : Option String) : Json.Spelled (nameToJson name?) := by
  cases name? with
  | none => exact .null
  | some name => exact .string (Json.spelled_ofText name)

theorem nameOfJson?_nameToJson (name? : Option String) :
    nameOfJson? (nameToJson name?) = some name? := by
  cases name? with
  | none => rfl
  | some name => simp [nameToJson, nameOfJson?]

theorem spelled_toJson (v : Vocabulary) : Json.Spelled v.toJson :=
  Json.spelled_array_map spelled_nameToJson v.names

@[simp]
theorem ofJson_toJson (v : Vocabulary) : ofJson v.toJson = .ok v := by
  have hnames : Json.items? nameOfJson? v.toJson = some v.names :=
    Json.items?_array_map fun name? _ => nameOfJson?_nameToJson name?
  simp only [ofJson, hnames, orMalformed, bind, Except.bind, ofNames_eq, Except.mapError]

end Vocabulary

namespace Grammar

theorem spelled_toJson (g : Grammar) : Json.Spelled g.toJson := by
  apply Json.spelled_ofMembers
  intro m hm
  rcases List.mem_pair.mp hm with rfl | rfl
  · exact g.vocabulary.spelled_toJson
  · exact Json.spelled_array_map Rule.spelled_toJson g.rules

theorem ofJson_toJson (g : Grammar) : ofJson g.toJson = .ok g := by
  have hfields : g.toJson.fields? ["sym_source", "rules"] =
      some [g.vocabulary.toJson, .array (g.rules.map Rule.toJson)] :=
    Json.fields?_ofMembers (by simp)
  have hrules := Json.items?_array_map (l := g.rules) fun r _ => r.ofJson?_toJson
  rw [ofJson, hfields]
  simp only [Vocabulary.ofJson_toJson, hrules, orMalformed, bind, Except.bind, pure, Except.pure]
  exact congrArg Except.ok (Grammar.ext rfl rfl)

theorem read_write (g : Grammar) : read g.toJson.write = .ok g := by
  rw [read, Json.parse?_write g.spelled_toJson]
  exact g.ofJson_toJson

/-- The text of a grammar is accepted and gives the same grammar back: the same names, owners, rules
and index. So a grammar that was read from any text is the same after it is written and read once
more. -/
theorem grammar_restored :
    (∀ g, read g.toJson.write = .ok g) ∧
    ∀ text, ((read text).bind fun g => read g.toJson.write) = read text := by
  refine ⟨read_write, fun text => ?_⟩
  cases read text with
  | error e => rfl
  | ok g => exact g.read_write

end Grammar

end ContextFree
