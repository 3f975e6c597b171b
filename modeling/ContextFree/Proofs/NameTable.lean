import ContextFree.Proofs.Invariant
import ContextFree.Proofs.TakenNames

/-!
# How runs extend the name table

A vocabulary that issues symbols grows at the end of its name table, and numbers the symbols in turn
(`Vocabulary.Grows`).

A run adds entries at the end of the name table and nothing else. What it answers is the symbols of
these entries in the order in which they were added (`Passes.extends`), be it one pass or the many
passes of a fixed point or a whole grammar. Each of the entries has a name, and a name that was
recorded before keeps its owner (`Vocabulary.find?_of_prefix`).

The rules do not matter for this. They may use symbols that have not been issued.
-/

namespace ContextFree

namespace Vocabulary

/-- The vocabulary `w` has, beyond what `v` has, entries for the symbols `issued` and no others. The
symbols have the numbers that follow, of which the low 32 bits count. -/
structure Grows (v : Vocabulary) (issued : List Symbol) (w : Vocabulary) : Prop where
  prefix_names : v.names <+: w.names
  size_eq : w.size = v.size + issued.length
  /-- The numbers do not start again. -/
  size_mod : w.size % 4294967296 = v.size % 4294967296 + issued.length
  ids : issued.map (·.id) = List.range' (v.size % 4294967296) issued.length

namespace Grows

variable {v v₁ w : Vocabulary} {issued later : List Symbol}

theorem refl (v : Vocabulary) : v.Grows [] v :=
  ⟨List.prefix_refl _, rfl, rfl, rfl⟩

theorem of_issue {name? : Option String} {s : Symbol} (h : issue name? v = .ok s w) :
    v.Grows [s] w := by
  have hid := Symbol.ofNat_eq_ok_iff.mp (Vocabulary.of_issue h).2
  have hlt := s.id_lt
  have hsize := size_of_issue h
  refine ⟨prefix_of_issue h, hsize, ?_, ?_⟩
  · -- the greatest number stands for no symbol, so the next one is greater by one
    rw [List.length_singleton]
    omega
  · rw [List.map_singleton, hid]
    rfl

theorem trans (h : v.Grows issued v₁) (h' : v₁.Grows later w) : v.Grows (issued ++ later) w := by
  refine ⟨h.prefix_names.trans h'.prefix_names, ?_, ?_, ?_⟩
  · rw [h'.size_eq, h.size_eq, List.length_append, Nat.add_assoc]
  · rw [h'.size_mod, h.size_mod, List.length_append, Nat.add_assoc]
  · rw [List.map_append, h.ids, h'.ids, h.size_mod, List.range'_append_1, List.length_append]

/-- No symbol is issued twice. -/
theorem nodup (h : v.Grows issued w) : issued.Nodup := by
  apply List.Nodup.of_map (·.id)
  rw [h.ids]
  exact List.nodup_range'

end Grows

end Vocabulary

namespace Factoring

/-- The vocabulary `v'` has, beyond what `v` has, entries for the symbols `fresh` and no others, and
all of them have names. The symbols have the numbers that follow, of which the low 32 bits count. -/
structure Extends (v : Vocabulary) (fresh : List Symbol) (v' : Vocabulary) : Prop where
  size_eq : v'.size = v.size + fresh.length
  /-- The numbers do not start again. -/
  size_mod : v'.size % 4294967296 = v.size % 4294967296 + fresh.length
  ids : fresh.map (·.id) = List.range' (v.size % 4294967296) fresh.length
  names_eq : ∃ added : List String, v'.names = v.names ++ added.map some
  find?_eq : ∀ name, some name ∈ v.names → v'.find? name = v.find? name

namespace Extends

theorem refl (v : Vocabulary) : Extends v [] v :=
  ⟨rfl, rfl, rfl, ⟨[], (List.append_nil _).symm⟩, fun _ _ => rfl⟩

theorem grows {v v' : Vocabulary} {fresh : List Symbol} (h : Extends v fresh v') :
    v.Grows fresh v' := by
  obtain ⟨added, hadded⟩ := h.names_eq
  exact ⟨⟨added.map some, hadded.symm⟩, h.size_eq, h.size_mod, h.ids⟩

theorem of_issue {name : String} {v v' : Vocabulary} {s : Symbol}
    (h : Vocabulary.issue (some name) v = .ok s v') : Extends v [s] v' := by
  have hgrows := Vocabulary.Grows.of_issue h
  exact ⟨hgrows.size_eq, hgrows.size_mod, hgrows.ids, ⟨[name], (Vocabulary.of_issue h).1⟩,
    fun _ => Vocabulary.find?_of_prefix hgrows.prefix_names⟩

theorem trans {v v₁ v' : Vocabulary} {fresh later : List Symbol} (h : Extends v fresh v₁)
    (h' : Extends v₁ later v') : Extends v (fresh ++ later) v' := by
  have hgrows := h.grows.trans h'.grows
  obtain ⟨added, hadded⟩ := h.names_eq
  obtain ⟨more, hmore⟩ := h'.names_eq
  refine ⟨hgrows.size_eq, hgrows.size_mod, hgrows.ids, ⟨added ++ more, ?_⟩, fun _ =>
    Vocabulary.find?_of_prefix hgrows.prefix_names⟩
  rw [hmore, hadded, List.map_append, List.append_assoc]

end Extends

theorem Introduces.extends {base : Symbol} {v v' : Vocabulary} {fresh : List Symbol}
    (h : Introduces base v fresh v') : Extends v fresh v' := by
  induction h with
  | nil v => exact .refl v
  | cons hissue _ ih => exact (Extends.of_issue hissue).trans ih

/-- Passes add the entries of their fresh symbols. -/
theorem Passes.extends {o : Options} {fresh : List Symbol} {g g' : Grammar}
    (h : Passes o g fresh g') : Extends g.vocabulary fresh g'.vocabulary := by
  induction h with
  | nil g => exact .refl g.vocabulary
  | cons hpass _ ih => exact hpass.introduces.extends.trans ih

/-- A run that succeeds reports the symbols that it has issued, all of them, once and in order. The
name table has grown at the end only, by named entries, and names recorded before are found as
before. -/
theorem run_reports_issued {o : Options} {run : Run} {fresh : List Symbol} {w w' : Workspace}
    (hsize : w.vocabulary.size ≤ 4294967295) (h : run.perform o w = .ok (.ok fresh) w') :
    fresh.map (·.id) =
      List.range' w.vocabulary.size (w'.vocabulary.size - w.vocabulary.size) ∧
    (∃ added : List String, w'.vocabulary.names = w.vocabulary.names ++ added.map some) ∧
    ∀ name, some name ∈ w.vocabulary.names →
      w'.vocabulary.find? name = w.vocabulary.find? name := by
  have hextends : Extends w.vocabulary fresh w'.vocabulary := (passes_of_run h).extends
  have hmod : w.vocabulary.size % 4294967296 = w.vocabulary.size := Nat.mod_eq_of_lt (by omega)
  refine ⟨?_, hextends.names_eq, hextends.find?_eq⟩
  rw [hextends.ids, hmod, hextends.size_eq, Nat.add_sub_cancel_left]

/-- Four symbols, two of which have one name and one of which has none, and rules that also use the
symbols 5 and 9. -/
def namesakes : Workspace :=
  .ofGrammar (.ofRules
    (Outcome.state (Vocabulary.issueAll [some "S", none, some "S", some "x"] .empty))
    [⟨.numbered 0, [.numbered 1, .numbered 1, .numbered 2]⟩,
     ⟨.numbered 9, [.numbered 3, .numbered 5]⟩,
     ⟨.numbered 0, [.numbered 1, .numbered 1]⟩,
     ⟨.numbered 0, [.numbered 1]⟩,
     ⟨.numbered 9, [.numbered 3]⟩])

/-- The fixed points of the symbols 0 and 9 issue the symbols 4, 5 and 6, and the first symbol named
`S` is still the one that is found. -/
theorem run_reports_issued_namesakes :
    namesakes.vocabulary.size = 4 ∧
    ∃ w', Run.all.perform {} namesakes = .ok (.ok [.numbered 4, .numbered 5, .numbered 6]) w' ∧
      [4, 5, 6] = List.range' 4 (w'.vocabulary.size - 4) ∧
      (∃ added : List String, w'.vocabulary.names =
        [some "S", none, some "S", some "x"] ++ added.map some) ∧
      some "S" ∈ namesakes.vocabulary.names ∧ w'.vocabulary.find? "S" = some (.numbered 0) := by
  have hsize : namesakes.vocabulary.size = 4 := by decide +kernel
  have hfresh : Run.all.fresh? {} namesakes = some [.numbered 4, .numbered 5, .numbered 6] := by
    decide +kernel
  obtain ⟨w', hw'⟩ := Run.exists_of_fresh? hfresh
  obtain ⟨hids, hadded, hfound⟩ := run_reports_issued (by rw [hsize]; decide) hw'
  have hname : some "S" ∈ namesakes.vocabulary.names := by decide +kernel
  have hbefore : namesakes.vocabulary.find? "S" = some (.numbered 0) := by decide +kernel
  have hnames : namesakes.vocabulary.names = [some "S", none, some "S", some "x"] := by
    decide +kernel
  rw [hsize] at hids
  rw [hnames] at hadded
  exact ⟨hsize, w', hw', hids, hadded, hname, (hfound "S" hname).trans hbefore⟩

end Factoring

end ContextFree
