import ContextFree.Proofs.Closed
import ContextFree.Proofs.Invariant
import ContextFree.Proofs.RoundTrip

/-!
# When a fresh symbol is new

The fresh symbols of a pass have the numbers that the vocabulary comes to next, by their low 32 bits
(`Introduces.ids_mod`). The rules are not looked at, so a fresh symbol is new to them if and only if
no rule has used one of these numbers before. In a closed grammar none has.

A grammar that is read from a text, or that has been given a rule with a symbol from elsewhere, need
not be closed. There a pass may issue a symbol that has rules already, and these become alternatives
of the fresh symbol.
-/

namespace ContextFree

namespace Grammar

/-- The symbols that the rules use, each as often as it occurs. -/
def occurrences (g : Grammar) : List Symbol :=
  g.rules.flatMap fun r => r.lhs :: r.rhs

theorem mem_occurrences {g : Grammar} {t : Symbol} :
    t ∈ g.occurrences ↔ ∃ r ∈ g.rules, t = r.lhs ∨ t ∈ r.rhs := by
  simp only [occurrences, List.mem_flatMap, List.mem_cons]

theorem Closed.issued_of_mem_occurrences {g : Grammar} (h : g.Closed) {t : Symbol}
    (ht : t ∈ g.occurrences) : g.Issued t := by
  rcases mem_occurrences.mp ht with ⟨r, hr, rfl | hrhs⟩
  · exact h.lhs_issued r hr
  · exact h.rhs_issued r hr t hrhs

end Grammar

namespace Factoring

/-- Symbols that are issued have the numbers that follow, of which the low 32 bits count. -/
theorem Introduces.ids_mod {base : Symbol} {v v' : Vocabulary} {fresh : List Symbol}
    (h : Introduces base v fresh v') :
    fresh.map (·.id) = (List.range fresh.length).map fun i => (v.size + i) % 4294967296 := by
  have hextends := h.extends
  rw [hextends.ids, List.range'_eq_map_range]
  apply List.map_congr_left
  intro i hi
  -- the numbers do not start again before the last one
  have hlt := List.mem_range.mp hi
  have hnext := hextends.size_mod
  have hsize := hextends.size_eq
  omega

theorem Factored.mem_fresh_iff_mod {o : Options} {s t : Symbol} {fresh : List Symbol}
    {g g' : Grammar} (h : Factored o s fresh g g') :
    t ∈ fresh ↔
      ∃ i < (g.groups o.policy s).length, t.id = (g.vocabulary.size + i) % 4294967296 := by
  rw [← Symbol.id_mem_map, h.introduces.ids_mod, h.length_fresh]
  simp only [List.mem_map, List.mem_range, eq_comm]

/-- The fresh symbols of a pass are new to the grammar if and only if none of the next numbers, one
for each group, is that of a symbol in its rules. In a closed grammar that is so. -/
theorem fresh_unused_iff {o : Options} {s : Symbol} {fresh : List Symbol} {w w' : Workspace}
    (h : factor o s w = .ok (.ok fresh) w') :
    ((∀ f ∈ fresh, f ∉ w.grammar.occurrences) ↔
      ∀ t ∈ w.grammar.occurrences, ∀ i < (w.grammar.groups o.policy s).length,
        t.id ≠ (w.vocabulary.size + i) % 4294967296) ∧
    (w.grammar.Closed → ∀ f ∈ fresh, f ∉ w.grammar.occurrences) := by
  have hpass := factored_of_factor h
  refine ⟨⟨?_, ?_⟩, ?_⟩
  · intro hnew t ht i hi heq
    exact hnew t (hpass.mem_fresh_iff_mod.mpr ⟨i, hi, heq⟩) ht
  · intro hnone f hf hused
    rcases hpass.mem_fresh_iff_mod.mp hf with ⟨i, hi, heq⟩
    exact hnone f hused i hi heq
  · intro hclosed f hf hused
    exact hpass.not_issued hclosed hf (hclosed.issued_of_mem_occurrences hused)

/-- A vocabulary that has issued three symbols. -/
def three : Vocabulary :=
  Outcome.state (Vocabulary.issueAll [some "S", some "a", some "b"] .empty)

/-- Two alternatives of `S` that begin alike, and a rule for a symbol that is given. -/
def branching (t : Symbol) : Grammar :=
  .ofRules three
    [⟨.numbered 0, [.numbered 1]⟩, ⟨.numbered 0, [.numbered 1, .numbered 2]⟩, ⟨t, [.numbered 1]⟩]

/-- A pass issues symbol 3, so a rule for symbol 2 or for symbol 4 is no harm. -/
theorem fresh_unused_iff_branching :
    (branching (.numbered 2)).Closed ∧
    (∃ w', factor {} (.numbered 0) (.ofGrammar (branching (.numbered 2))) =
        .ok (.ok [.numbered 3]) w' ∧
      ∀ f ∈ [Symbol.numbered 3], f ∉ (branching (.numbered 2)).occurrences) ∧
    ∃ w', factor {} (.numbered 0) (.ofGrammar (branching (.numbered 4))) =
        .ok (.ok [.numbered 3]) w' ∧
      ∀ f ∈ [Symbol.numbered 3], f ∉ (branching (.numbered 4)).occurrences := by
  have hclosed : (branching (.numbered 2)).Closed := by decide +kernel
  have hissued : Run.fresh? {} (.once (.numbered 0)) (.ofGrammar (branching (.numbered 2))) =
      some [.numbered 3] := by decide +kernel
  have hunissued : Run.fresh? {} (.once (.numbered 0)) (.ofGrammar (branching (.numbered 4))) =
      some [.numbered 3] := by decide +kernel
  rcases Run.exists_of_fresh? hissued with ⟨w₂, hw₂⟩
  rcases Run.exists_of_fresh? hunissued with ⟨w₄, hw₄⟩
  have hapart := (fresh_unused_iff hw₄).1.mpr (by decide +kernel)
  exact ⟨hclosed, ⟨w₂, hw₂, (fresh_unused_iff hw₂).2 hclosed⟩, w₄, hw₄, hapart⟩

/-- The grammar with a rule for symbol 3 is read from a text. Its first fresh symbol is symbol 3. -/
theorem fresh_used_unissued :
    Grammar.read (branching (.numbered 3)).toJson.write = .ok (branching (.numbered 3)) ∧
    ∃ w', factor {} (.numbered 0) (.ofGrammar (branching (.numbered 3))) =
        .ok (.ok [.numbered 3]) w' ∧
      (branching (.numbered 3)).isNonterminal (.numbered 3) = true ∧
      .numbered 3 ∈ (branching (.numbered 3)).occurrences := by
  have hfresh : Run.fresh? {} (.once (.numbered 0)) (.ofGrammar (branching (.numbered 3))) =
      some [.numbered 3] := by decide +kernel
  rcases Run.exists_of_fresh? hfresh with ⟨w', hw'⟩
  exact ⟨Grammar.read_write _, w', hw', by decide +kernel, by decide +kernel⟩

end Factoring

end ContextFree
