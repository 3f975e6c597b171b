import ContextFree.Proofs.Run

/-!
# When factoring is refused

A pass over `s` is refused for two reasons. Either `s` has no rule, or its alternatives cannot be
put together, which `Ungroupable` says without looking for groups. In every other case a pass
introduces a symbol, provided that there is room for the symbols it needs.

These are the exact conditions. A fixed point is refused just as its first pass is, and a refusal
leaves the workspace, log included, as it was.
-/

namespace ContextFree

namespace Factoring

/-- The alternatives of a symbol cannot be put together: no two of them begin with the same symbol,
or, where all of them are to be put together, there is one alone or they do not begin with one
symbol. -/
def Ungroupable : Policy → List (List Symbol) → Prop
  | .grouped, alternatives => BeginApart alternatives
  | .global, alternatives =>
    alternatives.length = 1 ∨ ¬ ∃ a, ∀ rhs ∈ alternatives, rhs.head? = some a

theorem groups_eq_nil_iff {policy : Policy} {alternatives : List (List Symbol)}
    (hne : alternatives ≠ []) :
    groups policy alternatives = [] ↔ Ungroupable policy alternatives := by
  cases policy with
  | grouped => exact groupsByFirst_eq_nil_iff
  | global =>
    have hpos : 0 < alternatives.length := List.length_pos_of_ne_nil hne
    rw [groups, groupOfAll_eq_nil_iff, Ungroupable, not_and_or]
    have hlen : ¬ 2 ≤ alternatives.length ↔ alternatives.length = 1 := by omega
    rw [hlen]

theorem isNonterminal_eq_false_iff {g : Grammar} {s : Symbol} :
    g.isNonterminal s = false ↔ ∀ r ∈ g.rules, r.lhs ≠ s := by
  rw [← Bool.not_eq_true, Grammar.isNonterminal_iff]
  push Not
  rfl

/-- With room for the symbols it needs, a pass that is not refused succeeds. -/
theorem factor_of_room {o : Options} {s : Symbol} {w : Workspace}
    (hnt : w.grammar.isNonterminal s = true) (hgroups : w.grammar.groups o.policy s ≠ [])
    (hroom : (w.grammar.groups o.policy s).length ≤ w.room) :
    ∃ fresh w', factor o s w = .ok (.ok fresh) w' := by
  have hok : ∃ fresh w', factorGroups o.dedup s (w.grammar.groups o.policy s) w = .ok fresh w' :=
    factorGroups_of_room (w.grammar.grouping o.policy s) hroom
  rcases hok with ⟨fresh, w', hfactor⟩
  refine ⟨fresh, w', ?_⟩
  rw [factor_apply]
  simp [hnt, hgroups, hfactor]

/-- When a pass, or a fixed point, is refused, and that nothing has changed then. The last part says
that the loop of a fixed point is never refused once its first pass has succeeded. -/
theorem factor_refused_exactly (o : Options) (s : Symbol) (w : Workspace) :
    (∀ t w', factor o s w = .ok (.error (.notNonterminal t)) w' ↔
      t = s ∧ w' = w ∧ ∀ r ∈ w.grammar.rules, r.lhs ≠ s) ∧
    (∀ t w', factor o s w = .ok (.error (.nothingToFactor t)) w' ↔
      t = s ∧ w' = w ∧ (∃ r ∈ w.grammar.rules, r.lhs = s) ∧
        Ungroupable o.policy (w.grammar.rightSides s)) ∧
    ((∃ first rest w', factor o s w = .ok (.ok (first :: rest)) w') ↔
      (∃ r ∈ w.grammar.rules, r.lhs = s) ∧ ¬ Ungroupable o.policy (w.grammar.rightSides s) ∧
        (w.grammar.groups o.policy s).length ≤ w.room) ∧
    (∀ w', factor o s w ≠ .ok (.ok []) w') ∧
    (∀ r w', factorFully o s w = .ok (.error r) w' ↔ factor o s w = .ok (.error r) w') ∧
    ∀ fresh w₁ r w',
      ¬ (factor o s w = .ok (.ok fresh) w₁ ∧ drain o fresh w₁ = .ok (.error r) w') := by
  have hne : w.grammar.isNonterminal s = true → w.grammar.rightSides s ≠ [] :=
    Grammar.isNonterminal_iff_rightSides.mp
  refine ⟨?_, ?_, ⟨?_, ?_⟩, ?_, ?_, ?_⟩
  · intro t w'
    rw [factor_eq_notNonterminal_iff, isNonterminal_eq_false_iff]
  · intro t w'
    rw [factor_eq_nothingToFactor_iff, ← Grammar.isNonterminal_iff]
    constructor
    · rintro ⟨ht, hw, hnt, hgroups⟩
      exact ⟨ht, hw, hnt, (groups_eq_nil_iff (hne hnt)).mp hgroups⟩
    · rintro ⟨ht, hw, hnt, hapart⟩
      exact ⟨ht, hw, hnt, (groups_eq_nil_iff (hne hnt)).mpr hapart⟩
  · rintro ⟨first, rest, w', hfactor⟩
    have hpass := factored_of_factor hfactor
    have hroom := room_of_factor hfactor
    refine ⟨Grammar.isNonterminal_iff.mp hpass.isNonterminal, ?_, ?_⟩
    · intro hapart
      exact hpass.groups_ne_nil ((groups_eq_nil_iff (hne hpass.isNonterminal)).mpr hapart)
    · rw [← hpass.length_fresh]
      omega
  · rintro ⟨hrule, hapart, hroom⟩
    have hnt := Grammar.isNonterminal_iff.mpr hrule
    have hgroups : w.grammar.groups o.policy s ≠ [] := fun hnil =>
      hapart ((groups_eq_nil_iff (hne hnt)).mp hnil)
    rcases factor_of_room hnt hgroups hroom with ⟨fresh, w', hfactor⟩
    obtain ⟨first, rest, rfl⟩ :=
      List.exists_cons_of_ne_nil (factored_of_factor hfactor).fresh_ne_nil
    exact ⟨first, rest, w', hfactor⟩
  · intro w' hfactor
    exact (factored_of_factor hfactor).fresh_ne_nil rfl
  · intro r w'
    exact factorFully_refused_iff
  · rintro fresh w₁ r w' ⟨hfactor, hdrain⟩
    exact drain_fresh_ne_refused hfactor r w' hdrain

end Factoring

end ContextFree
