import ContextFree.Proofs.Closed
import ContextFree.Proofs.CommonGroups
import ContextFree.Proofs.Replacement

/-!
# Putting all alternatives together

The global policy looks at all alternatives of a symbol at once. Where it makes a group, all
alternatives begin with one symbol, so the partition by first symbol has one class and both policies
make the same group (`groupOfAll_eq_groupsByFirst`).

What is left of a group has nothing in common at its beginning, so the global policy finds nothing
in the fresh symbols of a pass, and its fixed point comes to the same as its first pass
(`nothing_common_left`). Only the log tells that the fresh symbols have been looked at.
-/

namespace ContextFree

namespace Factoring

variable {alternatives : List (List Symbol)} {a : Symbol}

/-! ## One group for all -/

theorem positionsFrom_of_all (h : ∀ rhs ∈ alternatives, rhs.head? = some a) :
    positionsFrom alternatives a = List.range alternatives.length := by
  have hall : alternatives.zipIdx.filter (fun entry => entry.1.head? == some a) =
      alternatives.zipIdx := by
    rw [List.filter_eq_self]
    intro entry hentry
    rw [h entry.1 (List.fst_mem_of_mem_zipIdx hentry)]
    exact beq_self_eq_true _
  rw [positionsFrom, hall, List.zipIdx_map_snd, List.range_eq_range']

theorem firstSymbols_of_all (hne : alternatives ≠ [])
    (h : ∀ rhs ∈ alternatives, rhs.head? = some a) : firstSymbols alternatives = [a] := by
  have hfirst : ∀ b ∈ alternatives.filterMap List.head?, b = a := by
    intro b hb
    obtain ⟨rhs, hrhs, hhead⟩ := List.mem_filterMap.mp hb
    rw [h rhs hrhs] at hhead
    exact (Option.some.inj hhead).symm
  refine eraseDups_eq_singleton ?_ hfirst
  obtain ⟨rhs, hrhs⟩ := List.exists_mem_of_ne_nil _ hne
  exact List.ne_nil_of_mem (List.mem_filterMap.mpr ⟨rhs, hrhs, h rhs hrhs⟩)

/-- Where all alternatives make a group, the groups by first symbol are that one. -/
theorem groupOfAll_eq_groupsByFirst (h : groupOfAll alternatives ≠ []) :
    groupOfAll alternatives = groupsByFirst alternatives := by
  rw [Ne, groupOfAll_eq_nil_iff, not_not] at h
  obtain ⟨htwo, a, ha⟩ := h
  have hshort : ¬ alternatives.length < 2 := by omega
  have hne : alternatives ≠ [] := List.ne_nil_of_length_pos (by omega)
  have hshared : commonPrefix alternatives ≠ [] := commonPrefix_ne_nil_iff.mpr ⟨htwo, a, ha⟩
  have hall : groupOfAll alternatives =
      [⟨longestCommon alternatives, List.range alternatives.length⟩] := by
    rw [groupOfAll, if_neg (by simpa using hshared), commonPrefix, if_neg hshort]
  -- there is one class, and it has all positions
  have hclasses : (firstSymbols alternatives).map (positionsFrom alternatives) =
      [List.range alternatives.length] := by
    rw [firstSymbols_of_all hne ha, List.map_singleton, positionsFrom_of_all ha]
  have hbyFirst : groupsByFirst alternatives =
      [Group.ofMembers alternatives (List.range alternatives.length)] := by
    rw [groupsByFirst_eq, hclasses, List.filter_cons_of_pos (by simpa using htwo),
      List.filter_nil, List.map_singleton]
  rw [hall, hbyFirst, Group.ofMembers, filterMap_getElem?_range]

/-- Where the global policy makes a group, it makes the groups that the grouped policy makes, and a
pass under it comes to the same, whatever that is. Where it makes none, a pass is refused. -/
theorem global_agrees_with_grouped :
    (∀ (g : Grammar) (s : Symbol), g.groups .global s ≠ [] →
      g.groups .global s = g.groups .grouped s) ∧
    ∀ (dedup : Bool) (s : Symbol) (w : Workspace),
      (w.grammar.groups .global s = [] ∧
        ∃ r, factor ⟨.global, dedup⟩ s w = .ok (.error r) w) ∨
      (w.grammar.groups .global s ≠ [] ∧
        factor ⟨.global, dedup⟩ s w = factor ⟨.grouped, dedup⟩ s w) := by
  have hagree : ∀ (g : Grammar) (s : Symbol), g.groups .global s ≠ [] →
      g.groups .global s = g.groups .grouped s := fun _ _ => groupOfAll_eq_groupsByFirst
  refine ⟨hagree, fun dedup s w => ?_⟩
  by_cases hgroups : w.grammar.groups .global s = []
  · refine .inl ⟨hgroups, ?_⟩
    rw [factor_apply, hgroups]
    split
    · exact ⟨_, rfl⟩
    · exact ⟨_, rfl⟩
  · refine .inr ⟨hgroups, ?_⟩
    rw [factor_apply, factor_apply, hagree _ s hgroups]

/-- All alternatives of symbol 0 begin with symbol 7, which the vocabulary has not issued, and one
of them is there twice. Of those of symbol 1 only two begin alike. -/
def unissuedPrefix : Grammar :=
  .unnamed 2
    [⟨.numbered 0, [.numbered 7, .numbered 1]⟩,
     ⟨.numbered 1, [.numbered 0, .numbered 1]⟩,
     ⟨.numbered 0, [.numbered 7, .numbered 1, .numbered 1]⟩,
     ⟨.numbered 1, [.numbered 0]⟩,
     ⟨.numbered 0, [.numbered 7, .numbered 1]⟩,
     ⟨.numbered 1, []⟩]

/-- Both policies put the alternatives of symbol 0 together, and only the grouped one finds
anything in those of symbol 1. -/
theorem global_agrees_with_grouped_unissued :
    unissuedPrefix.groups .global (.numbered 0) =
      [⟨[.numbered 7, .numbered 1], [0, 1, 2]⟩] ∧
    unissuedPrefix.groups .grouped (.numbered 0) =
      [⟨[.numbered 7, .numbered 1], [0, 1, 2]⟩] ∧
    factor ⟨.global, true⟩ (.numbered 0) (.ofGrammar unissuedPrefix) =
      factor ⟨.grouped, true⟩ (.numbered 0) (.ofGrammar unissuedPrefix) ∧
    unissuedPrefix.groups .grouped (.numbered 1) = [⟨[.numbered 0], [0, 1]⟩] ∧
    ∃ r, factor ⟨.global, true⟩ (.numbered 1) (.ofGrammar unissuedPrefix) =
      .ok (.error r) (.ofGrammar unissuedPrefix) := by
  have hzero : unissuedPrefix.groups .global (.numbered 0) =
      [⟨[.numbered 7, .numbered 1], [0, 1, 2]⟩] := by decide +kernel
  have hone : unissuedPrefix.groups .global (.numbered 1) = [] := by decide +kernel
  have hne : unissuedPrefix.groups .global (.numbered 0) ≠ [] := by simp [hzero]
  have hsame := global_agrees_with_grouped.1 unissuedPrefix (.numbered 0) hne
  refine ⟨hzero, hsame.symm.trans hzero, ?_, by decide +kernel, ?_⟩
  · rcases global_agrees_with_grouped.2 true (.numbered 0) (.ofGrammar unissuedPrefix) with
      ⟨hnil, -⟩ | ⟨-, hfactor⟩
    · exact absurd hnil hne
    · exact hfactor
  · rcases global_agrees_with_grouped.2 true (.numbered 1) (.ofGrammar unissuedPrefix) with
      ⟨-, hrefused⟩ | ⟨hsome, -⟩
    · exact hrefused
    · exact absurd hone hsome

/-! ## One pass is enough -/

/-- The alternatives of a fresh symbol have nothing in common at their beginning. -/
theorem Factored.commonPrefix_fresh {o : Options} {s f : Symbol} {fresh : List Symbol}
    {g g' : Grammar} (h : Factored o s fresh g g') (hc : g.Closed) (hf : f ∈ fresh) :
    g'.commonPrefix f = [] := by
  obtain ⟨m, hm, rfl⟩ := h.exists_group hf
  rw [Grammar.commonPrefix, h.rightSides_fresh hc hm]
  exact commonPrefix_suffixes (List.of_mem_zip hm).1 o.dedup

theorem groups_global_eq_nil_iff {g : Grammar} {s : Symbol} :
    g.groups .global s = [] ↔ g.commonPrefix s = [] := by
  rw [Grammar.groups, groups, groupOfAll, Grammar.commonPrefix]
  by_cases h : commonPrefix (g.rightSides s) = []
  · simp [h]
  · simp [h]

/-- The workspace once symbols have been reported as looked at, one after the other. The grammar is
the same. -/
def Workspace.revisitAll (w : Workspace) (symbols : List Symbol) : Workspace :=
  { w with log := w.log ++ symbols.map fun s => .revisited (w.vocabulary.displayName s) }

theorem Workspace.revisitAll_nil (w : Workspace) : w.revisitAll [] = w := by
  simp [revisitAll]

theorem Workspace.revisitAll_cons (w : Workspace) (s : Symbol) (rest : List Symbol) :
    w.revisitAll (s :: rest) = (w.revisit s).revisitAll rest := by
  simp [revisitAll, revisit, report, vocabulary]

/-- Nonterminals that have no groups are passed over, and only the log tells of them. -/
theorem drains_of_no_groups {o : Options} {queue : List Symbol} {w : Workspace}
    (h : ∀ t ∈ queue, w.grammar.isNonterminal t = true ∧ w.grammar.groups o.policy t = []) :
    Drains o queue w [] (w.revisitAll queue) := by
  induction queue generalizing w with
  | nil =>
    rw [Workspace.revisitAll_nil]
    exact .done w
  | cons s rest ih =>
    obtain ⟨hnt, hgroups⟩ := h s (List.mem_cons_self ..)
    rw [Workspace.revisitAll_cons]
    refine .passedOver (factor_eq_nothingToFactor_iff.mpr ⟨rfl, rfl, hnt, hgroups⟩) (ih ?_)
    exact fun t ht => h t (List.mem_cons_of_mem s ht)

/-- After a pass over a closed grammar, under whatever options, the alternatives of no fresh symbol
have anything in common at their beginning, and the global policy finds nothing to factor in them.
So under the global policy a fixed point comes to what one pass comes to, be that fresh symbols, a
refusal or a lack of symbols, and only the log tells that the fresh symbols were looked at. -/
theorem nothing_common_left {w : Workspace} (hc : w.grammar.Closed) :
    (∀ o s fresh w', factor o s w = .ok (.ok fresh) w' → ∀ f ∈ fresh,
      w'.grammar.commonPrefix f = [] ∧
      ∀ dedup, factor ⟨.global, dedup⟩ f w' = .ok (.error (.nothingToFactor f)) w') ∧
    ∀ dedup s, factorFully ⟨.global, dedup⟩ s w =
      match factor ⟨.global, dedup⟩ s w with
      | .ok (.ok fresh) w' => .ok (.ok fresh) (w'.revisitAll fresh)
      | .ok (.error r) w' => .ok (.error r) w'
      | .error e w' => .error e w' := by
  have hnone : ∀ {o s fresh} {w' : Workspace}, factor o s w = .ok (.ok fresh) w' → ∀ f ∈ fresh,
      w'.grammar.isNonterminal f = true ∧ w'.grammar.groups .global f = [] := by
    intro o s fresh w' h f hf
    have hpass := factored_of_factor h
    have hcommon := hpass.commonPrefix_fresh hc hf
    exact ⟨hpass.isNonterminal_fresh hf, groups_global_eq_nil_iff.mpr hcommon⟩
  constructor
  · intro o s fresh w' h f hf
    obtain ⟨hnt, hgroups⟩ := hnone h f hf
    exact ⟨groups_global_eq_nil_iff.mp hgroups, fun dedup =>
      factor_eq_nothingToFactor_iff.mpr ⟨rfl, rfl, hnt, hgroups⟩⟩
  · intro dedup s
    cases h : factor ⟨.global, dedup⟩ s w with
    | error e w' => rw [factorFully_apply, h]
    | ok answer w' =>
      cases answer with
      | error r => rw [factorFully_apply, h]
      | ok fresh =>
        have hdrains : Drains ⟨.global, dedup⟩ fresh w' [] (w'.revisitAll fresh) :=
          drains_of_no_groups (hnone h)
        rw [factorFully_of_drains h hdrains, List.append_nil]

/-- Under the grouped policy there would be more to factor in what is left of four alternatives that
begin like one another in turn. An alternative that is there twice leaves one suffix. -/
def nestedPrefixes : Grammar :=
  .unnamed 3
    [⟨.numbered 0, [.numbered 1, .numbered 2]⟩,
     ⟨.numbered 2, [.numbered 1, .numbered 1]⟩,
     ⟨.numbered 0, [.numbered 1, .numbered 2, .numbered 1]⟩,
     ⟨.numbered 2, [.numbered 1, .numbered 1]⟩,
     ⟨.numbered 0, [.numbered 1, .numbered 2, .numbered 1, .numbered 1]⟩,
     ⟨.numbered 0, [.numbered 1, .numbered 2, .numbered 1]⟩]

theorem nothing_common_left_nested :
    nestedPrefixes.Closed ∧
    (∃ w', factor ⟨.grouped, true⟩ (.numbered 2) (.ofGrammar nestedPrefixes) =
        .ok (.ok [.numbered 3]) w' ∧
      w'.grammar.commonPrefix (.numbered 3) = [] ∧
      factor ⟨.global, false⟩ (.numbered 3) w' =
        .ok (.error (.nothingToFactor (.numbered 3))) w') ∧
    ∃ w', factor ⟨.global, false⟩ (.numbered 0) (.ofGrammar nestedPrefixes) =
        .ok (.ok [.numbered 3]) w' ∧
      factorFully ⟨.global, false⟩ (.numbered 0) (.ofGrammar nestedPrefixes) =
        .ok (.ok [.numbered 3]) (w'.revisitAll [.numbered 3]) ∧
      (w'.revisitAll [.numbered 3]).grammar = w'.grammar := by
  have hclosed : nestedPrefixes.Closed := by decide +kernel
  have htwice : Run.fresh? ⟨.grouped, true⟩ (.once (.numbered 2)) (.ofGrammar nestedPrefixes) =
      some [.numbered 3] := by decide +kernel
  have hall : Run.fresh? ⟨.global, false⟩ (.once (.numbered 0)) (.ofGrammar nestedPrefixes) =
      some [.numbered 3] := by decide +kernel
  obtain ⟨w₁, hw₁⟩ := Run.exists_of_fresh? htwice
  obtain ⟨w₂, hw₂⟩ := Run.exists_of_fresh? hall
  obtain ⟨hleft, hfully⟩ := nothing_common_left (w := .ofGrammar nestedPrefixes) hclosed
  obtain ⟨hcommon, hrefused⟩ := hleft _ _ _ w₁ hw₁ (.numbered 3) (by decide)
  have hsame := hfully false (.numbered 0)
  have hw₂ : factor ⟨.global, false⟩ (.numbered 0) (.ofGrammar nestedPrefixes) =
      .ok (.ok [.numbered 3]) w₂ := hw₂
  rw [hw₂] at hsame
  exact ⟨hclosed, ⟨w₁, hw₁, hcommon, hrefused false⟩, w₂, hw₂, hsame, rfl⟩

end Factoring

end ContextFree
