import ContextFree.Proofs.Invariant
import ContextFree.Proofs.RuleOrder

/-!
# Without repetitions

To leave repeated suffixes out changes nothing else about a pass: it is refused for the same reason
or issues the same symbols under the same names, and it gives each fresh symbol what is left of its
own group once repetitions are taken out (`suffixes_eq`).

A fixed point under this option never makes a repetition again. When a later pass over a fresh
symbol puts heads in place of alternatives, each new head ends in a symbol that no alternative has
and no other head ends in (`Marking.heads_nodup`). So what is once without repetitions stays so
(`Passes.nodup_rightSides`).
-/

namespace ContextFree

namespace Factoring

/-! ## One pass with and without repetitions -/

/-- A pass issues its fresh symbols first, and only the rules that it makes then depend on whether
repetitions are kept. -/
theorem factor_dedup (policy : Policy) (s : Symbol) (w : Workspace) :
    (∃ r, ∀ dedup, factor ⟨policy, dedup⟩ s w = .ok (.error r) w) ∨
    (∃ e w', ∀ dedup, factor ⟨policy, dedup⟩ s w = .error e w') ∨
    ∃ (fresh : List Symbol) (w₁ : Workspace), ∀ dedup, factor ⟨policy, dedup⟩ s w =
      .ok (.ok fresh) (w₁.replace s (factoredRules dedup s (w.grammar.rightSides s)
        ((w.grammar.groups policy s).zip fresh))) := by
  cases hnt : w.grammar.isNonterminal s with
  | false =>
    exact .inl ⟨.notNonterminal s, fun _ => factor_eq_notNonterminal_iff.mpr ⟨rfl, rfl, hnt⟩⟩
  | true =>
    by_cases hgroups : w.grammar.groups policy s = []
    · exact .inl ⟨.nothingToFactor s, fun _ =>
        factor_eq_nothingToFactor_iff.mpr ⟨rfl, rfl, hnt, hgroups⟩⟩
    · have hgrouping := w.grammar.grouping policy s
      cases hmap : (w.grammar.groups policy s).mapM (separate s) w with
      | error e w' =>
        refine .inr (.inl ⟨e, w', fun dedup => ?_⟩)
        rw [factor_apply, factorGroups_eq dedup s hgrouping, Action.bind_apply, hmap]
        simp [hnt, hgroups]
      | ok fresh w₁ =>
        refine .inr (.inr ⟨fresh, w₁, fun dedup => ?_⟩)
        rw [factor_apply, factorGroups_eq dedup s hgrouping, Action.bind_apply, hmap]
        simp [hnt, hgroups, Action.bind_apply, Action.modify_apply, Action.pure_apply]

/-- Two passes over a closed grammar that differ in whether repetitions are kept. -/
theorem Factored.alternatives_dedup {policy : Policy} {s : Symbol} {fresh : List Symbol}
    {g g₁ g₂ : Grammar} (h₁ : Factored ⟨policy, true⟩ s fresh g g₁)
    (h₂ : Factored ⟨policy, false⟩ s fresh g g₂) (hc : g.Closed) :
    (∀ t, t ∉ fresh → g₁.alternatives t = g₂.alternatives t) ∧
      ∀ f ∈ fresh, g₁.rightSides f = (g₂.rightSides f).eraseDups := by
  constructor
  · intro t ht
    rw [Grammar.alternatives_eq_map, Grammar.alternatives_eq_map]
    by_cases hts : t = s
    · rw [hts, h₁.rightSides_self (h₁.self_not_mem hc), h₂.rightSides_self (h₂.self_not_mem hc)]
    · rw [h₁.rightSides_of_ne hts ht, h₂.rightSides_of_ne hts ht]
  · intro f hf
    obtain ⟨m, hm, rfl⟩ := h₁.exists_group hf
    rw [h₁.rightSides_fresh hc hm, h₂.rightSides_fresh hc hm, suffixes_eq]
    rfl

/-! ## No repetitions come back -/

/-- Alternatives without repetitions have heads without repetitions, if each group has a symbol of
its own that no alternative uses. -/
theorem Marking.heads_nodup {alternatives : List (List Symbol)} {marked : List (Group × Symbol)}
    (h : Marking alternatives marked) (hnodup : alternatives.Nodup)
    (hsymbols : (marked.map (·.2)).Nodup)
    (hnew : ∀ m ∈ marked, ∀ rhs ∈ alternatives, m.2 ∉ rhs) : (heads alternatives marked).Nodup := by
  have hkept : (ungrouped alternatives marked).Nodup := by
    have hsub : (ungrouped alternatives marked).Sublist (alternatives.zipIdx.map (·.1)) :=
      List.filter_sublist.map _
    rw [List.zipIdx_map_fst] at hsub
    exact hnodup.sublist hsub
  -- the heads of groups are told apart by their last symbols
  have hheads : (marked.map fun m => m.1.shared ++ [m.2]).Nodup := by
    apply List.Nodup.of_map List.getLast?
    have hlast : (marked.map fun m => m.1.shared ++ [m.2]).map List.getLast? =
        (marked.map (·.2)).map some := by
      simp
    rw [hlast]
    exact hsymbols.map fun _ _ => Option.some.inj
  rw [h.heads_perm.nodup_iff, List.nodup_append]
  refine ⟨hkept, hheads, ?_⟩
  rintro rhs hrhs _ hhead rfl
  obtain ⟨m, hm, rfl⟩ := List.mem_map.mp hhead
  have hold := h.mem_alternatives.mpr (.inl hrhs)
  exact hnew m hm _ hold (by simp)

/-- After a pass the fresh symbols have no repetitions, and neither has any symbol that had none. -/
theorem Factored.nodup_rightSides {o : Options} {s t : Symbol} {fresh : List Symbol}
    {g g' : Grammar} (h : Factored o s fresh g g') (hd : o.dedup = true) (hc : g.Closed)
    (ht : t ∈ fresh ∨ (g.rightSides t).Nodup) : (g'.rightSides t).Nodup := by
  by_cases hfresh : t ∈ fresh
  · obtain ⟨m, hm, rfl⟩ := h.exists_group hfresh
    rw [h.rightSides_fresh hc hm, hd]
    exact nodup_eraseDups _
  · have hnodup := ht.resolve_left hfresh
    by_cases hts : t = s
    · subst hts
      rw [h.rightSides_self hfresh]
      have hsymbols := h.fresh_nodup hc
      rw [← h.map_snd_zip] at hsymbols
      refine h.marking.heads_nodup hnodup hsymbols ?_
      intro m hm rhs hrhs hmem
      exact h.not_issued hc (List.of_mem_zip hm).2 (hc.issued_of_mem_rightSides hrhs hmem)
    · rwa [h.rightSides_of_ne hts hfresh]

theorem Passes.nodup_rightSides {o : Options} {t : Symbol} {fresh : List Symbol} {g g' : Grammar}
    (h : Passes o g fresh g') (hd : o.dedup = true) (hc : g.Closed)
    (ht : t ∈ fresh ∨ (g.rightSides t).Nodup) : (g'.rightSides t).Nodup := by
  induction h with
  | nil => exact ht.resolve_left List.not_mem_nil
  | cons hpass _ ih =>
    refine ih (hpass.closed hc) ?_
    rcases ht with hfresh | hnodup
    · rcases List.mem_append.mp hfresh with hfirst | hlater
      · exact .inr (hpass.nodup_rightSides hd hc (.inl hfirst))
      · exact .inl hlater
    · exact .inr (hpass.nodup_rightSides hd hc (.inr hnodup))

/-- A pass is refused, or runs out of symbols, or issues the same symbols under the same names,
whether repetitions are kept or not. In a closed grammar the alternatives are the same for every
symbol that is not fresh, and a fresh symbol has the same ones but for the repetitions. After a
fixed point without repetitions no fresh symbol has an alternative twice. -/
theorem repetitions_removed :
    (∀ policy s w,
      (∃ r, ∀ dedup, factor ⟨policy, dedup⟩ s w = .ok (.error r) w) ∨
      (∃ e w', ∀ dedup, factor ⟨policy, dedup⟩ s w = .error e w') ∨
      ∃ fresh w₁ w₂, factor ⟨policy, true⟩ s w = .ok (.ok fresh) w₁ ∧
        factor ⟨policy, false⟩ s w = .ok (.ok fresh) w₂ ∧ w₁.vocabulary = w₂.vocabulary ∧
        (w.grammar.Closed →
          (∀ t, t ∉ fresh → w₁.grammar.alternatives t = w₂.grammar.alternatives t) ∧
          ∀ f ∈ fresh, w₁.grammar.rightSides f = (w₂.grammar.rightSides f).eraseDups)) ∧
    ∀ policy s fresh (w w' : Workspace), w.grammar.Closed →
      factorFully ⟨policy, true⟩ s w = .ok (.ok fresh) w' →
        ∀ f ∈ fresh, (w'.grammar.rightSides f).Nodup := by
  constructor
  · intro policy s w
    rcases factor_dedup policy s w with hrefused | hfailed | ⟨fresh, w₁, hfactor⟩
    · exact .inl hrefused
    · exact .inr (.inl hfailed)
    · exact .inr (.inr ⟨fresh, _, _, hfactor true, hfactor false, rfl,
        (factored_of_factor (hfactor true)).alternatives_dedup
          (factored_of_factor (hfactor false))⟩)
  · intro policy s fresh w w' hc h f hf
    exact (passes_of_factorFully h).nodup_rightSides rfl hc (.inl hf)

/-- The alternatives of symbol 0 are in two interleaved groups. Both have repetitions, and each has
a suffix that the other one has too. Two alternatives of the first group begin alike in turn. -/
def repeatedSuffixes : Grammar :=
  .unnamed 4
    [⟨.numbered 0, [.numbered 1, .numbered 2]⟩,
     ⟨.numbered 0, [.numbered 3, .numbered 2]⟩,
     ⟨.numbered 0, [.numbered 1, .numbered 2]⟩,
     ⟨.numbered 0, [.numbered 3]⟩,
     ⟨.numbered 0, [.numbered 1, .numbered 2, .numbered 1]⟩,
     ⟨.numbered 0, [.numbered 3, .numbered 2]⟩,
     ⟨.numbered 0, [.numbered 1]⟩]

/-- The suffix that is symbol 2 alone is left once in each group, and the fixed point factors the
first group again. -/
theorem repetitions_removed_interleaved :
    repeatedSuffixes.Closed ∧
    (∃ w₁ w₂, factor ⟨.grouped, true⟩ (.numbered 0) (.ofGrammar repeatedSuffixes) =
        .ok (.ok [.numbered 4, .numbered 5]) w₁ ∧
      factor ⟨.grouped, false⟩ (.numbered 0) (.ofGrammar repeatedSuffixes) =
        .ok (.ok [.numbered 4, .numbered 5]) w₂ ∧
      w₁.grammar.rightSides (.numbered 4) = (w₂.grammar.rightSides (.numbered 4)).eraseDups ∧
      w₂.grammar.rightSides (.numbered 4) =
        [[.numbered 2], [.numbered 2], [.numbered 2, .numbered 1], []] ∧
      w₁.grammar.rightSides (.numbered 5) = [[.numbered 2], []]) ∧
    ∃ w', factorFully ⟨.grouped, true⟩ (.numbered 0) (.ofGrammar repeatedSuffixes) =
        .ok (.ok [.numbered 4, .numbered 5, .numbered 6]) w' ∧
      (w'.grammar.rightSides (.numbered 4)).Nodup := by
  have hclosed : repeatedSuffixes.Closed := by decide +kernel
  have honce : Run.fresh? ⟨.grouped, true⟩ (.once (.numbered 0)) (.ofGrammar repeatedSuffixes) =
      some [.numbered 4, .numbered 5] := by decide +kernel
  have hfully : Run.fresh? ⟨.grouped, true⟩ (.fully (.numbered 0)) (.ofGrammar repeatedSuffixes) =
      some [.numbered 4, .numbered 5, .numbered 6] := by decide +kernel
  have hfour : (Outcome.state (factor ⟨.grouped, false⟩ (.numbered 0)
      (.ofGrammar repeatedSuffixes))).grammar.rightSides (.numbered 4) =
      [[.numbered 2], [.numbered 2], [.numbered 2, .numbered 1], []] := by decide +kernel
  have hfive : (Outcome.state (factor ⟨.grouped, false⟩ (.numbered 0)
      (.ofGrammar repeatedSuffixes))).grammar.rightSides (.numbered 5) =
      [[.numbered 2], [], [.numbered 2]] := by decide +kernel
  obtain ⟨w, hw⟩ := Run.exists_of_fresh? honce
  obtain ⟨w', hw'⟩ := Run.exists_of_fresh? hfully
  have hw : factor ⟨.grouped, true⟩ (.numbered 0) (.ofGrammar repeatedSuffixes) =
      .ok (.ok [.numbered 4, .numbered 5]) w := hw
  have hdifferent := repetitions_removed.2 _ _ _ _ _ hclosed hw' (.numbered 4) (by decide)
  refine ⟨hclosed, ?_, w', hw', hdifferent⟩
  rcases repetitions_removed.1 .grouped (.numbered 0) (.ofGrammar repeatedSuffixes) with
    ⟨r, hr⟩ | ⟨e, w₁, he⟩ | ⟨fresh, w₁, w₂, h₁, h₂, -, hsame⟩
  · cases hw.symm.trans (hr true)
  · cases hw.symm.trans (he true)
  · cases hw.symm.trans h₁
    rw [h₂] at hfour hfive
    have htails := (hsame hclosed).2
    have hfirst := htails (.numbered 4) (by decide)
    have hsecond := htails (.numbered 5) (by decide)
    refine ⟨w, w₂, hw, h₂, hfirst, hfour, ?_⟩
    rw [hsecond]
    exact (congrArg List.eraseDups hfive).trans (by decide +kernel)

end Factoring

end ContextFree
