import ContextFree.Proofs.Run

/-!
# The fixed point of factoring

Under the grouped policy factoring goes on until the alternatives of a symbol begin apart
(`BeginApart`). The queue of a fixed point holds every symbol of the run whose alternatives may yet
begin alike: a pass changes the alternatives of the symbol it factors, which begin apart afterwards,
and those of its fresh symbols, which join the queue. This also covers a fresh symbol that the rules
had used before it was issued, even if it is the symbol that is being factored.

Once the alternatives of every symbol begin apart, nothing is left to factor under any policy
(`nothingToFactor_of_beginApart`).
-/

namespace ContextFree

namespace Factoring

theorem beginApart_nil : BeginApart [] := by
  intro i j a hi
  simp at hi

/-! ## One pass -/

/-- After a pass the alternatives of the symbol that was factored begin apart, and nothing changes
for the symbols that are not fresh. -/
theorem beginApart_of_factored {dedup : Bool} {s t : Symbol} {fresh : List Symbol} {g g' : Grammar}
    (h : Factored ⟨.grouped, dedup⟩ s fresh g g') (hfresh : t ∉ fresh)
    (ht : t = s ∨ BeginApart (g.rightSides t)) : BeginApart (g'.rightSides t) := by
  by_cases hts : t = s
  · subst hts
    rw [h.rightSides_self hfresh]
    exact beginApart_heads h.length_fresh
  · rw [h.rightSides_of_ne hts hfresh]
    exact ht.resolve_left hts

/-- A pass is refused only if the alternatives begin apart. -/
theorem beginApart_of_refused {dedup : Bool} {s : Symbol} {r : Refusal} {w w' : Workspace}
    (h : factor ⟨.grouped, dedup⟩ s w = .ok (.error r) w') :
    BeginApart (w.grammar.rightSides s) := by
  cases r with
  | notNonterminal t =>
    rcases factor_eq_notNonterminal_iff.mp h with ⟨-, -, hnt⟩
    have hnil : w.grammar.rightSides s = [] := by
      rw [Grammar.rightSides_eq_nil_iff, hnt]
      exact Bool.false_ne_true
    rw [hnil]
    exact beginApart_nil
  | nothingToFactor t =>
    rcases factor_eq_nothingToFactor_iff.mp h with ⟨-, -, -, hgroups⟩
    exact groupsByFirst_eq_nil_iff.mp hgroups

/-! ## A whole run -/

/-- When the queue is empty, the alternatives of every symbol that was in it, or was introduced on
the way, begin apart, and so do those that did before. -/
theorem beginApart_of_drains {dedup : Bool} {t : Symbol} {queue later : List Symbol}
    {w w' : Workspace} (h : Drains ⟨.grouped, dedup⟩ queue w later w')
    (ht : t ∈ queue ∨ t ∈ later ∨ BeginApart (w.grammar.rightSides t)) :
    BeginApart (w'.grammar.rightSides t) := by
  -- each symbol is still queued, still to come, or in order already, and stays so with each step
  induction h with
  | done w =>
    rcases ht with ht | ht | ht
    · cases ht
    · cases ht
    · exact ht
  | @factored s rest fresh later w w₁ w' hfactor _ ih =>
    have hpass := factored_of_factor hfactor
    by_cases hfresh : t ∈ fresh
    · -- a fresh symbol may have gained alternatives, but it is in the queue now
      exact ih (.inl (List.mem_append_right _ hfresh))
    · rcases ht with ht | ht | ht
      · rcases List.mem_cons.mp ht with hts | hrest
        · exact ih (.inr (.inr (beginApart_of_factored hpass hfresh (.inl hts))))
        · exact ih (.inl (List.mem_append_left _ hrest))
      · rcases List.mem_append.mp ht with hin | hlater
        · exact absurd hin hfresh
        · exact ih (.inr (.inl hlater))
      · exact ih (.inr (.inr (beginApart_of_factored hpass hfresh (.inr ht))))
  | passedOver hfactor _ ih =>
    rcases ht with ht | ht | ht
    · rcases List.mem_cons.mp ht with hts | hrest
      · subst hts
        exact ih (.inr (.inr (beginApart_of_refused hfactor)))
      · exact ih (.inl hrest)
    · exact ih (.inr (.inl ht))
    · exact ih (.inr (.inr ht))

theorem beginApart_of_factorFully {dedup : Bool} {s t : Symbol} {fresh : List Symbol}
    {w w' : Workspace} (h : factorFully ⟨.grouped, dedup⟩ s w = .ok (.ok fresh) w')
    (ht : t = s ∨ t ∈ fresh ∨ BeginApart (w.grammar.rightSides t)) :
    BeginApart (w'.grammar.rightSides t) := by
  rcases of_factorFully h with ⟨first, w₁, later, hfactor, hdrains, rfl⟩
  have hpass := factored_of_factor hfactor
  apply beginApart_of_drains hdrains
  -- the symbols of the first pass start the queue
  by_cases hfirst : t ∈ first
  · exact .inl hfirst
  · rcases ht with ht | ht | ht
    · exact .inr (.inr (beginApart_of_factored hpass hfirst (.inl ht)))
    · exact .inr (.inl ((List.mem_append.mp ht).resolve_left hfirst))
    · exact .inr (.inr (beginApart_of_factored hpass hfirst (.inr ht)))

/-- Once the alternatives of a symbol begin apart, they do so for the rest of a walk over symbols.
-/
theorem beginApart_of_factorEach {dedup : Bool} {t : Symbol} {symbols fresh : List Symbol}
    {w w' : Workspace} (h : factorEach ⟨.grouped, dedup⟩ symbols w = .ok fresh w')
    (ht : t ∈ symbols ∨ BeginApart (w.grammar.rightSides t)) :
    BeginApart (w'.grammar.rightSides t) := by
  induction symbols generalizing fresh w with
  | nil =>
    cases h
    exact ht.resolve_left (List.not_mem_nil)
  | cons s rest ih =>
    rcases of_factorEach_cons h with ⟨answer, w₁, later, hfully, heach, -⟩
    apply ih heach
    cases answer with
    | ok first =>
      rcases ht with ht | ht
      · rcases List.mem_cons.mp ht with hts | hrest
        · exact .inr (beginApart_of_factorFully hfully (.inl hts))
        · exact .inl hrest
      · exact .inr (beginApart_of_factorFully hfully (.inr (.inr ht)))
    | error r =>
      -- a symbol that is refused is passed over because it is in order already
      have hrefused := factorFully_refused_iff.mp hfully
      cases eq_of_factor_refused hrefused
      rcases ht with ht | ht
      · rcases List.mem_cons.mp ht with hts | hrest
        · subst hts
          exact .inr (beginApart_of_refused hrefused)
        · exact .inl hrest
      · exact .inr ht

/-- A symbol that is no nonterminal at the start has no alternatives then, so the walk over the
nonterminals of the start is enough. -/
theorem beginApart_of_factorAll {dedup : Bool} {fresh : List Symbol} {w w' : Workspace}
    (h : factorAll ⟨.grouped, dedup⟩ w = .ok fresh w') (t : Symbol) :
    BeginApart (w'.grammar.rightSides t) := by
  apply beginApart_of_factorEach h
  by_cases ht : t ∈ w.grammar.nonterminals
  · exact .inl ht
  · right
    rw [Grammar.mem_nonterminals, ← Grammar.rightSides_eq_nil_iff] at ht
    rw [ht]
    exact beginApart_nil

/-! ## Nothing left to factor -/

theorem nothingToFactor_of_beginApart {t : Symbol} {w : Workspace}
    (hnt : w.grammar.isNonterminal t = true) (h : BeginApart (w.grammar.rightSides t))
    (o : Options) : factor o t w = .ok (.error (.nothingToFactor t)) w :=
  factor_eq_nothingToFactor_iff.mpr ⟨rfl, rfl, hnt, groups_eq_nil_of_beginApart h o.policy⟩

theorem factorEach_of_refused {o : Options} {symbols : List Symbol} {w : Workspace}
    (h : ∀ s ∈ symbols, ∃ r, factor o s w = .ok (.error r) w) :
    factorEach o symbols w = .ok [] w := by
  induction symbols with
  | nil => rfl
  | cons s rest ih =>
    rcases h s (List.mem_cons_self ..) with ⟨r, hr⟩
    have hfully := factorFully_refused_iff.mpr hr
    have hrest := ih fun t ht => h t (List.mem_cons_of_mem s ht)
    rw [factorEach, Action.bind_apply, hfully]
    dsimp only
    rw [Action.bind_apply, hrest]
    rfl

/-- After a fixed point of `s` the alternatives of `s` and of all fresh symbols begin apart, and
after factoring a whole grammar those of every nonterminal do. Nothing is left to factor for them
then, and factoring the whole grammar again changes nothing. -/
theorem fixed_point_reached (dedup : Bool) (w w' : Workspace) (fresh : List Symbol) :
    (∀ s, factorFully ⟨.grouped, dedup⟩ s w = .ok (.ok fresh) w' →
      ∀ t ∈ s :: fresh, BeginApart (w'.grammar.rightSides t) ∧
        ∀ o, factor o t w' = .ok (.error (.nothingToFactor t)) w') ∧
    (factorAll ⟨.grouped, dedup⟩ w = .ok fresh w' →
      (∀ t ∈ w'.grammar.nonterminals, BeginApart (w'.grammar.rightSides t) ∧
        ∀ o, factor o t w' = .ok (.error (.nothingToFactor t)) w') ∧
      (∀ t, t ∉ w'.grammar.nonterminals →
        ∀ o, factor o t w' = .ok (.error (.notNonterminal t)) w') ∧
      ∀ o, factorAll o w' = .ok [] w') := by
  constructor
  · intro s h t ht
    have hpasses := passes_of_factorFully h
    rcases of_factorFully h with ⟨first, w₁, later, hfactor, -, -⟩
    have hnt : w'.grammar.isNonterminal t = true := by
      rcases List.mem_cons.mp ht with rfl | hfresh
      · exact hpasses.isNonterminal_of (factored_of_factor hfactor).isNonterminal
      · exact hpasses.isNonterminal_fresh hfresh
    have hapart : BeginApart (w'.grammar.rightSides t) := by
      apply beginApart_of_factorFully h
      rcases List.mem_cons.mp ht with hts | hfresh
      · exact .inl hts
      · exact .inr (.inl hfresh)
    exact ⟨hapart, nothingToFactor_of_beginApart hnt hapart⟩
  · intro h
    have hapart := beginApart_of_factorAll h
    have hnothing : ∀ t ∈ w'.grammar.nonterminals, ∀ o,
        factor o t w' = .ok (.error (.nothingToFactor t)) w' := fun t ht =>
      nothingToFactor_of_beginApart (Grammar.mem_nonterminals.mp ht) (hapart t)
    refine ⟨fun t ht => ⟨hapart t, hnothing t ht⟩, ?_, ?_⟩
    · intro t ht o
      rw [factor_eq_notNonterminal_iff]
      refine ⟨rfl, rfl, ?_⟩
      rw [← Bool.not_eq_true]
      exact fun hnt => ht (Grammar.mem_nonterminals.mpr hnt)
    · intro o
      rw [factorAll_apply]
      exact factorEach_of_refused fun t ht => ⟨_, hnothing t ht o⟩

/-- A grammar whose vocabulary has issued none of the symbols that its rules use, so that they are
issued as fresh ones while they are factored. -/
def reissued : Grammar :=
  .unnamed 0
    [⟨.numbered 0, [.numbered 1, .numbered 1, .numbered 2]⟩,
     ⟨.numbered 0, [.numbered 1, .numbered 1, .numbered 1]⟩,
     ⟨.numbered 0, [.numbered 2]⟩]

/-- The first fresh symbol is the one that is being factored. -/
theorem fixed_point_reached_reissued :
    (∃ fresh w',
      factorFully ⟨.grouped, true⟩ (.numbered 0) (.ofGrammar reissued) = .ok (.ok fresh) w' ∧
      fresh.map (·.id) = [0, 1, 2] ∧
      ∀ t ∈ Symbol.numbered 0 :: fresh, BeginApart (w'.grammar.rightSides t) ∧
        ∀ o, factor o t w' = .ok (.error (.nothingToFactor t)) w') ∧
    ∃ fresh w', factorAll ⟨.grouped, false⟩ (.ofGrammar reissued) = .ok fresh w' ∧
      fresh.map (·.id) = [0, 1, 2] ∧
      (∀ t ∈ w'.grammar.nonterminals, BeginApart (w'.grammar.rightSides t) ∧
        ∀ o, factor o t w' = .ok (.error (.nothingToFactor t)) w') ∧
      (∀ t, t ∉ w'.grammar.nonterminals →
        ∀ o, factor o t w' = .ok (.error (.notNonterminal t)) w') ∧
      ∀ o, factorAll o w' = .ok [] w' := by
  constructor
  · have hfresh : Run.fresh? ⟨.grouped, true⟩ (.fully (.numbered 0)) (.ofGrammar reissued) =
        some [.numbered 0, .numbered 1, .numbered 2] := by decide +kernel
    rcases Run.exists_of_fresh? hfresh with ⟨w', hw'⟩
    exact ⟨_, w', hw', rfl, (fixed_point_reached true _ w' _).1 _ hw'⟩
  · have hfresh : Run.fresh? ⟨.grouped, false⟩ .all (.ofGrammar reissued) =
        some [.numbered 0, .numbered 1, .numbered 2] := by decide +kernel
    rcases Run.exists_of_fresh? hfresh with ⟨w', hw'⟩
    rcases perform_all_eq_ok_iff.mp hw' with ⟨fresh, heq, hall⟩
    cases heq
    exact ⟨_, w', hall, rfl, (fixed_point_reached false _ w' _).2 hall⟩

end Factoring

end ContextFree
