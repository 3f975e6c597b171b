import ContextFree.Proofs.Closed
import ContextFree.Proofs.Expansion

/-!
# Recovering the alternatives

The alternatives that a symbol had before it was factored are its expansion in the fresh symbols of
the run (`Passes.exists_alike`), in whatever passes these were issued.

`Recoverable` is what a pass preserves of the fresh symbols issued so far. Each of them is used in
one alternative at most, so no later group shares it: it stays the last symbol of the alternative
that it was made for, also when nothing is left of a member after it.
-/

namespace ContextFree

namespace Factoring

/-! ## Members from tails -/

/-- What is left of the members of a group, put after what they share, gives the members back. -/
theorem alike_suffixes {alternatives : List (List Symbol)} {G : Group} (h : G.Of alternatives)
    (dedup : Bool) :
    Alike dedup ((suffixes dedup alternatives G).map (G.shared ++ ·))
      (G.sequences alternatives) := by
  constructor
  · intro rhs
    rw [← h.map_suffixes, List.mem_map, List.mem_map]
    simp only [mem_suffixes h]
  · intro hd
    rw [hd, h.map_suffixes]

/-! ## Symbols that are used once -/

/-- At most one of the sequences has the symbol in it. -/
def UsedOnce (f : Symbol) (seqs : List (List Symbol)) : Prop :=
  seqs.countP (f ∈ ·) ≤ 1

theorem usedOnce_of_not_mem {f : Symbol} {seqs : List (List Symbol)} (h : ∀ seq ∈ seqs, f ∉ seq) :
    UsedOnce f seqs := by
  have hzero : seqs.countP (f ∈ ·) = 0 := by
    rw [List.countP_eq_zero]
    intro seq hseq
    simpa using h seq hseq
  rw [UsedOnce, hzero]
  exact Nat.zero_le 1

namespace Marking

variable {alternatives : List (List Symbol)} {marked : List (Group × Symbol)} {f : Symbol}

/-- A group has no more members of a kind than there are alternatives. -/
theorem countP_sequences_le (h : Marking alternatives marked) {m : Group × Symbol} (hm : m ∈ marked)
    (p : List Symbol → Bool) : (m.1.sequences alternatives).countP p ≤ alternatives.countP p := by
  have hsub : (m.1.sequences alternatives).Sublist
      (marked.flatMap fun m => m.1.sequences alternatives) :=
    List.sublist_flatten_of_mem (List.mem_map_of_mem (f := fun m => m.1.sequences alternatives) hm)
  have hle := hsub.countP_le (p := p)
  have hperm := h.alternatives_perm.countP_eq p
  rw [List.countP_append] at hperm
  omega

/-- A group does not share a symbol that only one alternative uses. -/
theorem not_mem_shared (h : Marking alternatives marked) (hf : UsedOnce f alternatives)
    {m : Group × Symbol} (hm : m ∈ marked) : f ∉ m.1.shared := by
  intro hshared
  have hof := h.of_mem m hm
  -- else every member has the symbol, and there are two members at least
  have hall : (m.1.sequences alternatives).countP (f ∈ ·) =
      (m.1.sequences alternatives).length := by
    rw [List.countP_eq_length]
    intro seq hseq
    exact decide_eq_true ((hof.shared_begins hseq).subset hshared)
  have hle := h.countP_sequences_le hm (f ∈ ·)
  have htwo := hof.two_le
  unfold UsedOnce at hf
  rw [hall, hof.length_sequences] at hle
  omega

theorem countP_heads (h : Marking alternatives marked) (hf : ∀ m ∈ marked, f ∉ m.1.shared) :
    (heads alternatives marked).countP (f ∈ ·) =
      (ungrouped alternatives marked).countP (f ∈ ·) +
        (marked.map (·.2)).count f := by
  rw [h.heads_perm.countP_eq, List.countP_append, List.countP_map, List.count, List.countP_map]
  congr 1
  apply List.countP_congr
  intro m hm
  have hnot := hf m hm
  have hcomm : f = m.2 ↔ m.2 = f := eq_comm
  simp [hnot, hcomm]

theorem countP_ungrouped_le (h : Marking alternatives marked) (p : List Symbol → Bool) :
    (ungrouped alternatives marked).countP p ≤ alternatives.countP p := by
  have hperm := h.alternatives_perm.countP_eq p
  rw [List.countP_append] at hperm
  omega

theorem usedOnce_suffixes (h : Marking alternatives marked) (hf : UsedOnce f alternatives)
    {m : Group × Symbol} (hm : m ∈ marked) (dedup : Bool) :
    UsedOnce f (suffixes dedup alternatives m.1) := by
  have hof := h.of_mem m hm
  have hdedup := (suffixes_subperm hof dedup).countP_le (f ∈ ·)
  have hjoin : (suffixes false alternatives m.1).countP (f ∈ ·) ≤
      (m.1.sequences alternatives).countP (f ∈ ·) := by
    rw [← hof.map_suffixes, List.countP_map]
    apply List.countP_mono_left
    intro rest _ hrest
    have hrest : f ∈ rest := of_decide_eq_true hrest
    exact decide_eq_true (List.mem_append_right _ hrest)
  have hle := h.countP_sequences_le hm (f ∈ ·)
  unfold UsedOnce at hf ⊢
  omega

end Marking

/-! ## What a pass preserves -/

/-- The symbols `F` have been issued, each of them is used in one alternative of a symbol at most,
and a symbol can be expanded in them. -/
structure Recoverable (g : Grammar) (F : List Symbol) : Prop where
  issued : ∀ f ∈ F, g.Issued f
  usedOnce : ∀ f ∈ F, ∀ t, UsedOnce f (g.rightSides t)
  wf : WellFounded (g.Continues F)

/-- No symbol has been issued yet. -/
theorem recoverable_nil (g : Grammar) : Recoverable g [] := by
  refine ⟨by simp, by simp, ⟨fun t => ⟨t, ?_⟩⟩⟩
  rintro f ⟨hf, -⟩
  cases hf

namespace Factored

variable {o : Options} {s t f : Symbol} {fresh F : List Symbol} {g g' : Grammar}

theorem not_mem_rightSides (h : Factored o s fresh g g') (hc : g.Closed) (hf : f ∈ fresh) :
    ∀ rhs ∈ g.rightSides t, f ∉ rhs := by
  intro rhs hrhs hmem
  exact h.not_issued hc hf (hc.issued_of_mem_rightSides hrhs hmem)

theorem usedOnce_heads (h : Factored o s fresh g g') (hc : g.Closed)
    (hold : UsedOnce f (g.rightSides s)) :
    UsedOnce f (heads (g.rightSides s) ((g.groups o.policy s).zip fresh)) := by
  have hcount := h.marking.countP_heads fun m hm => h.marking.not_mem_shared hold hm
  have hle := h.marking.countP_ungrouped_le (f ∈ ·)
  rw [h.map_snd_zip] at hcount
  unfold UsedOnce at hold ⊢
  by_cases hf : f ∈ fresh
  · -- a fresh symbol is in its own head, and it was nowhere before
    have hone := List.nodup_iff_count_le_one.mp (h.fresh_nodup hc) f
    have hzero : (g.rightSides s).countP (f ∈ ·) = 0 := by
      rw [List.countP_eq_zero]
      intro rhs hrhs
      simpa using h.not_mem_rightSides hc hf rhs hrhs
    omega
  · have hzero : fresh.count f = 0 := List.count_eq_zero.mpr hf
    omega

theorem usedOnce (h : Factored o s fresh g g') (hc : g.Closed)
    (hold : ∀ t, UsedOnce f (g.rightSides t)) (t : Symbol) : UsedOnce f (g'.rightSides t) := by
  by_cases ht : t ∈ fresh
  · rcases h.exists_group ht with ⟨m, hm, rfl⟩
    rw [h.rightSides_fresh hc hm]
    exact h.marking.usedOnce_suffixes (hold s) hm o.dedup
  · by_cases hts : t = s
    · rw [hts, h.rightSides_self (h.self_not_mem hc)]
      exact h.usedOnce_heads hc (hold s)
    · rw [h.rightSides_of_ne hts ht]
      exact hold t

/-- A continuation is an old one, or a head continues with a fresh symbol, or a fresh symbol
continues as the symbol that was factored did. -/
theorem of_continues (h : Factored o s fresh g g') (hc : g.Closed)
    (hcont : g'.Continues (F ++ fresh) f t) :
    g.Continues F f t ∨ (f ∈ fresh ∧ t = s) ∨ (t ∈ fresh ∧ g.Continues F f s) := by
  rcases hcont with ⟨hf, rhs, hrhs, hlast⟩
  have hold : ∀ {u : Symbol} {rhs : List Symbol}, rhs ∈ g.rightSides u → rhs.getLast? = some f →
      g.Continues F f u := by
    intro u rhs hrhs hlast
    -- an old alternative does not end with a symbol that is fresh now
    have hnot : f ∉ fresh := fun hfresh =>
      h.not_mem_rightSides hc hfresh rhs hrhs (List.mem_of_getLast? hlast)
    exact ⟨(List.mem_append.mp hf).resolve_right hnot, rhs, hrhs, hlast⟩
  rcases h.old_or_head_or_tail (Grammar.mem_rightSides.mp hrhs) with
    hr | ⟨m, hm, heq | ⟨rest, heq, hjoin⟩⟩
  · exact .inl (hold (Grammar.mem_rightSides.mpr hr) hlast)
  · cases heq
    rw [List.getLast?_concat] at hlast
    cases hlast
    exact .inr (.inl ⟨(List.of_mem_zip hm).2, rfl⟩)
  · cases heq
    refine .inr (.inr ⟨(List.of_mem_zip hm).2, hold (Grammar.mem_rightSides.mpr hjoin) ?_⟩)
    rw [List.getLast?_append, hlast, Option.some_or]

theorem wellFounded_continues (h : Factored o s fresh g g') (hc : g.Closed)
    (hF : Recoverable g F) : WellFounded (g'.Continues (F ++ fresh)) := by
  have hapart : ∀ {f u : Symbol}, g.Continues F f u → f ∉ fresh := fun hcont hfresh =>
    h.not_issued hc hfresh (hF.issued _ hcont.1)
  -- a fresh symbol continues as `s` did, so it is enough that those continuations are accessible
  have hfresh : ∀ {u : Symbol}, u ∈ fresh →
      (∀ f, g.Continues F f s → Acc (g'.Continues (F ++ fresh)) f) →
        Acc (g'.Continues (F ++ fresh)) u := by
    intro u hu hacc
    refine Acc.intro u fun f hcont => ?_
    rcases h.of_continues hc hcont with ⟨-, rhs, hrhs, -⟩ | ⟨-, rfl⟩ | ⟨-, hs⟩
    · rw [hc.rightSides_eq_nil (h.not_issued hc hu)] at hrhs
      cases hrhs
    · exact absurd hu (h.self_not_mem hc)
    · exact hacc f hs
  -- the induction is on the relation before the pass, which leads to `s` through a head and a tail
  have hold : ∀ u, u ∉ fresh → Acc (g'.Continues (F ++ fresh)) u := by
    intro u
    induction u using hF.wf.induction with
    | _ u ih =>
      intro hu
      refine Acc.intro u fun f hcont => ?_
      rcases h.of_continues hc hcont with holds | ⟨hf, rfl⟩ | ⟨hu', -⟩
      · exact ih f holds (hapart holds)
      · exact hfresh hf fun f' hf' => ih f' hf' (hapart hf')
      · exact absurd hu' hu
  refine ⟨fun u => ?_⟩
  by_cases hu : u ∈ fresh
  · exact hfresh hu fun f hf => hold f (hapart hf)
  · exact hold u hu

theorem recoverable (h : Factored o s fresh g g') (hc : g.Closed) (hF : Recoverable g F) :
    Recoverable g' (F ++ fresh) := by
  refine ⟨?_, ?_, h.wellFounded_continues hc hF⟩
  · intro f hf
    rcases List.mem_append.mp hf with hold | hfresh
    · exact h.issued_of hc (hF.issued f hold)
    · exact h.issued_fresh hc hfresh
  · intro f hf
    rcases List.mem_append.mp hf with hold | hfresh
    · exact h.usedOnce hc (hF.usedOnce f hold)
    · exact h.usedOnce hc fun t => usedOnce_of_not_mem (h.not_mem_rightSides hc hfresh)

/-! ## The expansion after a pass -/

/-- What an alternative stands for does not change by the fresh symbols, which it does not use. -/
theorem expandLast_rightSides (h : Factored o s fresh g g') (hc : g.Closed)
    (expand : Symbol → List (List Symbol)) :
    ∀ rhs ∈ g.rightSides t, expandLast (F ++ fresh) expand rhs = expandLast F expand rhs := by
  intro rhs hrhs
  apply expandLast_append_right
  intro a ha hfresh
  exact h.not_mem_rightSides hc hfresh rhs hrhs ha

/-- The head of a group stands for what the members of the group stand for. -/
theorem alike_head (h : Factored o s fresh g g') (hc : g.Closed) (hF : Recoverable g F)
    (wf : WellFounded (g'.Continues (F ++ fresh))) {m : Group × Symbol}
    (hm : m ∈ (g.groups o.policy s).zip fresh) :
    Alike o.dedup (expandLast (F ++ fresh) (g'.expansion (F ++ fresh) wf) (m.1.shared ++ [m.2]))
      ((m.1.sequences (g.rightSides s)).flatMap (expandLast F (g'.expansion (F ++ fresh) wf))) := by
  have hof := h.marking.of_mem m hm
  have hfresh : m.2 ∈ F ++ fresh := List.mem_append_right _ (List.of_mem_zip hm).2
  have hshared : ∀ a ∈ m.1.shared, a ∉ F := by
    intro a ha hmem
    exact h.marking.not_mem_shared (hF.usedOnce a hmem s) hm ha
  have hrest : ∀ rest ∈ suffixes o.dedup (g.rightSides s) m.1,
      (expandLast (F ++ fresh) (g'.expansion (F ++ fresh) wf) rest).map (m.1.shared ++ ·) =
        expandLast F (g'.expansion (F ++ fresh) wf) (m.1.shared ++ rest) := by
    intro rest hrest
    rw [expandLast_append hshared, expandLast_append_right]
    intro a ha hmem
    have hseq := mem_of_mem_sequences ((mem_suffixes hof).mp hrest)
    exact h.not_mem_rightSides hc hmem _ hseq (List.mem_append_right _ ha)
  rw [expandLast_concat hfresh, Grammar.expansion_eq, h.rightSides_fresh hc hm, List.map_flatMap,
    List.flatMap_congr hrest, ← List.flatMap_map]
  exact (alike_suffixes hof o.dedup).flatMap_left _

/-- The expansion after a pass solves the equation of the expansion before it. -/
theorem alike_unfolded (h : Factored o s fresh g g') (hc : g.Closed) (hF : Recoverable g F)
    (wf : WellFounded (g'.Continues (F ++ fresh))) (ht : g.Issued t) :
    Alike o.dedup (g'.expansion (F ++ fresh) wf t)
      ((g.rightSides t).flatMap (expandLast F (g'.expansion (F ++ fresh) wf))) := by
  have hfresh : t ∉ fresh := fun hf => h.not_issued hc hf ht
  rw [Grammar.expansion_eq]
  by_cases hts : t = s
  · -- the heads stand for the ungrouped alternatives and, group by group, for the members
    subst hts
    rw [h.rightSides_self hfresh]
    have hungrouped : ∀ rhs ∈ ungrouped (g.rightSides t) ((g.groups o.policy t).zip fresh),
        Alike o.dedup (expandLast (F ++ fresh) (g'.expansion (F ++ fresh) wf) rhs)
          (expandLast F (g'.expansion (F ++ fresh) wf) rhs) := by
      intro rhs hrhs
      rw [h.expandLast_rightSides hc _ rhs (h.marking.mem_alternatives.mpr (.inl hrhs))]
      exact .refl _
    have hheads := (Alike.flatMap_congr hungrouped).append
      (Alike.flatMap_congr fun m hm => h.alike_head hc hF wf hm)
    have hbefore := h.marking.heads_perm.flatMap_right
      (expandLast (F ++ fresh) (g'.expansion (F ++ fresh) wf))
    have hafter := h.marking.alternatives_perm.flatMap_right
      (expandLast F (g'.expansion (F ++ fresh) wf))
    rw [List.flatMap_append, List.flatMap_map] at hbefore
    rw [List.flatMap_append, List.flatMap_assoc] at hafter
    exact ((Alike.of_perm hbefore).trans hheads).trans (.of_perm hafter.symm)
  · rw [h.rightSides_of_ne hts hfresh, List.flatMap_congr (h.expandLast_rightSides hc _)]
    exact .refl _

end Factored

/-! ## Runs -/

theorem Passes.exists_alike {o : Options} {fresh F : List Symbol} {g g' : Grammar}
    (h : Passes o g fresh g') (hc : g.Closed) (hF : Recoverable g F) :
    ∃ wf : WellFounded (g'.Continues (F ++ fresh)), ∀ t, g.Issued t →
      Alike o.dedup (g'.expansion (F ++ fresh) wf t) (g.expansion F hF.wf t) := by
  induction h generalizing F with
  | nil g =>
    rw [List.append_nil]
    exact ⟨hF.wf, fun t _ => .refl _⟩
  | @cons s g g₁ g' fresh later hpass _ ih =>
    have hF₁ := hpass.recoverable hc hF
    rcases ih (hpass.closed hc) hF₁ with ⟨wf, hlater⟩
    rw [← List.append_assoc]
    refine ⟨wf, fun t ht => (hlater t (hpass.issued_of hc ht)).trans ?_⟩
    exact Grammar.alike_expansion hF.wf hF.issued
      (fun u hu => hpass.alike_unfolded hc hF hF₁.wf hu) ht

/-- The expansion in the fresh symbols of a run gives back the alternatives that each nonterminal
had: as often as they were there or, if equal suffixes were dropped, up to repetition. -/
theorem alternatives_recovered {o : Options} {run : Run} {fresh : List Symbol} {w w' : Workspace}
    (hc : w.grammar.Closed) (hrun : run.perform o w = .ok (.ok fresh) w') :
    ∃ wf : WellFounded (w'.grammar.Continues fresh), ∀ s ∈ w.grammar.nonterminals,
      Alike o.dedup (w'.grammar.expansion fresh wf s) (w.grammar.rightSides s) := by
  have hexpand := (passes_of_run hrun).exists_alike hc (recoverable_nil w.grammar)
  rw [List.nil_append] at hexpand
  rcases hexpand with ⟨wf, halike⟩
  refine ⟨wf, fun s hs => ?_⟩
  have hs := halike s (hc.issued_of_isNonterminal (Grammar.mem_nonterminals.mp hs))
  rwa [Grammar.expansion_nil] at hs

/-- A grammar with an alternative that is there twice, and one that is the beginning of others. -/
def repeated : Grammar :=
  .unnamed 3
    [⟨.numbered 0, [.numbered 1, .numbered 1, .numbered 2]⟩,
     ⟨.numbered 0, [.numbered 1, .numbered 2]⟩,
     ⟨.numbered 0, [.numbered 1, .numbered 1, .numbered 2]⟩,
     ⟨.numbered 0, [.numbered 1, .numbered 1]⟩]

/-- The alternative that is there twice takes a third fresh symbol if equal suffixes are kept. -/
theorem alternatives_recovered_repeated :
    (∃ w' wf, Run.all.perform ⟨.grouped, false⟩ (.ofGrammar repeated) =
        .ok (.ok [.numbered 3, .numbered 4, .numbered 5]) w' ∧
      (w'.grammar.expansion [.numbered 3, .numbered 4, .numbered 5] wf (.numbered 0)).Perm
        (repeated.rightSides (.numbered 0))) ∧
    ∃ w' wf, Run.all.perform ⟨.grouped, true⟩ (.ofGrammar repeated) =
        .ok (.ok [.numbered 3, .numbered 4]) w' ∧
      ∀ rhs, rhs ∈ w'.grammar.expansion [.numbered 3, .numbered 4] wf (.numbered 0) ↔
        rhs ∈ repeated.rightSides (.numbered 0) := by
  have hclosed : repeated.Closed := by decide +kernel
  have hzero : Symbol.numbered 0 ∈ repeated.nonterminals := by decide +kernel
  constructor
  · have hfresh : Run.fresh? ⟨.grouped, false⟩ .all (.ofGrammar repeated) =
        some [.numbered 3, .numbered 4, .numbered 5] := by decide +kernel
    rcases Run.exists_of_fresh? hfresh with ⟨w', hrun⟩
    rcases alternatives_recovered hclosed hrun with ⟨wf, halike⟩
    exact ⟨w', wf, hrun, (halike _ hzero).perm rfl⟩
  · have hfresh : Run.fresh? ⟨.grouped, true⟩ .all (.ofGrammar repeated) =
        some [.numbered 3, .numbered 4] := by decide +kernel
    rcases Run.exists_of_fresh? hfresh with ⟨w', hrun⟩
    rcases alternatives_recovered hclosed hrun with ⟨wf, halike⟩
    exact ⟨w', wf, hrun, (halike _ hzero).mem_iff⟩

end Factoring

end ContextFree
