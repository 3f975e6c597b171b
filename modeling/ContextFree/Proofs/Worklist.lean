import ContextFree.Proofs.Invariant
import ContextFree.Proofs.NameTable

/-!
# The loop of a fixed point

A turn of the loop takes the first symbol off the queue. It is factored, and its fresh symbols join
the queue at the end, or it is passed over (`Turn`). Whatever symbols the rules use, and however
many have been issued before, the turns come to an empty queue, or to one whose first symbol finds
no symbol left for its groups (`turns_of_drains`, `exists_turns_of_drain_error`).

The symbols that have been taken and those that wait are the symbols of the first queue and all that
have been issued since, in this order (`Turns.taken_append_queue`), so none is taken twice, and at
the end each has been taken.
-/

namespace ContextFree

namespace Factoring

variable {o : Options}

/-! ## Running out of symbols -/

theorem of_introduce_error {base : Symbol} {e : OutOfSymbols} {w w' : Workspace}
    (h : introduce base w = .error e w') : w' = w ∧ w.room = 0 := by
  simp only [introduce, Action.bind_eq_error_iff, Action.get_apply, Action.modify_apply,
    Action.pure_apply, onVocabulary_eq, reduceCtorEq, and_false, exists_false, or_false,
    false_or] at h
  obtain ⟨_, _, ⟨rfl, rfl⟩, h⟩ := h
  split at h
  · cases h
  next e' v hissue =>
    cases h
    obtain ⟨hroom, rfl⟩ := Vocabulary.issue_eq_error_iff.mp hissue
    exact ⟨rfl, hroom⟩

theorem of_separate_error {s : Symbol} {G : Group} {e : OutOfSymbols} {w w' : Workspace}
    (h : separate s G w = .error e w') : w' = w ∧ w.room = 0 := by
  simp only [separate, Action.bind_eq_error_iff, Action.modify_apply, Action.pure_apply,
    reduceCtorEq, and_false, exists_false, or_false] at h
  exact of_introduce_error h

/-- When the symbols run out, not every group has been given one, and the rules are as before. -/
theorem of_mapM_separate_error {s : Symbol} {Gs : List Group} {e : OutOfSymbols}
    {w w' : Workspace} (h : Gs.mapM (separate s) w = .error e w') :
    w'.room = 0 ∧ w'.grammar.rules = w.grammar.rules ∧
      w'.vocabulary.size < w.vocabulary.size + Gs.length := by
  induction Gs generalizing w with
  | nil => cases h
  | cons G Gs ih =>
    simp only [List.mapM_cons, Action.bind_eq_error_iff, Action.pure_apply, reduceCtorEq,
      and_false, exists_false, or_false] at h
    rw [List.length_cons]
    rcases h with hfirst | ⟨fresh, w₁, hsep, hrest⟩
    · obtain ⟨rfl, hroom⟩ := of_separate_error hfirst
      exact ⟨hroom, rfl, by omega⟩
    · obtain ⟨hissue, hrules⟩ := of_separate hsep
      obtain ⟨hroom, hrules', hlt⟩ := ih hrest
      rw [Vocabulary.size_of_issue hissue] at hlt
      exact ⟨hroom, hrules'.trans hrules, by omega⟩

/-- A pass runs out of symbols only if none is left, and then the rules are as before. -/
theorem of_factor_error {s : Symbol} {e : OutOfSymbols} {w w' : Workspace}
    (h : factor o s w = .error e w') :
    w.grammar.groups o.policy s ≠ [] ∧ w'.room = 0 ∧ w'.grammar.rules = w.grammar.rules ∧
      w'.vocabulary.size < w.vocabulary.size + (w.grammar.groups o.policy s).length := by
  rw [factor_apply] at h
  split at h
  · cases h
  · split at h
    · cases h
    next hgroups =>
      split at h
      · cases h
      next hf =>
        cases h
        rw [factorGroups_eq o.dedup s (w.grammar.grouping o.policy s)] at hf
        simp only [Action.bind_eq_error_iff, Action.modify_apply, Action.pure_apply, reduceCtorEq,
          and_false, exists_false, or_false] at hf
        exact ⟨by simpa using hgroups, of_mapM_separate_error hf⟩

/-! ## Turns -/

/-- Where the loop of a fixed point is. -/
structure Loop where
  queue : List Symbol
  workspace : Workspace

/-- A turn of the loop takes a symbol off the queue. -/
inductive Turn (o : Options) : Loop → Symbol → Loop → Prop
  | factored {s : Symbol} {rest fresh : List Symbol} {w w₁ : Workspace} :
      factor o s (w.revisit s) = .ok (.ok fresh) w₁ → Turn o ⟨s :: rest, w⟩ s ⟨rest ++ fresh, w₁⟩
  | passedOver {s : Symbol} {rest : List Symbol} {w : Workspace} :
      factor o s (w.revisit s) = .ok (.error (.nothingToFactor s)) (w.revisit s) →
      Turn o ⟨s :: rest, w⟩ s ⟨rest, w.revisit s⟩

/-- Turns one after the other, with the symbols that they take. -/
inductive Turns (o : Options) : Loop → List Symbol → Loop → Prop
  | nil (c : Loop) : Turns o c [] c
  | cons {c c₁ c' : Loop} {s : Symbol} {taken : List Symbol} :
      Turn o c s c₁ → Turns o c₁ taken c' → Turns o c (s :: taken) c'

/-- A turn takes the first symbol, and what it issues joins the queue. -/
theorem Turn.cons_queue {c c' : Loop} {s : Symbol} (h : Turn o c s c') :
    ∃ fresh, Passes o c.workspace.grammar fresh c'.workspace.grammar ∧
      s :: c'.queue = c.queue ++ fresh := by
  cases h with
  | @factored s rest fresh w w₁ hfactor =>
    have hpass := factored_of_factor hfactor
    exact ⟨fresh, .single hpass, (List.cons_append ..).symm⟩
  | passedOver _ => exact ⟨[], .nil _, (List.append_nil _).symm⟩

/-- What has been taken and what waits are the first queue and all that has been issued since. -/
theorem Turns.taken_append_queue {c c' : Loop} {taken : List Symbol} (h : Turns o c taken c') :
    ∃ issued, Passes o c.workspace.grammar issued c'.workspace.grammar ∧
      taken ++ c'.queue = c.queue ++ issued := by
  induction h with
  | nil c => exact ⟨[], .nil _, by rw [List.nil_append, List.append_nil]⟩
  | @cons c c₁ c' s taken hturn _ ih =>
    obtain ⟨fresh, hpass, hfirst⟩ := hturn.cons_queue
    obtain ⟨issued, hpasses, hrest⟩ := ih
    refine ⟨fresh ++ issued, hpass.append hpasses, ?_⟩
    rw [List.cons_append, hrest, ← List.cons_append, hfirst, List.append_assoc]

/-- A queue that is drained is taken symbol by symbol until it is empty. -/
theorem turns_of_drains {queue later : List Symbol} {w w' : Workspace}
    (h : Drains o queue w later w') : Turns o ⟨queue, w⟩ (queue ++ later) ⟨[], w'⟩ := by
  induction h with
  | done w => exact .nil _
  | factored hfactor _ ih =>
    rw [List.cons_append, ← List.append_assoc]
    exact .cons (.factored hfactor) ih
  | passedOver hrefused _ ih => exact .cons (.passedOver hrefused) ih

/-- If the symbols run out, they do so for the first symbol of the queue of some turn. -/
theorem exists_turns_of_drain_error {queue : List Symbol} {e : OutOfSymbols} {w w' : Workspace}
    (h : drain o queue w = .error e w') :
    ∃ taken s rest w₁, Turns o ⟨queue, w⟩ taken ⟨s :: rest, w₁⟩ ∧
      factor o s (w₁.revisit s) = .error e w' := by
  fun_induction drain o queue w with
  | case1 => cases h
  | case2 => cases h
  | case3 w s rest fresh w₁ hfactor _ e' w₂ hdrain ih =>
    cases h
    obtain ⟨taken, t, later, w₃, hturns, herror⟩ := ih hdrain
    exact ⟨s :: taken, t, later, w₃, .cons (.factored hfactor) hturns, herror⟩
  | case4 w s rest t hfactor ih =>
    obtain ⟨rfl, -⟩ := factor_eq_nothingToFactor_iff.mp hfactor
    obtain ⟨taken, u, later, w₃, hturns, herror⟩ := ih h
    exact ⟨_ :: taken, u, later, w₃, .cons (.passedOver hfactor) hturns, herror⟩
  | case5 => cases h
  | case6 w s rest e' w₁ hfactor =>
    cases h
    exact ⟨[], s, rest, w, .nil _, hfactor⟩

/-! ## Fixed points -/

/-- A fixed point fails as its first pass does, or as its loop does. -/
theorem of_factorFully_error {s : Symbol} {e : OutOfSymbols} {w w' : Workspace}
    (h : factorFully o s w = .error e w') :
    factor o s w = .error e w' ∨
      ∃ first w₁, factor o s w = .ok (.ok first) w₁ ∧ drain o first w₁ = .error e w' := by
  rw [factorFully_apply] at h
  split at h
  · cases h
  next first w₁ hfactor =>
    split at h
    · cases h
    next hdrain =>
      cases h
      exact .inr ⟨first, w₁, hfactor, hdrain⟩
  next hfactor =>
    cases h
    exact .inl hfactor

/-- No symbol is in the loop of a fixed point twice. -/
theorem nodup_of_turns {s : Symbol} {first taken : List Symbol} {w w₁ : Workspace} {c : Loop}
    (h : factor o s w = .ok (.ok first) w₁) (hturns : Turns o ⟨first, w₁⟩ taken c) :
    (taken ++ c.queue).Nodup := by
  obtain ⟨issued, hpasses, heq⟩ := hturns.taken_append_queue
  rw [heq]
  have hpass := factored_of_factor h
  exact (Passes.cons hpass hpasses).extends.grows.nodup

end Factoring

end ContextFree
