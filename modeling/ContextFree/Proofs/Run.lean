import ContextFree.Factoring.FixedPoint
import ContextFree.Proofs.Pass

/-!
# Runs of factoring

Every run of factoring that ends well is a sequence of passes, and what it answers is the fresh
symbols of these passes in the order in which they were issued (`passes_of_run`). So what a pass
preserves, a run preserves, by induction on `Passes`.

The queue of a fixed point never meets a symbol without a rule, since no pass takes the last rule
of a symbol away. A run is therefore refused only before its first pass, and then nothing has
changed (`eq_of_run_refused`).
-/

namespace ContextFree

namespace Factoring

/-- Successful passes under `o`, one after the other, lead from one grammar to another. The list
holds their fresh symbols. -/
inductive Passes (o : Options) : Grammar → List Symbol → Grammar → Prop
  | nil (g : Grammar) : Passes o g [] g
  | cons {s : Symbol} {g g₁ g' : Grammar} {fresh later : List Symbol} :
      Factored o s fresh g g₁ → Passes o g₁ later g' → Passes o g (fresh ++ later) g'

theorem Passes.single {o : Options} {s : Symbol} {g g' : Grammar} {fresh : List Symbol}
    (h : Factored o s fresh g g') : Passes o g fresh g' := by
  have hpasses := Passes.cons h (.nil g')
  rwa [List.append_nil] at hpasses

theorem Passes.append {o : Options} {g g₁ g' : Grammar} {fresh later : List Symbol}
    (h : Passes o g fresh g₁) (h' : Passes o g₁ later g') : Passes o g (fresh ++ later) g' := by
  induction h with
  | nil => exact h'
  | cons hpass _ ih =>
    rw [List.append_assoc]
    exact .cons hpass (ih h')

namespace Passes

variable {o : Options} {g g' : Grammar} {fresh : List Symbol} {t : Symbol}

theorem isNonterminal_of (h : Passes o g fresh g') (ht : g.isNonterminal t = true) :
    g'.isNonterminal t = true := by
  induction h with
  | nil => exact ht
  | cons hpass _ ih => exact ih (hpass.isNonterminal_of ht)

theorem isNonterminal_fresh (h : Passes o g fresh g') (ht : t ∈ fresh) :
    g'.isNonterminal t = true := by
  induction h with
  | nil => cases ht
  | cons hpass hlater ih =>
    rcases List.mem_append.mp ht with hfirst | hrest
    · exact hlater.isNonterminal_of (hpass.isNonterminal_fresh hfirst)
    · exact ih hrest

end Passes

/-! ## The queue of a fixed point -/

/-- The workspace once a symbol of the queue has been reported as looked at. -/
def Workspace.revisit (w : Workspace) (s : Symbol) : Workspace :=
  w.report (.revisited (w.vocabulary.displayName s))

/-- A queue is drained: each symbol in turn is factored, and its fresh symbols join the queue, or it
is passed over because there is nothing to factor. The last list holds all fresh symbols. -/
inductive Drains (o : Options) : List Symbol → Workspace → List Symbol → Workspace → Prop
  | done (w : Workspace) : Drains o [] w [] w
  | factored {s : Symbol} {rest fresh later : List Symbol} {w w₁ w' : Workspace} :
      factor o s (w.revisit s) = .ok (.ok fresh) w₁ →
      Drains o (rest ++ fresh) w₁ later w' → Drains o (s :: rest) w (fresh ++ later) w'
  | passedOver {s : Symbol} {rest later : List Symbol} {w w' : Workspace} :
      factor o s (w.revisit s) = .ok (.error (.nothingToFactor s)) (w.revisit s) →
      Drains o rest (w.revisit s) later w' → Drains o (s :: rest) w later w'

/-- A queue of nonterminals is drained without a refusal. -/
theorem drain_ne_refused {o : Options} {queue : List Symbol} {w : Workspace}
    (hq : ∀ s ∈ queue, w.grammar.isNonterminal s = true) (r : Refusal) (w' : Workspace) :
    drain o queue w ≠ .ok (.error r) w' := by
  fun_induction drain o queue w with
  | case1 w => exact fun h => nomatch h
  | case2 w s rest fresh w₁ hfactor _ later w₂ hdrain ih =>
    have hpass := factored_of_factor hfactor
    -- no symbol loses its last rule in the pass, so the longer queue is one of nonterminals too
    have hq' : ∀ t ∈ rest ++ fresh, w₁.grammar.isNonterminal t = true := by
      intro t ht
      rcases List.mem_append.mp ht with hrest | hfresh
      · exact hpass.isNonterminal_of (hq t (List.mem_cons_of_mem s hrest))
      · exact hpass.isNonterminal_fresh hfresh
    intro h
    cases later with
    | error r' =>
      -- the refusal would have to come from the longer queue
      cases h
      exact ih hq' hdrain
    | ok later => cases h
  | case3 => exact fun h => nomatch h
  | case4 w s rest t _ ih => exact ih fun u hu => hq u (List.mem_cons_of_mem s hu)
  | case5 w s rest r' w₁ hother hfactor =>
    -- the one refusal that ends a run is that of a symbol without a rule
    cases r' with
    | notNonterminal t =>
      rcases factor_eq_notNonterminal_iff.mp hfactor with ⟨-, -, hnt⟩
      have hs := hq s (List.mem_cons_self ..)
      exact absurd (hs.symm.trans hnt) (by decide)
    | nothingToFactor t => exact absurd rfl (hother t)
  | case6 => exact fun h => nomatch h

theorem drains_of_drain {o : Options} {queue later : List Symbol} {w w' : Workspace}
    (h : drain o queue w = .ok (.ok later) w') : Drains o queue w later w' := by
  fun_induction drain o queue w generalizing later with
  | case1 =>
    cases h
    exact .done _
  | case2 w s rest fresh w₁ hfactor _ later' w₂ hdrain ih =>
    cases later' with
    | error r => cases h
    | ok later' =>
      cases h
      exact .factored hfactor (ih hdrain)
  | case3 => cases h
  | case4 w s rest t hfactor ih =>
    rcases factor_eq_nothingToFactor_iff.mp hfactor with ⟨rfl, -⟩
    exact .passedOver hfactor (ih h)
  | case5 => cases h
  | case6 => cases h

/-- A queue is drained in the one way in which it can be. -/
theorem drain_of_drains {o : Options} {queue later : List Symbol} {w w' : Workspace}
    (h : Drains o queue w later w') : drain o queue w = .ok (.ok later) w' := by
  induction h with
  | done w => rw [drain]
  | @factored s rest fresh later w w₁ w' hfactor _ ih =>
    rw [drain]
    split
    next hfactor' =>
      cases hfactor.symm.trans hfactor'
      rw [ih]
      rfl
    next hfactor' => cases hfactor.symm.trans hfactor'
    next hfactor' => cases hfactor.symm.trans hfactor'
    next hfactor' => cases hfactor.symm.trans hfactor'
  | @passedOver s rest later w w' hfactor _ ih =>
    rw [drain]
    split
    next hfactor' => cases hfactor.symm.trans hfactor'
    next hfactor' =>
      cases hfactor.symm.trans hfactor'
      exact ih
    next hother hfactor' =>
      cases hfactor.symm.trans hfactor'
      exact absurd rfl (hother s)
    next hfactor' => cases hfactor.symm.trans hfactor'

theorem passes_of_drains {o : Options} {queue later : List Symbol} {w w' : Workspace}
    (h : Drains o queue w later w') : Passes o w.grammar later w'.grammar := by
  induction h with
  | done w => exact .nil w.grammar
  | factored hfactor _ ih =>
    have hpass := factored_of_factor hfactor
    exact .cons hpass ih
  | passedOver _ _ ih => exact ih

/-! ## Fixed points -/

theorem factorFully_apply (o : Options) (s : Symbol) (w : Workspace) :
    factorFully o s w =
      match factor o s w with
      | .ok (.error r) w' => .ok (.error r) w'
      | .ok (.ok first) w₁ =>
        match drain o first w₁ with
        | .ok later w' => .ok (later.map (first ++ ·)) w'
        | .error e w' => .error e w'
      | .error e w' => .error e w' := by
  rw [factorFully, Action.bind_apply]
  cases factor o s w with
  | ok answer w₁ =>
    cases answer with
    | error r => rfl
    | ok first =>
      have hbind := Action.bind_apply
        (drain o first : Action Workspace (Except Refusal (List Symbol)))
        (fun later => pure (later.map (first ++ ·))) w₁
      refine hbind.trans ?_
      dsimp only
      cases drain o first w₁ <;> rfl
  | error e w' => rfl

/-- The queue of a fixed point is made of nonterminals. -/
theorem drain_fresh_ne_refused {o : Options} {s : Symbol} {fresh : List Symbol} {w w₁ : Workspace}
    (h : factor o s w = .ok (.ok fresh) w₁) (r : Refusal) (w' : Workspace) :
    drain o fresh w₁ ≠ .ok (.error r) w' :=
  drain_ne_refused (fun _ ht => (factored_of_factor h).isNonterminal_fresh ht) r w'

/-- A fixed point is refused just as its first pass is. -/
theorem factorFully_refused_iff {o : Options} {s : Symbol} {w w' : Workspace} {r : Refusal} :
    factorFully o s w = .ok (.error r) w' ↔ factor o s w = .ok (.error r) w' := by
  rw [factorFully_apply]
  constructor
  · intro h
    split at h
    next hfactor =>
      cases h
      exact hfactor
    next first w₁ hfactor =>
      split at h
      next later w₂ hdrain =>
        cases later with
        | error r' =>
          exact absurd hdrain (drain_fresh_ne_refused hfactor r' w₂)
        | ok later => cases h
      · cases h
    · cases h
  · intro h
    rw [h]

theorem of_factorFully {o : Options} {s : Symbol} {fresh : List Symbol} {w w' : Workspace}
    (h : factorFully o s w = .ok (.ok fresh) w') :
    ∃ first w₁ later, factor o s w = .ok (.ok first) w₁ ∧ Drains o first w₁ later w' ∧
      fresh = first ++ later := by
  rw [factorFully_apply] at h
  split at h
  · cases h
  next first w₁ hfactor =>
    split at h
    next later w₂ hdrain =>
      cases later with
      | error r => cases h
      | ok later =>
        cases h
        exact ⟨first, w₁, later, hfactor, drains_of_drain hdrain, rfl⟩
    · cases h
  · cases h

theorem factorFully_of_drains {o : Options} {s : Symbol} {first later : List Symbol}
    {w w₁ w' : Workspace} (h : factor o s w = .ok (.ok first) w₁)
    (hdrains : Drains o first w₁ later w') :
    factorFully o s w = .ok (.ok (first ++ later)) w' := by
  rw [factorFully_apply, h]
  dsimp only
  rw [drain_of_drains hdrains]
  rfl

theorem passes_of_factorFully {o : Options} {s : Symbol} {fresh : List Symbol} {w w' : Workspace}
    (h : factorFully o s w = .ok (.ok fresh) w') : Passes o w.grammar fresh w'.grammar := by
  rcases of_factorFully h with ⟨first, w₁, later, hfactor, hdrains, rfl⟩
  exact .cons (factored_of_factor hfactor) (passes_of_drains hdrains)

/-- A refused fixed point leaves the workspace as it was. -/
theorem eq_of_factorFully_refused {o : Options} {s : Symbol} {w w' : Workspace} {r : Refusal}
    (h : factorFully o s w = .ok (.error r) w') : w' = w :=
  eq_of_factor_refused (factorFully_refused_iff.mp h)

/-! ## Whole grammars -/

theorem of_factorEach_cons {o : Options} {s : Symbol} {rest fresh : List Symbol} {w w' : Workspace}
    (h : factorEach o (s :: rest) w = .ok fresh w') :
    ∃ answer w₁ later, factorFully o s w = .ok answer w₁ ∧ factorEach o rest w₁ = .ok later w' ∧
      fresh = answer.toOption.getD [] ++ later := by
  simp only [factorEach, Action.bind_eq_ok_iff, Action.pure_apply, EStateM.Result.ok.injEq] at h
  rcases h with ⟨answer, w₁, hfully, later, _, heach, rfl, rfl⟩
  exact ⟨answer, w₁, later, hfully, heach, rfl⟩

theorem passes_of_factorEach {o : Options} {symbols fresh : List Symbol} {w w' : Workspace}
    (h : factorEach o symbols w = .ok fresh w') : Passes o w.grammar fresh w'.grammar := by
  induction symbols generalizing fresh w with
  | nil =>
    cases h
    exact .nil _
  | cons s rest ih =>
    rcases of_factorEach_cons h with ⟨answer, w₁, later, hfully, heach, rfl⟩
    cases answer with
    | error r =>
      -- nothing has been done, and the walk goes on
      cases eq_of_factorFully_refused hfully
      exact ih heach
    | ok first => exact (passes_of_factorFully hfully).append (ih heach)

theorem factorAll_apply (o : Options) (w : Workspace) :
    factorAll o w = factorEach o w.grammar.nonterminals w :=
  rfl

/-! ## Runs -/

/-- A request to factor. -/
inductive Run where
  /-- One pass over a symbol. -/
  | once (s : Symbol)
  /-- A symbol to a fixed point. -/
  | fully (s : Symbol)
  /-- Every nonterminal to a fixed point. -/
  | all
deriving DecidableEq, Repr

/-- Does what is requested. -/
def Run.perform (o : Options) : Run → Action Workspace (Except Refusal (List Symbol))
  | .once s => factor o s
  | .fully s => factorFully o s
  | .all => fun w =>
    match factorAll o w with
    | .ok fresh w' => .ok (.ok fresh) w'
    | .error e w' => .error e w'

theorem perform_all_eq_ok_iff {o : Options} {w w' : Workspace}
    {answer : Except Refusal (List Symbol)} :
    Run.all.perform o w = .ok answer w' ↔
      ∃ fresh, answer = .ok fresh ∧ factorAll o w = .ok fresh w' := by
  simp only [Run.perform]
  constructor
  · intro h
    split at h
    next fresh w₁ hall =>
      cases h
      exact ⟨fresh, rfl, hall⟩
    · cases h
  · rintro ⟨fresh, rfl, hall⟩
    rw [hall]

/-- What a run answers is the fresh symbols of its passes. -/
theorem passes_of_run {o : Options} {run : Run} {fresh : List Symbol} {w w' : Workspace}
    (h : run.perform o w = .ok (.ok fresh) w') : Passes o w.grammar fresh w'.grammar := by
  cases run with
  | once s => exact .single (factored_of_factor h)
  | fully s => exact passes_of_factorFully h
  | all =>
    rcases perform_all_eq_ok_iff.mp h with ⟨fresh', heq, hall⟩
    cases heq
    exact passes_of_factorEach hall

/-- A refused run leaves the workspace as it was. -/
theorem eq_of_run_refused {o : Options} {run : Run} {r : Refusal} {w w' : Workspace}
    (h : run.perform o w = .ok (.error r) w') : w' = w := by
  cases run with
  | once s => exact eq_of_factor_refused h
  | fully s => exact eq_of_factorFully_refused h
  | all =>
    rcases perform_all_eq_ok_iff.mp h with ⟨fresh, heq, -⟩
    cases heq

/-- Runs one after the other, each under options of its own, none of which ran out of symbols. -/
inductive Runs : Workspace → Workspace → Prop
  | nil (w : Workspace) : Runs w w
  | cons {o : Options} {run : Run} {answer : Except Refusal (List Symbol)} {w w₁ w' : Workspace} :
      run.perform o w = .ok answer w₁ → Runs w₁ w' → Runs w w'

/-! ## Runs that can be computed -/

/-- The fresh symbols of a run that succeeds. -/
def Run.fresh? (o : Options) (run : Run) (w : Workspace) : Option (List Symbol) :=
  match run.perform o w with
  | .ok (.ok fresh) _ => some fresh
  | _ => none

theorem Run.exists_of_fresh? {o : Options} {run : Run} {w : Workspace} {fresh : List Symbol}
    (h : run.fresh? o w = some fresh) : ∃ w', run.perform o w = .ok (.ok fresh) w' := by
  unfold Run.fresh? at h
  split at h
  next w' hrun =>
    cases h
    exact ⟨w', hrun⟩
  · cases h

end Factoring

/-- The symbol with a given number. The numbers start again when all symbols have been counted. -/
def Symbol.numbered (n : Nat) : Symbol :=
  ⟨n % 4294967295, Nat.mod_lt _ (by decide)⟩

theorem Symbol.id_numbered {n : Nat} (h : n < 4294967295) : (numbered n).id = n :=
  Nat.mod_eq_of_lt h

theorem Symbol.numbered_id (s : Symbol) : numbered s.id = s :=
  Symbol.ext (id_numbered s.id_lt)

theorem Owners.ofNames_replicate_none (n : Nat) : ofNames (List.replicate n none) = .ok ∅ := by
  induction n with
  | zero => rfl
  | succ n ih =>
    rw [List.replicate_succ', ofNames_concat, ih]
    rfl

/-- The grammar with the given rules over a vocabulary of `n` symbols, none of which has a name. -/
def Grammar.unnamed (n : Nat) (rules : List Rule) : Grammar :=
  .ofRules ⟨List.replicate n none, ∅, Owners.ofNames_replicate_none n⟩ rules

end ContextFree
