import ContextFree.Proofs.Run

/-!
# What a run keeps of the vocabulary

A run of factoring changes the vocabulary only by issuing symbols with fresh names. A property of
vocabularies that each such step keeps is therefore kept by every run, be it refused or not, and
also by one that stops halfway because the symbols have run out (`keeps_run`). More generally, a run
keeps every property of grammars that each pass keeps (`keeps_run_of_pass`).
-/

namespace ContextFree

/-- The state after an action, whatever the action came to. -/
def Outcome.state {σ α : Type} : Outcome σ α → σ
  | .ok _ s => s
  | .error _ s => s

namespace Action

variable {σ α β : Type} {P : σ → Prop}

/-- The action keeps the property, whether it succeeds or fails. -/
def Keeps (P : σ → Prop) (m : Action σ α) : Prop :=
  ∀ s, P s → P (Outcome.state (m s))

theorem Keeps.of_ok {m : Action σ α} {s s' : σ} {a : α} (h : Keeps P m) (hs : P s)
    (hm : m s = .ok a s') : P s' := by
  have hafter := h s hs
  rw [hm] at hafter
  exact hafter

theorem Keeps.pure (a : α) : Keeps P (pure a : Action σ α) :=
  fun _ h => h

theorem Keeps.get : Keeps P (get : Action σ σ) :=
  fun _ h => h

theorem Keeps.modify {f : σ → σ} (h : ∀ s, P s → P (f s)) : Keeps P (modify f : Action σ PUnit) :=
  h

theorem Keeps.bind {m : Action σ α} {f : α → Action σ β} (hm : Keeps P m)
    (hf : ∀ a, Keeps P (f a)) : Keeps P (m >>= f) := by
  intro s hs
  have hstate := hm s hs
  rw [bind_apply]
  cases h : m s with
  | ok a s' =>
    rw [h] at hstate
    exact hf a s' hstate
  | error e s' =>
    rw [h] at hstate
    exact hstate

theorem Keeps.mapM {f : α → Action σ β} {l : List α} (h : ∀ a ∈ l, Keeps P (f a)) :
    Keeps P (l.mapM f) := by
  induction l with
  | nil => exact .pure []
  | cons a l ih =>
    have hrest : Keeps P (l.mapM f) := ih fun b hb => h b (List.mem_cons_of_mem a hb)
    rw [List.mapM_cons]
    exact (h a (List.mem_cons_self ..)).bind fun _ => hrest.bind fun _ => .pure _

theorem Keeps.foldlM {f : β → α → Action σ β} {l : List α} (h : ∀ b, ∀ a ∈ l, Keeps P (f b a))
    (b : β) : Keeps P (l.foldlM f b) := by
  induction l generalizing b with
  | nil => exact .pure b
  | cons a l ih =>
    rw [List.foldlM_cons]
    exact (h b a (List.mem_cons_self ..)).bind
      fun b' => ih (fun b a' ha' => h b a' (List.mem_cons_of_mem a ha')) b'

end Action

/-- A property that a new symbol keeps is kept by an attempt to issue one. -/
theorem Vocabulary.of_state_issue {P : Vocabulary → Prop} {name? : Option String} {v : Vocabulary}
    (hv : P v) (h : ∀ s v', issue name? v = .ok s v' → P v') :
    P (Outcome.state (issue name? v)) := by
  cases hissue : issue name? v with
  | ok s v' => exact h s v' hissue
  | error e v' =>
    rw [(issue_eq_error_iff.mp hissue).2]
    exact hv

namespace Factoring

variable {P : Vocabulary → Prop}

/-- An action on the vocabulary keeps in a workspace what it keeps by itself. -/
theorem keeps_onVocabulary {α : Type} {act : Action Vocabulary α} (h : act.Keeps P) :
    (onVocabulary act).Keeps fun w => P w.vocabulary := by
  intro w hw
  have hstate := h w.vocabulary hw
  rw [onVocabulary_eq]
  cases hact : act w.vocabulary with
  | ok a v =>
    rw [hact] at hstate
    exact hstate
  | error e v =>
    rw [hact] at hstate
    exact hstate

/-- Issuing a symbol with a fresh name keeps the property. -/
def KeptByFresh (P : Vocabulary → Prop) : Prop :=
  ∀ base v s v', P v → Vocabulary.issue (some (v.freshName base)) v = .ok s v' → P v'

theorem keeps_introduce (hP : KeptByFresh P) (base : Symbol) :
    (introduce base).Keeps fun w => P w.vocabulary := by
  intro w hw
  simp only [introduce, Action.bind_apply, Action.get_apply, Action.modify_apply,
    Action.pure_apply, onVocabulary_eq]
  cases hissue : Vocabulary.issue (some (w.vocabulary.freshName base)) w.vocabulary with
  | ok s v => exact hP base _ s v hw hissue
  | error e v =>
    rw [(Vocabulary.issue_eq_error_iff.mp hissue).2]
    exact hw

theorem keeps_separate (hP : KeptByFresh P) (s : Symbol) (G : Group) :
    (separate s G).Keeps fun w => P w.vocabulary := by
  refine (keeps_introduce hP s).bind fun fresh => ?_
  refine (Action.Keeps.modify ?_).bind fun _ => .pure fresh
  exact fun _ h => h

theorem keeps_scanAt (hP : KeptByFresh P) (dedup : Bool) (s : Symbol)
    (alternatives : List (List Symbol)) (table : Array (Option Group)) (d : Draft)
    (entry : List Symbol × Nat) :
    (scanAt dedup s alternatives table d entry).Keeps fun w => P w.vocabulary := by
  unfold scanAt
  split
  · exact .pure _
  · split
    · exact (keeps_separate hP s _).bind fun _ => .pure _
    · exact .pure d

theorem keeps_factorGroups (hP : KeptByFresh P) (dedup : Bool) (s : Symbol) (Gs : List Group) :
    (factorGroups dedup s Gs).Keeps fun w => P w.vocabulary := by
  refine Action.Keeps.get.bind fun w => ?_
  refine (Action.Keeps.foldlM (fun d entry _ => keeps_scanAt hP dedup s _ _ d entry) _).bind
    fun d => ?_
  refine (Action.Keeps.modify ?_).bind fun _ => .pure d.fresh
  exact fun _ h => h

theorem keeps_factor (hP : KeptByFresh P) (o : Options) (s : Symbol) :
    (factor o s).Keeps fun w => P w.vocabulary := by
  refine Action.Keeps.get.bind fun w => ?_
  dsimp only
  split
  · exact .pure _
  · split
    · exact .pure _
    · exact (keeps_factorGroups hP o.dedup s _).bind fun _ => .pure _

/-! ## From a pass to a run -/

section

variable {o : Options} {Q : Grammar → Prop}

/-- A queue keeps what a pass keeps, for each symbol in it is factored by a pass of its own. -/
theorem keeps_drain (hpass : ∀ s, (factor o s).Keeps fun w => Q w.grammar) (queue : List Symbol) :
    Action.Keeps (fun w => Q w.grammar) (drain o queue) := by
  intro w hw
  have hturn : ∀ s (w : Workspace) {result}, Q w.grammar →
      factor o s (w.revisit s) = result → Q (Outcome.state result).grammar := by
    rintro s w result hw rfl
    exact hpass s (w.revisit s) hw
  fun_induction drain o queue w with
  | case1 => exact hw
  | case2 w s rest fresh w₁ hfactor _ later w₂ hdrain ih =>
    rw [hdrain] at ih
    exact ih (hturn s w hw hfactor)
  | case3 w s rest fresh w₁ hfactor _ e w₂ hdrain ih =>
    rw [hdrain] at ih
    exact ih (hturn s w hw hfactor)
  | case4 w s rest t hfactor ih => exact ih (hturn s w hw hfactor)
  | case5 w s rest r w₁ _ hfactor => exact hturn s w hw hfactor
  | case6 w s rest e w₁ hfactor => exact hturn s w hw hfactor

theorem keeps_factorFully (hpass : ∀ s, (factor o s).Keeps fun w => Q w.grammar) (s : Symbol) :
    (factorFully o s).Keeps fun w => Q w.grammar := by
  refine (hpass s).bind fun answer => ?_
  cases answer with
  | error r => exact .pure _
  | ok first => exact (keeps_drain hpass first).bind fun _ => .pure _

theorem keeps_factorEach (hpass : ∀ s, (factor o s).Keeps fun w => Q w.grammar)
    (symbols : List Symbol) : (factorEach o symbols).Keeps fun w => Q w.grammar := by
  induction symbols with
  | nil => exact .pure _
  | cons s rest ih => exact (keeps_factorFully hpass s).bind fun _ => ih.bind fun _ => .pure _

/-- A run keeps what each pass keeps. -/
theorem keeps_run_of_pass (hpass : ∀ s, (factor o s).Keeps fun w => Q w.grammar) (run : Run) :
    (run.perform o).Keeps fun w => Q w.grammar := by
  cases run with
  | once s => exact hpass s
  | fully s => exact keeps_factorFully hpass s
  | all =>
    intro w hw
    have hall := keeps_factorEach hpass w.grammar.nonterminals w hw
    rw [← factorAll_apply] at hall
    simp only [Run.perform]
    cases hfactor : factorAll o w with
    | ok fresh w' =>
      rw [hfactor] at hall
      exact hall
    | error e w' =>
      rw [hfactor] at hall
      exact hall

end

/-- A run keeps what each fresh symbol keeps. -/
theorem keeps_run (hP : KeptByFresh P) (o : Options) (run : Run) :
    (run.perform o).Keeps fun w => P w.vocabulary :=
  keeps_run_of_pass (Q := fun g => P g.vocabulary) (keeps_factor hP o) run

end Factoring

end ContextFree
