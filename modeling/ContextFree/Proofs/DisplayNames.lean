import ContextFree.Proofs.FreshName
import ContextFree.Proofs.Invariant

/-!
# Displayed names stay unambiguous

A vocabulary is unambiguous if no two of its symbols are displayed under one name. Issuing a symbol
keeps that if no symbol before it is displayed under its name (`Vocabulary.Unambiguous.issue`). A
fresh name is free, so every run of factoring keeps a vocabulary unambiguous.

A symbol without a name takes the placeholder of its number, which may have been recorded for
another symbol before. So a form of names is set aside for placeholders (`Placeholder.Form`). While
no recorded name is of that form, neither new symbols without a name nor new names of another form
make the vocabulary ambiguous, and since a fresh name is never of that form, no run records one.
Whether a bare `g` is of the form does not matter.
-/

namespace ContextFree

/-- A form that all placeholders have, and with them only names made of `g` and digits. -/
structure Placeholder.Form (form : String → Prop) : Prop where
  of_name : ∀ id, form (Placeholder.name id)
  hasShape : ∀ name, form name → Placeholder.hasShape name = true

namespace Placeholder

theorem form_hasShape : Form fun name => hasShape name = true :=
  ⟨hasShape_name, fun _ h => h⟩

/-- Names that have a digit after the `g`. -/
theorem form_hasShape_ne : Form fun name => hasShape name = true ∧ name ≠ "g" := by
  refine ⟨fun id => ⟨hasShape_name id, fun h => ?_⟩, fun _ h => h.1⟩
  have hlist := congrArg String.toList h
  rw [toList_name] at hlist
  exact absurd (List.cons.inj hlist).2 Nat.toDigits_ne_nil

theorem name_injective {m n : Nat} (h : name m = name n) : m = n := by
  have hnumber := congrArg number? h
  rwa [number?_name, number?_name, Option.some.injEq] at hnumber

end Placeholder

namespace Vocabulary

/-- Every entry of the name table is that of a symbol, and no two of these are displayed under one
name. -/
structure Unambiguous (v : Vocabulary) : Prop where
  size_le : v.size ≤ 4294967295
  eq_of_displayName : ∀ s t : Symbol, s.id < v.size → t.id < v.size →
    v.displayName s = v.displayName t → s = t

theorem unambiguous_iff {v : Vocabulary} :
    v.Unambiguous ↔ v.size ≤ 4294967295 ∧ ∀ i < v.size, ∀ j < v.size,
      v.displayName (.numbered i) = v.displayName (.numbered j) → i = j := by
  constructor
  · rintro ⟨hsize, hinj⟩
    refine ⟨hsize, fun i hi j hj heq => ?_⟩
    have hidi := Symbol.id_numbered (Nat.lt_of_lt_of_le hi hsize)
    have hidj := Symbol.id_numbered (Nat.lt_of_lt_of_le hj hsize)
    have hsame := congrArg Symbol.id (hinj _ _ (hidi.symm ▸ hi) (hidj.symm ▸ hj) heq)
    rwa [hidi, hidj] at hsame
  · rintro ⟨hsize, hinj⟩
    refine ⟨hsize, fun s t hs ht heq => Symbol.ext (hinj s.id hs t.id ht ?_)⟩
    rwa [Symbol.numbered_id, Symbol.numbered_id]

instance (v : Vocabulary) : Decidable v.Unambiguous :=
  decidable_of_iff _ unambiguous_iff.symm

/-- No recorded name is of the form. -/
def Spares (form : String → Prop) (v : Vocabulary) : Prop :=
  ∀ name, some name ∈ v.names → ¬ form name

theorem spares_iff {form : String → Prop} {v : Vocabulary} :
    v.Spares form ↔ ∀ name? ∈ v.names, ∀ name ∈ name?, ¬ form name := by
  constructor
  · rintro h _ hmem name rfl
    exact h name hmem
  · intro h name hmem
    exact h (some name) hmem name rfl

instance (form : String → Prop) [DecidablePred form] (v : Vocabulary) : Decidable (v.Spares form) :=
  decidable_of_iff _ spares_iff.symm

variable {v v' : Vocabulary} {name? : Option String} {s t : Symbol}

/-! ## Issuing a symbol -/

theorem displayName_of_issue_self (h : issue name? v = .ok s v') (hid : s.id = v.size) :
    v'.displayName s = name?.getD (Placeholder.name s.id) := by
  have hentry : v'.names[s.id]? = some name? := by
    rw [(of_issue h).1, hid]
    exact List.getElem?_concat_length
  cases name? with
  | none => exact displayName_of_unnamed hentry
  | some name => exact displayName_of_recorded hentry

/-- A new symbol under a name of its own keeps a vocabulary unambiguous. -/
theorem Unambiguous.issue (hv : v.Unambiguous) (h : issue name? v = .ok s v')
    (hnew : ∀ t : Symbol, t.id < v.size → v.displayName t ≠ name?.getD (Placeholder.name v.size)) :
    v'.Unambiguous := by
  have hid := id_of_issue h hv.size_le
  have hsize := size_of_issue h
  have hself := displayName_of_issue_self h hid
  rw [hid] at hself
  -- each symbol is an old one or the new one
  have hcases : ∀ t : Symbol, t.id < v'.size → t.id < v.size ∨ t = s := by
    intro t ht
    rcases Nat.lt_or_ge t.id v.size with hlt | hge
    · exact .inl hlt
    · exact .inr (Symbol.ext (by omega))
  have hold : ∀ t : Symbol, t.id < v.size → v'.displayName t = v.displayName t :=
    fun t => displayName_of_prefix (prefix_of_issue h)
  constructor
  · exact size_le_of_issue h hv.size_le
  · intro t u ht hu heq
    rcases hcases t ht with ht | rfl <;> rcases hcases u hu with hu | rfl
    · rw [hold t ht, hold u hu] at heq
      exact hv.eq_of_displayName t u ht hu heq
    · rw [hold t ht, hself] at heq
      exact absurd heq (hnew t ht)
    · rw [hold u hu, hself] at heq
      exact absurd heq.symm (hnew u hu)
    · rfl

/-- A free name is one that the new symbol has for itself. -/
theorem Unambiguous.issue_of_not_taken {name : String} (hv : v.Unambiguous)
    (h : Vocabulary.issue (some name) v = .ok s v') (hname : v.isTaken name = false) :
    v'.Unambiguous :=
  hv.issue h fun _ ht => displayName_ne_of_not_taken ht hname

theorem Spares.issue {form : String → Prop} (hv : v.Spares form) (h : issue name? v = .ok s v')
    (hname : ∀ name, name? = some name → ¬ form name) : v'.Spares form := by
  intro name hmem
  rw [(of_issue h).1, List.mem_append, List.mem_singleton] at hmem
  rcases hmem with hold | hnew
  · exact hv name hold
  · exact hname name hnew.symm

/-! ## Names of a form set aside -/

/-- The vocabulary is unambiguous and spares the form. -/
structure Clear (form : String → Prop) (v : Vocabulary) : Prop where
  unambiguous : v.Unambiguous
  spares : v.Spares form

variable {form : String → Prop}

/-- Only a symbol without a name is displayed under a name of the form. -/
theorem Clear.unnamed_of_form (hv : v.Clear form) (ht : t.id < v.size)
    (hform : form (v.displayName t)) : v.displayName t = Placeholder.name t.id := by
  rcases takes_displayName ht with hrecorded | ⟨hunnamed, -⟩
  · exact absurd hform (hv.spares _ (List.mem_of_getElem? hrecorded))
  · exact displayName_of_unnamed hunnamed

theorem Clear.keeps_issue_none (hform : Placeholder.Form form) :
    (issue none).Keeps (Clear form) := by
  intro v hv
  refine of_state_issue hv fun s v' h => ?_
  refine ⟨hv.unambiguous.issue h fun t ht heq => ?_, hv.spares.issue h fun _ h => nomatch h⟩
  -- only the symbol of that number could be displayed under the placeholder
  have hplaceholder : form (v.displayName t) := heq ▸ hform.of_name v.size
  rw [hv.unnamed_of_form ht hplaceholder] at heq
  exact Nat.ne_of_lt ht (Placeholder.name_injective heq)

theorem Clear.keeps_intern (hform : Placeholder.Form form) {name : String} (hname : ¬ form name) :
    (intern name).Keeps (Clear form) := by
  intro v hv
  simp only [intern, Action.bind_apply, Action.get_apply]
  cases hfind : v.find? name with
  | some s => exact hv
  | none =>
    refine of_state_issue hv fun s v' h => ?_
    refine ⟨hv.unambiguous.issue h fun t ht heq => ?_, hv.spares.issue h ?_⟩
    · -- the name is not recorded, and it is no placeholder either
      rcases takes_displayName ht with hrecorded | ⟨hunnamed, -⟩
      · have hfound := find?_isSome_iff.mpr (List.mem_of_getElem? hrecorded)
        rw [heq, Option.getD_some, hfind] at hfound
        cases hfound
      · rw [displayName_of_unnamed hunnamed, Option.getD_some] at heq
        exact hname (heq ▸ hform.of_name t.id)
    · intro entered hentered
      cases hentered
      exact hname

end Vocabulary

namespace Factoring

theorem unambiguous_keptByFresh : KeptByFresh Vocabulary.Unambiguous :=
  fun base v _ _ hv h => hv.issue_of_not_taken h (v.isTaken_freshName base)

theorem clear_keptByFresh {form : String → Prop} (hform : Placeholder.Form form) :
    KeptByFresh (Vocabulary.Clear form) := by
  intro base v s v' hv h
  refine ⟨unambiguous_keptByFresh base v s v' hv.unambiguous h, hv.spares.issue h ?_⟩
  intro name hname hformed
  cases hname
  have hshape := hform.hasShape _ hformed
  rw [v.hasShape_freshName base] at hshape
  cases hshape

/-! ## Requests -/

/-- A request to a workspace. -/
inductive Request where
  /-- A run of factoring. -/
  | run (o : Options) (r : Run)
  /-- A new symbol without a name. -/
  | next
  /-- New symbols without a name. -/
  | several (n : Nat)
  /-- The symbol of a name. -/
  | intern (name : String)
deriving DecidableEq, Repr

namespace Request

/-- The workspace after a request, be it granted or not. -/
def after : Request → Workspace → Workspace
  | .run o r, w => Outcome.state (r.perform o w)
  | .next, w => Outcome.state (onVocabulary (Vocabulary.issue none) w)
  | .several n, w => Outcome.state (onVocabulary (Vocabulary.issueAll (List.replicate n none)) w)
  | .intern name, w => Outcome.state (onVocabulary (Vocabulary.intern name) w)

/-- The request brings in no name of the form. -/
def Spares (form : String → Prop) : Request → Prop
  | .intern name => ¬ form name
  | _ => True

instance (form : String → Prop) [DecidablePred form] (request : Request) :
    Decidable (request.Spares form) :=
  match request with
  | .intern name => inferInstanceAs (Decidable (¬ form name))
  | .run .. | .next | .several _ => .isTrue trivial

end Request

/-- The workspace after requests, one after the other. -/
def Workspace.after (w : Workspace) (requests : List Request) : Workspace :=
  requests.foldl (fun w request => request.after w) w

theorem Workspace.after_cons (w : Workspace) (request : Request) (requests : List Request) :
    w.after (request :: requests) = (request.after w).after requests :=
  rfl

theorem unambiguous_after_runs {w : Workspace} (hw : w.vocabulary.Unambiguous)
    (runs : List (Options × Run)) :
    (w.after (runs.map fun r => .run r.1 r.2)).vocabulary.Unambiguous := by
  induction runs generalizing w with
  | nil => exact hw
  | cons r runs ih =>
    rw [List.map_cons, Workspace.after_cons]
    exact ih (keeps_run unambiguous_keptByFresh r.1 r.2 w hw)

variable {form : String → Prop}

/-- A request that spares the form keeps a workspace clear. -/
theorem clear_after_request (hform : Placeholder.Form form) {request : Request}
    (h : request.Spares form) {w : Workspace} (hw : w.vocabulary.Clear form) :
    (request.after w).vocabulary.Clear form := by
  have hissue := Vocabulary.Clear.keeps_issue_none hform
  cases request with
  | run o r => exact keeps_run (clear_keptByFresh hform) o r w hw
  | next => exact keeps_onVocabulary hissue w hw
  | several n =>
    have hall : (Vocabulary.issueAll (List.replicate n none)).Keeps (Vocabulary.Clear form) :=
      Action.Keeps.mapM fun name? hmem => (List.eq_of_mem_replicate hmem).symm ▸ hissue
    exact keeps_onVocabulary hall w hw
  | intern name => exact keeps_onVocabulary (Vocabulary.Clear.keeps_intern hform h) w hw

theorem clear_after (hform : Placeholder.Form form) {requests : List Request}
    (h : ∀ request ∈ requests, request.Spares form) {w : Workspace}
    (hw : w.vocabulary.Clear form) : (w.after requests).vocabulary.Clear form := by
  induction requests generalizing w with
  | nil => exact hw
  | cons request requests ih =>
    rw [Workspace.after_cons]
    have hfirst := clear_after_request hform (h request (List.mem_cons_self ..)) hw
    exact ih (fun later hlater => h later (List.mem_cons_of_mem request hlater)) hfirst

/-- Runs of factoring keep an unambiguous workspace unambiguous, under whatever options. So does
every mixture of runs, new symbols without a name and new names, as long as no recorded name and no
new one is of the form of placeholders, and then no name of the form is ever recorded. -/
theorem display_stays_unambiguous :
    (∀ w : Workspace, w.vocabulary.Unambiguous → ∀ runs : List (Options × Run),
      (w.after (runs.map fun r => .run r.1 r.2)).vocabulary.Unambiguous) ∧
    ∀ form, Placeholder.Form form → ∀ w : Workspace,
      w.vocabulary.Unambiguous → w.vocabulary.Spares form →
      ∀ requests : List Request, (∀ request ∈ requests, request.Spares form) →
        (w.after requests).vocabulary.Unambiguous ∧ (w.after requests).vocabulary.Spares form := by
  constructor
  · intro w hw runs
    exact unambiguous_after_runs hw runs
  · intro form hform w hw hspares requests h
    have hclear := clear_after hform h ⟨hw, hspares⟩
    exact ⟨hclear.unambiguous, hclear.spares⟩

/-- Two alternatives of `A` that begin alike, with a symbol without a name and one of a given
name. -/
def mixed (name : String) : Workspace :=
  .ofGrammar (.ofRules (Outcome.state (Vocabulary.issueAll [some "A", none, some name] .empty))
    [⟨.numbered 0, [.numbered 1, .numbered 2]⟩, ⟨.numbered 0, [.numbered 1]⟩])

/-- A name may look like the placeholder of a later symbol if there are runs alone. A bare `g` may
be recorded if the form asks for a digit. -/
theorem display_stays_unambiguous_mixed :
    ((mixed "g7").vocabulary.Unambiguous ∧
      ((mixed "g7").after [.run {} .all, .run {} (.once (.numbered 3))]).vocabulary.Unambiguous) ∧
    ((mixed "g").vocabulary.Unambiguous ∧
      ((mixed "g").after
        [.several 3, .run {} .all, .intern "g_1", .next]).vocabulary.Unambiguous) ∧
    (mixed "B").vocabulary.Unambiguous ∧
      ((mixed "B").after [.next, .intern "C", .run {} .all]).vocabulary.Spares
        fun name => Placeholder.hasShape name = true := by
  have hlookalike : (mixed "g7").vocabulary.Unambiguous := by decide +kernel
  have hbare : (mixed "g").vocabulary.Unambiguous := by decide +kernel
  have hplain : (mixed "B").vocabulary.Unambiguous := by decide +kernel
  have hruns := display_stays_unambiguous.1 (mixed "g7") hlookalike
    [({}, .all), ({}, .once (.numbered 3))]
  have hafter := display_stays_unambiguous.2 _ Placeholder.form_hasShape_ne (mixed "g") hbare
    (by decide +kernel) [.several 3, .run {} .all, .intern "g_1", .next] (by decide +kernel)
  have hshapes := display_stays_unambiguous.2 _ Placeholder.form_hasShape (mixed "B") hplain
    (by decide +kernel) [.next, .intern "C", .run {} .all] (by decide +kernel)
  exact ⟨⟨hlookalike, hruns⟩, ⟨hbare, hafter.1⟩, hplain, hshapes.2⟩

end Factoring

end ContextFree
