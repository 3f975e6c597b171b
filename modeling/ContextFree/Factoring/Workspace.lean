import ContextFree.Factoring.Event
import ContextFree.Grammar.Basic

/-!
# The workspace of factoring

A grammar is factored in a workspace, which also keeps what has been reported. What was done before
the symbols ran out stays done.
-/

namespace ContextFree

namespace Factoring

/-- A grammar that is being factored. -/
structure Workspace where
  grammar : Grammar
  /-- What has been reported, from the first event to the last. -/
  log : List Event

namespace Workspace

/-- A grammar about which nothing has been reported. -/
def ofGrammar (g : Grammar) : Workspace :=
  ⟨g, []⟩

/-- The vocabulary of the grammar. -/
def vocabulary (w : Workspace) : Vocabulary :=
  w.grammar.vocabulary

/-- The workspace with one more event. -/
def report (w : Workspace) (e : Event) : Workspace :=
  { w with log := w.log ++ [e] }

/-- Replaces the rules of `s`, and reports it. -/
def replace (w : Workspace) (s : Symbol) (new : List Rule) : Workspace :=
  let g := w.grammar.replaceAlternatives s new
  { w with grammar := g }.report (.replaced (g.vocabulary.displayName s) g.rules.length)

/-- How many symbols can still be issued. -/
def room (w : Workspace) : Nat :=
  w.vocabulary.room

@[simp]
theorem room_report (w : Workspace) (e : Event) : (w.report e).room = w.room :=
  rfl

@[simp]
theorem room_replace (w : Workspace) (s : Symbol) (new : List Rule) :
    (w.replace s new).room = w.room :=
  rfl

end Workspace

/-! ## Fresh symbols -/

/-- Acts on the vocabulary of the grammar. -/
def onVocabulary {α : Type} (act : Action Vocabulary α) : Action Workspace α := fun w =>
  match Grammar.onVocabulary act w.grammar with
  | .ok a g => .ok a { w with grammar := g }
  | .error e g => .error e { w with grammar := g }

theorem onVocabulary_eq {α : Type} (act : Action Vocabulary α) (w : Workspace) :
    onVocabulary act w =
      match act w.vocabulary with
      | .ok a v => .ok a { w with grammar := { w.grammar with vocabulary := v } }
      | .error e v => .error e { w with grammar := { w.grammar with vocabulary := v } } := by
  simp only [onVocabulary, Grammar.onVocabulary, Workspace.vocabulary]
  cases act w.grammar.vocabulary <;> rfl

/-- Issues a symbol with a fresh name that is derived from `base`, and reports it. -/
def introduce (base : Symbol) : Action Workspace Symbol := do
  let name := (← get).vocabulary.freshName base
  let fresh ← onVocabulary (Vocabulary.issue (some name))
  modify fun w => w.report (.introduced (w.vocabulary.displayName fresh)
    (w.vocabulary.displayName base))
  return fresh

/-- A fresh symbol takes up room. -/
theorem room_of_introduce {base fresh : Symbol} {w w' : Workspace}
    (h : introduce base w = .ok fresh w') : w'.room + 1 = w.room := by
  simp only [introduce, Action.bind_eq_ok_iff, Action.get_apply, Action.modify_apply,
    Action.pure_apply, EStateM.Result.ok.injEq, onVocabulary_eq] at h
  obtain ⟨_, _, ⟨rfl, rfl⟩, s, v, hv, _, _, ⟨_, rfl⟩, _, rfl⟩ := h
  split at hv
  next a v' hi =>
    cases hv
    exact Vocabulary.room_of_issue hi
  · cases hv

end Factoring

end ContextFree
