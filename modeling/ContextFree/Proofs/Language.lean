import Mathlib.Logic.Relation
import ContextFree.Proofs.Closed

/-!
# The language of a symbol

Factoring changes which sequences are derived on the way, but not what a symbol of the original
grammar derives in the end (`Factored.derives_iff`).

From old to new, each old rule is made up for by the head and a tail of its group. From new to old,
the fresh symbols of a derivation are inlined: `Inlines` reads a sequence over the new grammar as
one over the old grammar, in which each fresh symbol has been replaced by what is left of some
member of its group. Every step of the new grammar then is a step of the old one or no step at all
(`Factored.steps_of_inlines`).
-/

namespace ContextFree

/-! ## Derivations -/

/-- One occurrence of a left side is rewritten to a right side. -/
inductive Step (rules : List Rule) : List Symbol → List Symbol → Prop
  | rewrite {r : Rule} (before after : List Symbol) :
      r ∈ rules → Step rules (before ++ [r.lhs] ++ after) (before ++ r.rhs ++ after)

/-- Any number of occurrences are rewritten, one after the other. -/
def Steps (rules : List Rule) : List Symbol → List Symbol → Prop :=
  Relation.ReflTransGen (Step rules)

/-- A symbol derives a sequence of symbols. -/
def Derives (rules : List Rule) (X : Symbol) (word : List Symbol) : Prop :=
  Steps rules [X] word

/-- What can be rewritten on its own can be rewritten between other symbols. -/
theorem Step.context {rules : List Rule} {x y : List Symbol} (h : Step rules x y)
    (before after : List Symbol) : Step rules (before ++ x ++ after) (before ++ y ++ after) := by
  rcases h with ⟨before', after', hr⟩
  have hstep := Step.rewrite (before ++ before') (after' ++ after) hr
  simpa only [List.append_assoc] using hstep

namespace Steps

variable {rules rules' : List Rule} {x y : List Symbol}

theorem context (h : Steps rules x y) (before after : List Symbol) :
    Steps rules (before ++ x ++ after) (before ++ y ++ after) := by
  induction h with
  | refl => exact .refl
  | tail _ hstep ih => exact ih.tail (hstep.context before after)

theorem of_mem {r : Rule} (hr : r ∈ rules) : Steps rules [r.lhs] r.rhs := by
  have hstep := Step.rewrite [] [] hr
  rw [List.append_nil, List.append_nil, List.nil_append, List.nil_append] at hstep
  exact .single hstep

/-- Rules that can be made up for by others are not needed. -/
theorem of_rules (hrules : ∀ r ∈ rules, Steps rules' [r.lhs] r.rhs) (h : Steps rules x y) :
    Steps rules' x y := by
  induction h with
  | refl => exact .refl
  | tail _ hstep ih =>
    rcases hstep with ⟨before, after, hr⟩
    exact ih.trans ((hrules _ hr).context before after)

end Steps

namespace Factoring

/-! ## Inlining fresh symbols -/

/-- Each fresh symbol of a sequence is replaced by a right side of its own, and the other symbols
are kept. -/
inductive Inlines (rules : List Rule) (fresh : List Symbol) : List Symbol → List Symbol → Prop
  | nil : Inlines rules fresh [] []
  | keep {a : Symbol} {x y : List Symbol} :
      a ∉ fresh → Inlines rules fresh x y → Inlines rules fresh (a :: x) (a :: y)
  | inline {f : Symbol} {rest x y : List Symbol} :
      f ∈ fresh → ⟨f, rest⟩ ∈ rules → Inlines rules fresh x y →
        Inlines rules fresh (f :: x) (rest ++ y)

namespace Inlines

variable {rules : List Rule} {fresh x x' y y' : List Symbol}

theorem append (h : Inlines rules fresh x y) (h' : Inlines rules fresh x' y') :
    Inlines rules fresh (x ++ x') (y ++ y') := by
  induction h with
  | nil => exact h'
  | keep ha _ ih => exact .keep ha ih
  | inline hf hrule _ ih =>
    rw [List.append_assoc]
    exact .inline hf hrule ih

theorem of_append (h : Inlines rules fresh (x ++ x') y) :
    ∃ z z', y = z ++ z' ∧ Inlines rules fresh x z ∧ Inlines rules fresh x' z' := by
  induction x generalizing y with
  | nil => exact ⟨[], y, rfl, .nil, h⟩
  | cons a x ih =>
    cases h with
    | keep ha hrest =>
      rcases ih hrest with ⟨z, z', rfl, hz, hz'⟩
      exact ⟨a :: z, z', rfl, .keep ha hz, hz'⟩
    | @inline _ rest _ _ hf hrule hrest =>
      rcases ih hrest with ⟨z, z', rfl, hz, hz'⟩
      exact ⟨rest ++ z, z', (List.append_assoc ..).symm, .inline hf hrule hz, hz'⟩

/-- A sequence without fresh symbols is inlined to itself. -/
theorem refl (hx : ∀ a ∈ x, a ∉ fresh) : Inlines rules fresh x x := by
  induction x with
  | nil => exact .nil
  | cons a x ih =>
    have hrest : ∀ b ∈ x, b ∉ fresh := fun b hb => hx b (List.mem_cons_of_mem a hb)
    exact .keep (hx a (List.mem_cons_self ..)) (ih hrest)

theorem eq_of_forall_not_mem (h : Inlines rules fresh x y) (hx : ∀ a ∈ x, a ∉ fresh) : y = x := by
  induction h with
  | nil => rfl
  | keep _ _ ih => rw [ih fun b hb => hx b (List.mem_cons_of_mem _ hb)]
  | inline hf _ _ _ => exact absurd hf (hx _ (List.mem_cons_self ..))

/-- A fresh symbol on its own is inlined to one of its right sides. -/
theorem of_mem {f : Symbol} (h : Inlines rules fresh [f] y) (hf : f ∈ fresh) : ⟨f, y⟩ ∈ rules := by
  cases h with
  | keep hnot _ => exact absurd hf hnot
  | inline _ hrule hnil =>
    cases hnil
    rwa [List.append_nil]

theorem singleton {f : Symbol} {rest : List Symbol} (hf : f ∈ fresh) (hrule : ⟨f, rest⟩ ∈ rules) :
    Inlines rules fresh [f] rest := by
  have hinline : Inlines rules fresh [f] (rest ++ []) := .inline hf hrule .nil
  rwa [List.append_nil] at hinline

end Inlines

namespace Factored

variable {o : Options} {s X : Symbol} {fresh word : List Symbol} {g g' : Grammar}

/-! ## A pass -/

/-- Each rule that a pass takes apart is made up for in two steps. -/
theorem steps_of_mem (h : Factored o s fresh g g') {r : Rule} (hr : r ∈ g.rules) :
    Steps g'.rules [r.lhs] r.rhs := by
  rcases h.kept_or_split hr with hkept | ⟨m, hm, rest, rfl, htail⟩
  · exact .of_mem hkept
  · -- first the head of the group, then the tail in place of its fresh symbol
    have hfirst : Steps g'.rules [s] (m.1.shared ++ [m.2]) := .of_mem (h.head_mem_rules hm)
    have hsecond := (Steps.of_mem htail).context m.1.shared []
    rw [List.append_nil, List.append_nil] at hsecond
    exact hfirst.trans hsecond

/-- A rule of a closed grammar has no fresh symbol in it. -/
theorem not_mem_fresh_of_mem_rhs (h : Factored o s fresh g g') (hc : g.Closed) {r : Rule}
    (hr : r ∈ g.rules) : ∀ a ∈ r.rhs, a ∉ fresh := by
  intro a ha hfresh
  exact h.not_issued hc hfresh (hc.rhs_issued r hr a ha)

/-- A step of the new grammar, read with the fresh symbols inlined. -/
theorem steps_of_inlines (h : Factored o s fresh g g') (hc : g.Closed) {x x' y' : List Symbol}
    (hstep : Step g'.rules x x') (hin : Inlines g'.rules fresh x' y') :
    ∃ y, Inlines g'.rules fresh x y ∧ Steps g.rules y y' := by
  rcases hstep with @⟨r, before, after, hr⟩
  rcases hin.of_append with ⟨y₁, ya, rfl, hy₁, ha⟩
  rcases hy₁.of_append with ⟨yb, ym, rfl, hb, hmid⟩
  rcases h.old_or_head_or_tail hr with hold | ⟨m, hm, rfl | ⟨rest, rfl, hjoin⟩⟩
  · -- an old rule: its right side has nothing to inline, so the step is one of the old grammar
    have hlhs : ∀ a ∈ [r.lhs], a ∉ fresh := by
      intro a hmem hfresh
      rw [List.mem_singleton.mp hmem] at hfresh
      exact h.not_issued hc hfresh (hc.lhs_issued r hold)
    rw [hmid.eq_of_forall_not_mem (h.not_mem_fresh_of_mem_rhs hc hold)]
    exact ⟨_, (hb.append (.refl hlhs)).append ha, (Steps.of_mem hold).context yb ya⟩
  · -- the head of a group: with its fresh symbol inlined it is a member of the group
    have hfresh : m.2 ∈ fresh := (List.of_mem_zip hm).2
    rcases hmid.of_append with ⟨ys, yf, rfl, hshared, hlast⟩
    have hys : ys = m.1.shared := by
      apply hshared.eq_of_forall_not_mem
      intro a hmem hf
      exact h.not_issued hc hf (h.issued_shared hc hm hmem)
    rw [hys]
    have hrule := h.join_mem_rules hc hm (hlast.of_mem hfresh)
    have hself : ∀ a ∈ [s], a ∉ fresh := by
      intro a hmem
      rw [List.mem_singleton.mp hmem]
      exact h.self_not_mem hc
    exact ⟨_, (hb.append (.refl hself)).append ha, (Steps.of_mem hrule).context yb ya⟩
  · -- a tail: this is the step that was made by inlining
    have hfresh : m.2 ∈ fresh := (List.of_mem_zip hm).2
    have hrest : ym = rest := by
      apply hmid.eq_of_forall_not_mem
      intro a hmem
      exact h.not_mem_fresh_of_mem_rhs hc hjoin a (List.mem_append_right _ hmem)
    rw [hrest]
    exact ⟨_, (hb.append (.singleton hfresh hr)).append ha, .refl⟩

/-- A derivation of the new grammar, read with the fresh symbols inlined. -/
theorem exists_inlines (h : Factored o s fresh g g') (hc : g.Closed) {x : List Symbol}
    (hsteps : Steps g'.rules x word) (hword : ∀ a ∈ word, g.Issued a) :
    ∃ y, Inlines g'.rules fresh x y ∧ Steps g.rules y word := by
  -- from the end of the derivation back, since only the last sequence is known to be an old one
  induction hsteps using Relation.ReflTransGen.head_induction_on with
  | refl =>
    have hnone : ∀ a ∈ word, a ∉ fresh := fun a ha hf => h.not_issued hc hf (hword a ha)
    exact ⟨word, .refl hnone, .refl⟩
  | head hstep _ ih =>
    rcases ih with ⟨y', hin, hrest⟩
    rcases h.steps_of_inlines hc hstep hin with ⟨y, hy, hfirst⟩
    exact ⟨y, hy, hfirst.trans hrest⟩

/-- A pass preserves what each symbol of the grammar derives. -/
theorem derives_iff (h : Factored o s fresh g g') (hc : g.Closed) (hX : g.Issued X)
    (hword : ∀ a ∈ word, g.Issued a) : Derives g.rules X word ↔ Derives g'.rules X word := by
  constructor
  · intro hold
    exact Steps.of_rules (fun r hr => h.steps_of_mem hr) hold
  · intro hnew
    rcases h.exists_inlines hc hnew hword with ⟨y, hin, hsteps⟩
    have hy : y = [X] := by
      apply hin.eq_of_forall_not_mem
      intro a ha hf
      rw [List.mem_singleton.mp ha] at hf
      exact h.not_issued hc hf hX
    rwa [hy] at hsteps

end Factored

/-! ## Runs -/

namespace Passes

variable {o : Options} {X : Symbol} {fresh word : List Symbol} {g g' : Grammar}

theorem closed (h : Passes o g fresh g') (hc : g.Closed) : g'.Closed := by
  induction h with
  | nil => exact hc
  | cons hpass _ ih => exact ih (hpass.closed hc)

theorem issued_of (h : Passes o g fresh g') (hc : g.Closed) (hX : g.Issued X) : g'.Issued X := by
  induction h with
  | nil => exact hX
  | cons hpass _ ih => exact ih (hpass.closed hc) (hpass.issued_of hc hX)

theorem derives_iff (h : Passes o g fresh g') (hc : g.Closed) (hX : g.Issued X)
    (hword : ∀ a ∈ word, g.Issued a) : Derives g.rules X word ↔ Derives g'.rules X word := by
  induction h with
  | nil => rfl
  | cons hpass _ ih =>
    rw [hpass.derives_iff hc hX hword]
    exact ih (hpass.closed hc) (hpass.issued_of hc hX) fun a ha => hpass.issued_of hc (hword a ha)

end Passes

/-- Factoring a closed grammar, by whatever runs, preserves what each of its symbols derives. -/
theorem language_preserved {w w' : Workspace} (hc : w.grammar.Closed) (hruns : Runs w w')
    {X : Symbol} {word : List Symbol} (hX : w.grammar.Issued X)
    (hword : ∀ a ∈ word, w.grammar.Issued a) :
    Derives w.grammar.rules X word ↔ Derives w'.grammar.rules X word := by
  induction hruns with
  | nil => rfl
  | @cons o run answer w w₁ w' hrun _ ih =>
    cases answer with
    | error r =>
      cases eq_of_run_refused hrun
      exact ih hc hX hword
    | ok fresh =>
      have hpasses := passes_of_run hrun
      rw [hpasses.derives_iff hc hX hword]
      exact ih (hpasses.closed hc) (hpasses.issued_of hc hX)
        fun a ha => hpasses.issued_of hc (hword a ha)

/-- A grammar over three symbols without names, with alternatives that begin alike twice over. -/
def nested : Grammar :=
  .unnamed 3
    [⟨.numbered 0, [.numbered 1, .numbered 1, .numbered 2]⟩,
     ⟨.numbered 0, [.numbered 1, .numbered 1, .numbered 1]⟩,
     ⟨.numbered 0, [.numbered 1, .numbered 2]⟩]

/-- Two fresh symbols are issued, and what the first rule derived is derived still. -/
theorem language_preserved_nested :
    nested.Closed ∧ ∃ w', Runs (.ofGrammar nested) w' ∧
      w'.grammar.isNonterminal (.numbered 4) = true ∧
      Derives w'.grammar.rules (.numbered 0) [.numbered 1, .numbered 1, .numbered 2] := by
  have hclosed : nested.Closed := by decide +kernel
  have hfresh : Run.fresh? ⟨.grouped, false⟩ (.fully (.numbered 0)) (.ofGrammar nested) =
      some [.numbered 3, .numbered 4] := by decide +kernel
  rcases Run.exists_of_fresh? hfresh with ⟨w', hrun⟩
  have hruns : Runs (.ofGrammar nested) w' := .cons hrun (.nil w')
  have hfour := (passes_of_run hrun).isNonterminal_fresh (t := .numbered 4) (by decide)
  refine ⟨hclosed, w', hruns, hfour, ?_⟩
  refine (language_preserved hclosed hruns (X := .numbered 0) (by decide) ?_).mp ?_
  · decide
  · exact Steps.of_mem (r := ⟨.numbered 0, _⟩) (List.mem_cons_self ..)

end Factoring

end ContextFree
