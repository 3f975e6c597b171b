import Mathlib.Data.List.Perm.Basic
import ContextFree.Proofs.Alternatives

/-!
# Expansion

Factoring makes an alternative end with a fresh symbol, which stands for what may come after. The
expansion of a symbol undoes this: the last symbol of an alternative is replaced by each alternative
in the expansion of that symbol, if it is a continuation, that is, one of a given list of symbols.

This is a recursion along the relation "ends an alternative of" (`Grammar.Continues`), and it has a
value where that relation is well founded. The value is the only solution of its equation, up to
order and, if so wanted, up to how often an alternative is there (`Grammar.alike_expansion`).
-/

namespace ContextFree

/-! ## Lists up to order -/

/-- The lists have the same entries, and each as often in one as in the other unless repetitions do
not count. -/
structure Alike {α : Type} (dedup : Bool) (l l' : List α) : Prop where
  mem_iff : ∀ a, a ∈ l ↔ a ∈ l'
  perm : dedup = false → l.Perm l'

namespace Alike

variable {α β : Type} {dedup : Bool} {l l' l₁ l₁' : List α}

theorem of_perm (h : l.Perm l') : Alike dedup l l' :=
  ⟨fun _ => h.mem_iff, fun _ => h⟩

theorem refl (l : List α) : Alike dedup l l :=
  of_perm (.refl l)

theorem trans {l'' : List α} (h : Alike dedup l l') (h' : Alike dedup l' l'') : Alike dedup l l'' :=
  ⟨fun a => (h.mem_iff a).trans (h'.mem_iff a), fun hd => (h.perm hd).trans (h'.perm hd)⟩

theorem append (h : Alike dedup l l') (h₁ : Alike dedup l₁ l₁') :
    Alike dedup (l ++ l₁) (l' ++ l₁') := by
  constructor
  · intro a
    rw [List.mem_append, List.mem_append, h.mem_iff, h₁.mem_iff]
  · exact fun hd => (h.perm hd).append (h₁.perm hd)

theorem map (f : α → β) (h : Alike dedup l l') : Alike dedup (l.map f) (l'.map f) := by
  constructor
  · intro b
    simp only [List.mem_map, h.mem_iff]
  · exact fun hd => (h.perm hd).map f

theorem flatMap_left (f : α → List β) (h : Alike dedup l l') :
    Alike dedup (l.flatMap f) (l'.flatMap f) := by
  constructor
  · intro b
    simp only [List.mem_flatMap, h.mem_iff]
  · exact fun hd => (h.perm hd).flatMap_right f

theorem flatMap_congr {f f' : α → List β} (h : ∀ a ∈ l, Alike dedup (f a) (f' a)) :
    Alike dedup (l.flatMap f) (l.flatMap f') := by
  induction l with
  | nil => exact refl _
  | cons a l ih =>
    rw [List.flatMap_cons, List.flatMap_cons]
    have htail := ih fun b hb => h b (List.mem_cons_of_mem a hb)
    exact (h a (List.mem_cons_self ..)).append htail

end Alike

/-! ## Expanding the last symbol -/

/-- What a sequence stands for if each of the symbols `F` stands for what `expand` says when it
comes last. -/
def expandLast (F : List Symbol) (expand : Symbol → List (List Symbol)) (rhs : List Symbol) :
    List (List Symbol) :=
  match rhs.getLast? with
  | none => [rhs]
  | some f => if f ∈ F then (expand f).map (rhs.dropLast ++ ·) else [rhs]

variable {F F' : List Symbol} {expand expand' : Symbol → List (List Symbol)} {f : Symbol}

theorem expandLast_of_not_mem {rhs : List Symbol} (h : ∀ f ∈ F, rhs.getLast? ≠ some f) :
    expandLast F expand rhs = [rhs] := by
  unfold expandLast
  split
  · rfl
  next f hlast => rw [if_neg fun hf => h f hf hlast]

theorem expandLast_concat (hf : f ∈ F) (p : List Symbol) :
    expandLast F expand (p ++ [f]) = (expand f).map (p ++ ·) := by
  rw [expandLast, List.getLast?_concat]
  dsimp only
  rw [if_pos hf, List.dropLast_concat]

/-- Only what comes last is expanded, so a beginning without symbols of `F` stands aside. -/
theorem expandLast_append {p : List Symbol} (hp : ∀ a ∈ p, a ∉ F) (rest : List Symbol) :
    expandLast F expand (p ++ rest) = (expandLast F expand rest).map (p ++ ·) := by
  rcases List.eq_nil_or_concat rest with rfl | ⟨rest, f, rfl⟩
  · -- nothing comes after `p`, and the last symbol of `p` is not expanded
    rw [List.append_nil, expandLast_of_not_mem, expandLast_of_not_mem]
    · rw [List.map_singleton, List.append_nil]
    · simp
    · intro f hf hlast
      exact hp f (List.mem_of_getLast? hlast) hf
  · rw [List.concat_eq_append, ← List.append_assoc]
    by_cases hf : f ∈ F
    · rw [expandLast_concat hf, expandLast_concat hf, List.map_map]
      simp [Function.comp_def]
    · have hother : ∀ q : List Symbol, expandLast F expand (q ++ [f]) = [q ++ [f]] := by
        intro q
        apply expandLast_of_not_mem
        intro f' hf' hlast
        rw [List.getLast?_concat] at hlast
        cases hlast
        exact hf hf'
      rw [hother, hother, List.map_singleton, List.append_assoc]

/-- Symbols that do not occur need not be considered. -/
theorem expandLast_append_right {rhs : List Symbol} (h : ∀ a ∈ rhs, a ∉ F') :
    expandLast (F ++ F') expand rhs = expandLast F expand rhs := by
  unfold expandLast
  split
  · rfl
  next f hlast =>
    have hf : f ∉ F' := h f (List.mem_of_getLast? hlast)
    simp [hf]

theorem expandLast_alike {dedup : Bool} {rhs : List Symbol}
    (h : ∀ f ∈ F, rhs.getLast? = some f → Alike dedup (expand f) (expand' f)) :
    Alike dedup (expandLast F expand rhs) (expandLast F expand' rhs) := by
  unfold expandLast
  split
  · exact .refl _
  next f hlast =>
    split
    next hf => exact (h f hf hlast).map _
    · exact .refl _

/-! ## Expanding a symbol -/

namespace Grammar

/-- The symbol `f` is one of `F` and ends an alternative of `s`. -/
def Continues (g : Grammar) (F : List Symbol) (f s : Symbol) : Prop :=
  f ∈ F ∧ ∃ rhs ∈ g.rightSides s, rhs.getLast? = some f

/-- The alternatives of `s`, in which a last symbol that is one of `F` is replaced by each
alternative in its own expansion. -/
def expansion (g : Grammar) (F : List Symbol) (wf : WellFounded (g.Continues F)) (s : Symbol) :
    List (List Symbol) :=
  (g.rightSides s).attach.flatMap fun ⟨rhs, hrhs⟩ =>
    match hlast : rhs.getLast? with
    | none => [rhs]
    | some f =>
      if hf : f ∈ F then
        have : g.Continues F f s := ⟨hf, rhs, hrhs, hlast⟩
        (g.expansion F wf f).map (rhs.dropLast ++ ·)
      else [rhs]
termination_by wf.wrap s

theorem expansion_eq (g : Grammar) (F : List Symbol) (wf : WellFounded (g.Continues F))
    (s : Symbol) :
    g.expansion F wf s = (g.rightSides s).flatMap (expandLast F (g.expansion F wf)) := by
  rw [expansion]
  -- membership was kept for the sake of termination only
  have hattach : (g.rightSides s).flatMap (expandLast F (g.expansion F wf)) =
      (g.rightSides s).attach.flatMap fun rhs => expandLast F (g.expansion F wf) rhs.1 := by
    conv_lhs => rw [← List.attach_map_subtype_val (g.rightSides s), List.flatMap_map]
  rw [hattach]
  apply List.flatMap_congr
  rintro ⟨rhs, hrhs⟩ _
  dsimp only
  unfold expandLast
  split
  next hnone => rw [hnone]
  next f hsome => rw [hsome]; rfl

/-- Nothing is expanded if there are no continuations. -/
theorem expansion_nil (g : Grammar) (wf : WellFounded (g.Continues [])) (s : Symbol) :
    g.expansion [] wf s = g.rightSides s := by
  have hsame : ∀ rhs ∈ g.rightSides s, expandLast [] (g.expansion [] wf) rhs = [rhs] := by
    intro rhs _
    apply expandLast_of_not_mem
    intro f hf
    cases hf
  rw [expansion_eq, List.flatMap_congr hsame]
  exact List.flatMap_singleton' _

/-- Whatever solves the equation of the expansion is alike to it. -/
theorem alike_expansion {g : Grammar} {dedup : Bool} (wf : WellFounded (g.Continues F))
    {P : Symbol → Prop} (hF : ∀ f ∈ F, P f)
    (h : ∀ s, P s → Alike dedup (expand s) ((g.rightSides s).flatMap (expandLast F expand)))
    {s : Symbol} (hs : P s) : Alike dedup (expand s) (g.expansion F wf s) := by
  induction s using wf.induction with
  | _ s ih =>
    rw [expansion_eq]
    refine (h s hs).trans (Alike.flatMap_congr fun rhs hrhs => ?_)
    apply expandLast_alike
    intro f hf hlast
    exact ih f ⟨hf, rhs, hrhs, hlast⟩ (hF f hf)

end Grammar

end ContextFree
