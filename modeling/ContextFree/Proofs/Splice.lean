import ContextFree.Proofs.Renaming
import ContextFree.Proofs.Replacement

/-!
# Replacements in lists of rules

To replace the rules of a symbol is to put a block of rules into a list of rules, where the symbol
has its first rule (`Grammar.rules_replaceAlternatives_splice`). Blocks for two symbols can be put
in in either order, if neither has rules for the other symbol (`splice_comm`). And to replace rules
inside a block that is there already is to put in another block (`splice_splice`), so however often
that is done, a list of rules has changed by one block.
-/

namespace ContextFree

/-- The list of rules with a block of rules in place of those of `s`, where the first of them was,
or at the end if there was none. -/
def splice (s : Symbol) (block : List Rule) : List Rule → List Rule
  | [] => block
  | r :: rest =>
    if r.lhs = s then block ++ rest.filter (·.lhs ≠ s) else r :: splice s block rest

/-- The symbol is `s`, or has no rule among those around a block for `s`. -/
def Inside (s : Symbol) (around : List Rule) (t : Symbol) : Prop :=
  t = s ∨ ∀ r ∈ around, r.lhs ≠ t

variable {s t : Symbol} {block rules : List Rule}

theorem Inside.lhs_ne (h : Inside s rules t) {r : Rule} (hr : r ∈ rules) (hs : r.lhs ≠ s) :
    r.lhs ≠ t := by
  rcases h with rfl | hnone
  · exact hs
  · exact hnone r hr

theorem Inside.tail {r : Rule} (h : Inside s (r :: rules) t) : Inside s rules t :=
  h.imp_right fun hnone r' hr' => hnone r' (List.mem_cons_of_mem r hr')

theorem Grammar.rules_replaceAlternatives_splice (g : Grammar) (s : Symbol) (block : List Rule) :
    (g.replaceAlternatives s block).rules = splice s block g.rules := by
  rw [rules_replaceAlternatives_eq]
  induction g.rules with
  | nil => simp [splice]
  | cons r rest ih =>
    by_cases h : r.lhs = s
    · simp [splice, h]
    · rw [List.takeWhile_cons_of_pos (by simpa using h),
        List.dropWhile_cons_of_pos (by simpa using h), splice, if_neg h, List.cons_append,
        List.cons_append, ih]

theorem mem_splice {r : Rule} :
    r ∈ splice s block rules ↔ r ∈ block ∨ (r ∈ rules ∧ r.lhs ≠ s) := by
  induction rules with
  | nil => simp [splice]
  | cons r' rest ih =>
    rw [splice, List.mem_cons]
    split
    next h =>
      rw [List.mem_append, List.mem_filter, decide_eq_true_eq]
      constructor
      · rintro (hblock | ⟨hrest, hne⟩)
        · exact .inl hblock
        · exact .inr ⟨.inr hrest, hne⟩
      · rintro (hblock | ⟨rfl | hrest, hne⟩)
        · exact .inl hblock
        · exact absurd h hne
        · exact .inr ⟨hrest, hne⟩
    next h =>
      rw [List.mem_cons, ih]
      constructor
      · rintro (rfl | hblock | ⟨hrest, hne⟩)
        · exact .inr ⟨.inl rfl, h⟩
        · exact .inl hblock
        · exact .inr ⟨.inr hrest, hne⟩
      · rintro (hblock | ⟨rfl | hrest, hne⟩)
        · exact .inr (.inl hblock)
        · exact .inl rfl
        · exact .inr (.inr ⟨hrest, hne⟩)

theorem splice_map (σ : Equiv.Perm Symbol) (s : Symbol) (block rules : List Rule) :
    splice (σ s) (block.map (Rule.rename σ)) (rules.map (Rule.rename σ)) =
      (splice s block rules).map (Rule.rename σ) := by
  induction rules with
  | nil => rfl
  | cons r rest ih =>
    have hlhs : ∀ r' : Rule, (Rule.rename σ r').lhs = σ s ↔ r'.lhs = s := fun r' =>
      σ.injective.eq_iff
    rw [List.map_cons, splice, splice]
    by_cases h : r.lhs = s
    · have hfilter : (rest.map (Rule.rename σ)).filter (·.lhs ≠ σ s) =
          (rest.filter (·.lhs ≠ s)).map (Rule.rename σ) := by
        rw [List.filter_map]
        congr 1
        exact List.filter_congr fun r' _ => decide_eq_decide.mpr (not_congr (hlhs r'))
      rw [if_pos ((hlhs r).mpr h), if_pos h, hfilter, List.map_append]
    · rw [if_neg (mt (hlhs r).mp h), if_neg h, ih, List.map_cons]

/-! ## Two blocks -/

theorem splice_append_of_ne (h : ∀ r ∈ rules, r.lhs ≠ s) (later : List Rule) :
    splice s block (rules ++ later) = rules ++ splice s block later := by
  induction rules with
  | nil => rfl
  | cons r rest ih =>
    rw [List.forall_mem_cons] at h
    rw [List.cons_append, splice, if_neg h.1, ih h.2, List.cons_append]

theorem splice_append_of_mem (h : ∃ r ∈ rules, r.lhs = s) (later : List Rule) :
    splice s block (rules ++ later) = splice s block rules ++ later.filter (·.lhs ≠ s) := by
  induction rules with
  | nil => simp at h
  | cons r rest ih =>
    rw [List.cons_append, splice, splice]
    by_cases hr : r.lhs = s
    · rw [if_pos hr, if_pos hr, List.filter_append, List.append_assoc]
    · rw [List.exists_mem_cons_iff] at h
      rw [if_neg hr, if_neg hr, ih (h.resolve_left hr), List.cons_append]

/-- To take the rules of another symbol away does not move a block. -/
theorem filter_splice (hst : s ≠ t) (hblock : ∀ r ∈ block, r.lhs ≠ t) :
    (splice s block rules).filter (·.lhs ≠ t) = splice s block (rules.filter (·.lhs ≠ t)) := by
  have hkeep : block.filter (·.lhs ≠ t) = block := by
    rw [List.filter_eq_self]
    exact fun r hr => decide_eq_true (hblock r hr)
  induction rules with
  | nil => exact hkeep
  | cons r rest ih =>
    rw [splice]
    by_cases hs : r.lhs = s
    · have ht : r.lhs ≠ t := fun h => hst (hs.symm.trans h)
      rw [if_pos hs, List.filter_append, hkeep, List.filter_cons_of_pos (by simpa using ht), splice,
        if_pos hs, List.filter_filter, List.filter_filter]
      simp only [Bool.and_comm]
    · rw [if_neg hs]
      by_cases ht : r.lhs = t
      · rw [List.filter_cons_of_neg (by simpa using ht),
          List.filter_cons_of_neg (by simpa using ht), ih]
      · rw [List.filter_cons_of_pos (by simpa using ht),
          List.filter_cons_of_pos (by simpa using ht), ih, splice, if_neg hs]

/-- Blocks for two symbols are put in in either order, if neither has rules for the other symbol.
If neither symbol had a rule, both blocks would come to the end, one before the other. -/
theorem splice_comm {block' : List Rule} (hst : s ≠ t) (hs : ∃ r ∈ rules, r.lhs = s)
    (hblock : ∀ r ∈ block, r.lhs ≠ t) (hblock' : ∀ r ∈ block', r.lhs ≠ s) :
    splice s block (splice t block' rules) = splice t block' (splice s block rules) := by
  induction rules with
  | nil => simp at hs
  | cons r rest ih =>
    by_cases hrs : r.lhs = s
    · -- the first block comes here, and the other one somewhere behind it
      have hrt : r.lhs ≠ t := fun h => hst (hrs.symm.trans h)
      rw [splice, if_neg hrt, splice, if_pos hrs, splice, if_pos hrs, splice_append_of_ne hblock,
        filter_splice hst.symm hblock']
    · by_cases hrt : r.lhs = t
      · rw [splice, if_pos hrt, splice, if_neg hrs, splice, if_pos hrt,
          splice_append_of_ne hblock', filter_splice hst hblock]
      · rw [List.exists_mem_cons_iff] at hs
        rw [splice, if_neg hrt, splice, if_neg hrs, splice, if_neg hrs, splice, if_neg hrt,
          ih (hs.resolve_left hrs)]

/-- Rules inside a block are replaced in the block. -/
theorem splice_splice {new : List Rule} (ht : Inside s rules t) (hblock : ∃ r ∈ block, r.lhs = t) :
    splice t new (splice s block rules) = splice s (splice t new block) rules := by
  induction rules with
  | nil => rfl
  | cons r rest ih =>
    rw [splice, splice]
    by_cases hs : r.lhs = s
    · have hkeep : (rest.filter (·.lhs ≠ s)).filter (·.lhs ≠ t) = rest.filter (·.lhs ≠ s) := by
        rw [List.filter_eq_self]
        intro r' hr'
        obtain ⟨hmem, hne⟩ := List.mem_filter.mp hr'
        exact decide_eq_true (ht.tail.lhs_ne hmem (of_decide_eq_true hne))
      rw [if_pos hs, if_pos hs, splice_append_of_mem hblock, hkeep]
    · have hrt := ht.lhs_ne (List.mem_cons_self ..) hs
      rw [if_neg hs, if_neg hs, splice, if_neg hrt, ih ht.tail]

/-- The rules of a symbol inside a block are those in the block. -/
theorem filter_splice_inside (ht : Inside s rules t) :
    (splice s block rules).filter (·.lhs = t) = block.filter (·.lhs = t) := by
  induction rules with
  | nil => rfl
  | cons r rest ih =>
    rw [splice]
    by_cases hs : r.lhs = s
    · have hnone : (rest.filter (·.lhs ≠ s)).filter (·.lhs = t) = [] := by
        rw [List.filter_eq_nil_iff]
        intro r' hr' hlhs
        obtain ⟨hmem, hne⟩ := List.mem_filter.mp hr'
        exact ht.tail.lhs_ne hmem (of_decide_eq_true hne) (of_decide_eq_true hlhs)
      rw [if_pos hs, List.filter_append, hnone, List.append_nil]
    · have hrt := ht.lhs_ne (List.mem_cons_self ..) hs
      rw [if_neg hs, List.filter_cons_of_neg (by simpa using hrt), ih ht.tail]

/-! ## Changes that may be refused -/

/-- The list of rules with a block in place of the rules of `s`, or as it was if there is no block.
-/
def change (s : Symbol) : Option (List Rule) → List Rule → List Rule
  | none, rules => rules
  | some block, rules => splice s block rules

theorem change_map (σ : Equiv.Perm Symbol) (s : Symbol) (block? : Option (List Rule))
    (rules : List Rule) :
    change (σ s) (block?.map (List.map (Rule.rename σ))) (rules.map (Rule.rename σ)) =
      (change s block? rules).map (Rule.rename σ) := by
  cases block? with
  | none => rfl
  | some block => exact splice_map σ s block rules

theorem change_comm {block? block'? : Option (List Rule)} (hst : s ≠ t)
    (hs : ∃ r ∈ rules, r.lhs = s) (hblock : ∀ block ∈ block?, ∀ r ∈ block, r.lhs ≠ t)
    (hblock' : ∀ block ∈ block'?, ∀ r ∈ block, r.lhs ≠ s) :
    change s block? (change t block'? rules) = change t block'? (change s block? rules) := by
  cases block? with
  | none => rfl
  | some block =>
    cases block'? with
    | none => rfl
    | some block' => exact splice_comm hst hs (hblock block rfl) (hblock' block' rfl)

end ContextFree
