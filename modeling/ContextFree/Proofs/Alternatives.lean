import Mathlib.Data.List.Induction
import Mathlib.Data.List.Basic
import Mathlib.Data.List.TakeWhile
import Mathlib.Tactic.Tauto
import ContextFree.Factoring.Group

/-!
# The rules of a symbol

A grammar answers questions about the rules of a symbol from its index. Here the answers are read
off the rules themselves: the alternatives of a symbol are the rules with that left side, in order
(`Grammar.alternatives_eq`), and a symbol is a nonterminal if there is such a rule
(`Grammar.isNonterminal_iff`).

Replacing the alternatives of a symbol then only moves the rules of that symbol:
`Grammar.rightSides_replaceAlternatives_of_ne` is the frame of a replacement.
-/

namespace ContextFree

/-! ## Positions of entries -/

theorem mem_positions {α : Type} (l : List α) (p : α → Bool) {i : Nat} :
    i ∈ (l.zipIdx.filter fun entry => p entry.1).map (·.2) ↔
      ∃ a, l[i]? = some a ∧ p a = true := by
  rw [List.mem_map]
  constructor
  · rintro ⟨⟨a, j⟩, hmem, rfl⟩
    rcases List.mem_filter.mp hmem with ⟨hmem, ha⟩
    exact ⟨a, List.mem_zipIdx_iff_getElem?.mp hmem, ha⟩
  · rintro ⟨a, hi, ha⟩
    exact ⟨(a, i), List.mem_filter.mpr ⟨List.mem_zipIdx_iff_getElem?.mpr hi, ha⟩, rfl⟩

theorem positions_ascending {α : Type} (l : List α) (p : α → Bool) :
    ((l.zipIdx.filter fun entry => p entry.1).map (·.2)).Pairwise (· < ·) := by
  have hsub : ((l.zipIdx.filter fun entry => p entry.1).map (·.2)).Sublist
      (l.zipIdx.map (·.2)) := List.filter_sublist.map _
  rw [List.zipIdx_map_snd] at hsub
  exact List.Pairwise.sublist hsub List.pairwise_lt_range'

/-- Looking up the positions of the entries that satisfy `p` finds these entries. -/
theorem filterMap_getElem?_positions {α : Type} (l : List α) (p : α → Bool) :
    ((l.zipIdx.filter fun entry => p entry.1).map (·.2)).filterMap (l[·]?) = l.filter p := by
  have hlook : ∀ entry ∈ l.zipIdx.filter (fun entry => p entry.1),
      ((l[·]?) ∘ (·.2)) entry = some entry.1 := by
    intro entry hentry
    exact List.mem_zipIdx_iff_getElem?.mp (List.mem_filter.mp hentry).1
  have hmap : (l.zipIdx.filter fun entry => p entry.1).map (·.1) = l.filter p := by
    have h := List.filter_map (f := Prod.fst) (p := p) (l := l.zipIdx)
    rw [List.zipIdx_map_fst] at h
    exact h.symm
  rw [List.filterMap_map, List.filterMap_congr hlook, List.filterMap_eq_map', hmap]

/-- Looking up all positions finds all entries. -/
theorem filterMap_getElem?_range {α : Type} (l : List α) :
    (List.range l.length).filterMap (l[·]?) = l := by
  have h := filterMap_getElem?_positions l fun _ => true
  rwa [List.filter_true, List.filter_true, List.zipIdx_map_snd, ← List.range_eq_range'] at h

namespace RuleIndex

/-- The index of a list of rules has the positions of the rules with a given left side. -/
theorem positions_ofRules (rules : List Rule) (s : Symbol) :
    (ofRules rules).positions s =
      (rules.zipIdx.filter (·.1.lhs = s)).map (·.2) := by
  -- the index is built from the first rule to the last, so the induction takes rules off the end
  induction rules using List.reverseRecOn with
  | nil => rfl
  | append_singleton rules r ih =>
    rw [ofRules_concat, positions_push (sound_ofRules rules), ih, List.zipIdx_append,
      List.filter_append, List.map_append]
    by_cases h : s = r.lhs
    · simp [h]
    · simp [h, Ne.symm h]

/-- The index of a list of rules knows the left sides of the rules. -/
theorem contains_ofRules (rules : List Rule) (s : Symbol) :
    (ofRules rules).contains s = true ↔ ∃ r ∈ rules, r.lhs = s := by
  induction rules using List.reverseRecOn with
  | nil => simp [ofRules, contains, slot?, empty]
  | append_singleton rules r ih =>
    rw [ofRules_concat, contains_push, Bool.or_eq_true, decide_eq_true_eq, ih]
    constructor
    · rintro (h | ⟨r', hr', h⟩)
      · exact ⟨r, by simp, h.symm⟩
      · exact ⟨r', by simp [hr'], h⟩
    · rintro ⟨r', hr', h⟩
      rcases List.mem_append.mp hr' with hold | hnew
      · exact .inr ⟨r', hold, h⟩
      · rw [List.mem_singleton] at hnew
        exact .inl (by rw [← h, hnew])

end RuleIndex

namespace Grammar

theorem index_sound (g : Grammar) : g.index.Sound := by
  rw [g.index_eq]
  exact RuleIndex.sound_ofRules g.rules

/-! ## Alternatives -/

/-- The alternatives of a symbol are the rules with that left side, in order. -/
theorem alternatives_eq (g : Grammar) (s : Symbol) :
    g.alternatives s = g.rules.filter (·.lhs = s) := by
  rw [alternatives, g.index_eq, RuleIndex.positions_ofRules]
  exact filterMap_getElem?_positions g.rules (·.lhs = s)

theorem rightSides_eq (g : Grammar) (s : Symbol) :
    g.rightSides s = (g.rules.filter (·.lhs = s)).map (·.rhs) := by
  rw [rightSides, alternatives_eq]

theorem alternatives_eq_map (g : Grammar) (s : Symbol) :
    g.alternatives s = (g.rightSides s).map (Rule.mk s) := by
  have hjoin : ∀ r ∈ g.rules.filter (·.lhs = s), (Rule.mk s ∘ (·.rhs)) r = id r := by
    intro r hr
    have hlhs : r.lhs = s := of_decide_eq_true (List.mem_filter.mp hr).2
    rw [← hlhs]
    rfl
  rw [rightSides_eq, alternatives_eq, List.map_map, List.map_congr_left hjoin, List.map_id]

theorem numAlternatives_eq (g : Grammar) (s : Symbol) :
    g.numAlternatives s = (g.rightSides s).length := by
  have hmap : (g.rules.zipIdx.filter fun entry => decide (entry.1.lhs = s)).map (·.1) =
      g.rules.filter fun r => decide (r.lhs = s) := by
    have h := List.filter_map (f := Prod.fst) (p := fun r : Rule => decide (r.lhs = s))
      (l := g.rules.zipIdx)
    rw [List.zipIdx_map_fst] at h
    exact h.symm
  rw [numAlternatives, g.index_eq, RuleIndex.positions_ofRules, List.length_map, rightSides_eq,
    List.length_map, ← hmap, List.length_map]

theorem rightSides_congr {g h : Grammar} (hrules : g.rules = h.rules) :
    g.rightSides = h.rightSides := by
  funext s
  rw [rightSides_eq, rightSides_eq, hrules]

theorem mem_rightSides {g : Grammar} {s : Symbol} {rhs : List Symbol} :
    rhs ∈ g.rightSides s ↔ ⟨s, rhs⟩ ∈ g.rules := by
  rw [rightSides_eq, List.mem_map]
  constructor
  · rintro ⟨⟨lhs, rhs'⟩, hr, rfl⟩
    rcases List.mem_filter.mp hr with ⟨hr, hlhs⟩
    have hlhs : lhs = s := of_decide_eq_true hlhs
    rwa [← hlhs]
  · intro hr
    exact ⟨⟨s, rhs⟩, List.mem_filter.mpr ⟨hr, decide_eq_true rfl⟩, rfl⟩

/-- The nonterminals are the left sides of the rules. -/
theorem isNonterminal_iff {g : Grammar} {s : Symbol} :
    g.isNonterminal s = true ↔ ∃ r ∈ g.rules, r.lhs = s := by
  rw [isNonterminal, g.index_eq, RuleIndex.contains_ofRules]

theorem isNonterminal_iff_rightSides {g : Grammar} {s : Symbol} :
    g.isNonterminal s = true ↔ g.rightSides s ≠ [] := by
  rw [isNonterminal_iff]
  constructor
  · rintro ⟨⟨lhs, rhs⟩, hr, rfl⟩
    exact List.ne_nil_of_mem (mem_rightSides.mpr hr)
  · intro h
    rcases List.exists_mem_of_ne_nil _ h with ⟨rhs, hrhs⟩
    exact ⟨⟨s, rhs⟩, mem_rightSides.mp hrhs, rfl⟩

theorem rightSides_eq_nil_iff {g : Grammar} {s : Symbol} :
    g.rightSides s = [] ↔ ¬ g.isNonterminal s = true := by
  rw [isNonterminal_iff_rightSides, not_not]

theorem mem_nonterminals {g : Grammar} {s : Symbol} :
    s ∈ g.nonterminals ↔ g.isNonterminal s = true :=
  g.index_sound.contains_iff.symm

/-! ## Replacing alternatives -/

theorem head?_positions (g : Grammar) (s : Symbol) :
    (g.index.positions s).head? = g.rules.findIdx? (·.lhs = s) := by
  rw [g.index_eq, RuleIndex.positions_ofRules, List.head?_map, List.head?_filter,
    List.findIdx?_eq_fst_find?_zipIdx]

/-- Once the new rules are in, the walk only leaves rules out. -/
theorem replaceAlong_none (s : Symbol) (place : Option Nat) (rules : List Rule) (n : Nat) :
    replaceAlong s place none (rules.zipIdx n) = rules.filter (·.lhs ≠ s) := by
  induction rules generalizing n with
  | nil => rfl
  | cons r rules ih =>
    have hrest := ih (n + 1)
    rw [List.zipIdx_cons, replaceAlong, hrest, List.filter_cons]
    by_cases hr : r.lhs = s <;> simp [hr]

/-- The walk takes the rules before the first one of `s` as they are, and puts the new rules in
there, or at its end. -/
theorem replaceAlong_some (s : Symbol) (new rules : List Rule) (n : Nat) :
    replaceAlong s ((rules.findIdx? (·.lhs = s)).map (· + n)) (some new) (rules.zipIdx n) =
      rules.takeWhile (·.lhs ≠ s) ++ new ++
        (rules.dropWhile (·.lhs ≠ s)).filter (·.lhs ≠ s) := by
  induction rules generalizing n with
  | nil => simp [replaceAlong]
  | cons r rules ih =>
    rw [List.zipIdx_cons, replaceAlong, List.findIdx?_cons]
    by_cases hr : r.lhs = s
    · -- the walk has come to the place
      simp [hr, replaceAlong_none]
    · -- the place is further on, where it is the place for the rest
      have hplace : ((rules.findIdx? (·.lhs = s)).map (· + 1)).map (· + n) =
          (rules.findIdx? (·.lhs = s)).map (· + (n + 1)) := by
        rw [Option.map_map]
        exact congrArg (Option.map · _) (funext fun i => Nat.add_right_comm ..)
      have hlater : some n ≠ (rules.findIdx? (·.lhs = s)).map (· + (n + 1)) := by
        intro heq
        obtain ⟨i, -, hi⟩ := Option.map_eq_some_iff.mp heq.symm
        omega
      have hrest := ih (n + 1)
      simp only [hr, decide_false, Bool.false_eq_true, if_false, hplace, if_neg hlater, hrest]
      simp [hr]

/-- The new rules come in place of the first rule of the symbol, and the later ones are taken away.
-/
theorem rules_replaceAlternatives_eq (g : Grammar) (s : Symbol) (new : List Rule) :
    (g.replaceAlternatives s new).rules =
      g.rules.takeWhile (·.lhs ≠ s) ++ new ++
        (g.rules.dropWhile (·.lhs ≠ s)).filter (·.lhs ≠ s) := by
  have hplace : (g.index.positions s).head? =
      (g.rules.findIdx? (·.lhs = s)).map (· + 0) := by
    rw [head?_positions]
    simp
  rw [replaceAlternatives, hplace]
  exact replaceAlong_some s new g.rules 0

theorem lhs_ne_of_mem_takeWhile {s : Symbol} {rules : List Rule} {r : Rule}
    (hr : r ∈ rules.takeWhile (·.lhs ≠ s)) : r.lhs ≠ s := by
  have h := List.mem_takeWhile_imp hr
  simpa using h

theorem filter_takeWhile_ne (s : Symbol) (rules : List Rule) :
    (rules.takeWhile (·.lhs ≠ s)).filter (·.lhs ≠ s) = rules.takeWhile (·.lhs ≠ s) := by
  rw [List.filter_eq_self]
  exact fun r hr => decide_eq_true (lhs_ne_of_mem_takeWhile hr)

/-- Up to order, the new rules come to those of the other symbols. -/
theorem rules_replaceAlternatives_perm (g : Grammar) (s : Symbol) (new : List Rule) :
    (g.replaceAlternatives s new).rules.Perm (new ++ g.rules.filter (·.lhs ≠ s)) := by
  have hkept : g.rules.filter (·.lhs ≠ s) =
      g.rules.takeWhile (·.lhs ≠ s) ++ (g.rules.dropWhile (·.lhs ≠ s)).filter (·.lhs ≠ s) := by
    conv_lhs => rw [← List.takeWhile_append_dropWhile (p := (·.lhs ≠ s)) (l := g.rules)]
    rw [List.filter_append, filter_takeWhile_ne]
  rw [rules_replaceAlternatives_eq, hkept, ← List.append_assoc]
  exact List.perm_append_comm.append_right _

theorem rules_replaceAlternatives_congr {g h : Grammar} (hrules : g.rules = h.rules) (s : Symbol)
    (new : List Rule) :
    (g.replaceAlternatives s new).rules = (h.replaceAlternatives s new).rules := by
  simp only [replaceAlternatives, ofRules, g.index_eq, h.index_eq, hrules]

theorem mem_rules_replaceAlternatives {g : Grammar} {s : Symbol} {new : List Rule} {r : Rule} :
    r ∈ (g.replaceAlternatives s new).rules ↔ (r ∈ g.rules ∧ r.lhs ≠ s) ∨ r ∈ new := by
  rw [(g.rules_replaceAlternatives_perm s new).mem_iff, List.mem_append, List.mem_filter,
    decide_eq_true_eq, or_comm]

/-- Of the rules of a symbol none is left when they are taken away. -/
theorem filter_eq_filter_ne_self (s : Symbol) (rules : List Rule) :
    (rules.filter (·.lhs ≠ s)).filter (·.lhs = s) = [] := by
  rw [List.filter_filter, List.filter_eq_nil_iff]
  intro r _ h
  simp at h

/-- Taking the rules of a symbol away takes none of another one away. -/
theorem filter_eq_filter_ne {s t : Symbol} (hts : t ≠ s) (rules : List Rule) :
    (rules.filter (·.lhs ≠ s)).filter (·.lhs = t) = rules.filter (·.lhs = t) := by
  rw [List.filter_filter]
  apply List.filter_congr
  intro r _
  by_cases h : r.lhs = t
  · simp [h, hts]
  · simp [h]

/-- A symbol that is replaced has the new rules for it and no other. -/
theorem alternatives_replaceAlternatives_self (g : Grammar) (s : Symbol) (new : List Rule) :
    (g.replaceAlternatives s new).alternatives s = new.filter (·.lhs = s) := by
  rw [alternatives_eq, rules_replaceAlternatives_eq, ← filter_takeWhile_ne, List.filter_append,
    List.filter_append, filter_eq_filter_ne_self, filter_eq_filter_ne_self, List.nil_append,
    List.append_nil]

/-- The rules of a symbol are before or after a place. -/
theorem alternatives_eq_append (g : Grammar) (p : Rule → Bool) (t : Symbol) :
    g.alternatives t =
      (g.rules.takeWhile p).filter (·.lhs = t) ++ (g.rules.dropWhile p).filter (·.lhs = t) := by
  rw [alternatives_eq, ← List.filter_append, List.takeWhile_append_dropWhile]

/-- A symbol that is not replaced has its new rules between those of its old ones that are before
the place and those that are after it. -/
theorem alternatives_replaceAlternatives_of_ne (g : Grammar) {s t : Symbol} (new : List Rule)
    (hts : t ≠ s) :
    (g.replaceAlternatives s new).alternatives t =
      (g.rules.takeWhile (·.lhs ≠ s)).filter (·.lhs = t) ++ new.filter (·.lhs = t) ++
        (g.rules.dropWhile (·.lhs ≠ s)).filter (·.lhs = t) := by
  rw [alternatives_eq, rules_replaceAlternatives_eq, List.filter_append, List.filter_append,
    filter_eq_filter_ne hts]

theorem rightSides_replaceAlternatives_self (g : Grammar) (s : Symbol) (new : List Rule) :
    (g.replaceAlternatives s new).rightSides s = (new.filter (·.lhs = s)).map (·.rhs) := by
  rw [rightSides, alternatives_replaceAlternatives_self]

/-- A symbol that is not replaced and gets no new rule keeps its alternatives. -/
theorem rightSides_replaceAlternatives_of_ne {g : Grammar} {s t : Symbol} {new : List Rule}
    (hts : t ≠ s) (hnew : ∀ r ∈ new, r.lhs ≠ t) :
    (g.replaceAlternatives s new).rightSides t = g.rightSides t := by
  have hnone : new.filter (·.lhs = t) = [] := by
    rw [List.filter_eq_nil_iff]
    intro r hr h
    exact hnew r hr (of_decide_eq_true h)
  rw [rightSides, alternatives_replaceAlternatives_of_ne g new hts, hnone, List.append_nil,
    ← alternatives_eq_append, rightSides]

/-- A symbol that had no rule has the new rules for it. -/
theorem rightSides_replaceAlternatives_of_nil {g : Grammar} {s t : Symbol} (new : List Rule)
    (hts : t ≠ s) (hnil : g.rightSides t = []) :
    (g.replaceAlternatives s new).rightSides t =
      (new.filter (·.lhs = t)).map (·.rhs) := by
  have hnone : g.alternatives t = [] := List.map_eq_nil_iff.mp hnil
  rw [g.alternatives_eq_append (·.lhs ≠ s), List.append_eq_nil_iff] at hnone
  rw [rightSides, alternatives_replaceAlternatives_of_ne g new hts, hnone.1, hnone.2,
    List.nil_append, List.append_nil]

end Grammar

end ContextFree
