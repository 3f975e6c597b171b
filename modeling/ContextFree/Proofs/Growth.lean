import Mathlib.Algebra.BigOperators.Group.List.Lemmas
import Mathlib.Algebra.Order.BigOperators.Group.List
import Mathlib.Algebra.Order.Ring.Nat
import ContextFree.Proofs.Dedup
import ContextFree.Proofs.NormalForm

/-!
# How far a grammar grows

A pass takes the members of each group out of a grammar and puts a head and what is left of the
members in. So whatever right sides cost, the grammar costs as much after the pass as before it,
apart from what the groups cost on either side (`Factored.totalCost_add`).

Counted in rules, a group costs one more than before, or less if equal suffixes are left out.
Counted in symbols, it does not cost more: two or more members have lost what they share, which is
not empty, and the head brings it back once, with one symbol behind it
(`Group.Of.length_head_add_totalCost_le`). A run adds that up over its passes.

The fresh symbols may have been in use before. This is no matter of closed grammars.
-/

namespace ContextFree

/-! ## Costs of right sides -/

/-- What sequences cost in all. -/
def totalCost (cost : List Symbol → Nat) (sequences : List (List Symbol)) : Nat :=
  (sequences.map cost).sum

section TotalCost

variable {cost : List Symbol → Nat} {l l' : List (List Symbol)}

theorem totalCost_append : totalCost cost (l ++ l') = totalCost cost l + totalCost cost l' := by
  rw [totalCost, List.map_append, List.sum_append]
  rfl

theorem totalCost_perm (h : l.Perm l') : totalCost cost l = totalCost cost l' :=
  (h.map cost).sum_nat

theorem totalCost_map {α : Type} (f : α → List Symbol) (as : List α) :
    totalCost cost (as.map f) = (as.map fun a => cost (f a)).sum := by
  rw [totalCost, List.map_map]
  rfl

theorem totalCost_flatMap {α : Type} (f : α → List (List Symbol)) (as : List α) :
    totalCost cost (as.flatMap f) = (as.map fun a => totalCost cost (f a)).sum := by
  induction as with
  | nil => rfl
  | cons a as ih => rw [List.flatMap_cons, totalCost_append, ih, List.map_cons, List.sum_cons]

theorem totalCost_one : totalCost (fun _ => 1) l = l.length := by
  rw [totalCost, List.map_const', List.sum_replicate_nat, Nat.mul_one]

/-- Sequences that are left out cost nothing. -/
theorem totalCost_le_of_subperm (h : l.Subperm l') : totalCost cost l ≤ totalCost cost l' := by
  obtain ⟨kept, hperm, hsub⟩ := h
  rw [← totalCost_perm hperm]
  exact (hsub.map cost).sum_le_sum fun _ _ => Nat.zero_le _

end TotalCost

namespace Grammar

/-- The right sides of the rules, in order. -/
def allRightSides (g : Grammar) : List (List Symbol) :=
  g.rules.map (·.rhs)

/-- How many symbols the right sides have in all. -/
def volume (g : Grammar) : Nat :=
  (g.rules.map fun r => r.rhs.length).sum

theorem totalCost_length (g : Grammar) : totalCost List.length g.allRightSides = g.volume :=
  totalCost_map Rule.rhs g.rules

theorem length_allRightSides (g : Grammar) : g.allRightSides.length = g.rules.length :=
  List.length_map _

/-- Up to order, the right sides are those of one symbol and those of the others. -/
theorem allRightSides_perm (g : Grammar) (s : Symbol) :
    g.allRightSides.Perm (g.rightSides s ++ (g.rules.filter (·.lhs ≠ s)).map (·.rhs)) := by
  have hsplit := List.filter_append_perm (fun r : Rule => decide (r.lhs = s)) g.rules
  rw [allRightSides, rightSides_eq, ← List.map_append]
  simpa using hsplit.symm.map (·.rhs)

end Grammar

namespace Factoring

/-! ## Groups -/

section Group

variable {alternatives : List (List Symbol)} {G : Group}

/-- The members are what they share and what is left of them. -/
theorem Group.Of.totalCost_sequences (h : G.Of alternatives) :
    totalCost List.length (G.sequences alternatives) =
      G.members.length * G.shared.length +
        totalCost List.length (suffixes false alternatives G) := by
  rw [← h.length_sequences, ← h.length_suffixes, ← h.map_suffixes, totalCost_map]
  simp only [List.length_append, List.sum_map_add, List.map_const', List.sum_replicate_nat]
  rfl

/-- The head and what is left of a group have no more symbols than its members. -/
theorem Group.Of.length_head_add_totalCost_le (h : G.Of alternatives) (dedup : Bool)
    (fresh : Symbol) :
    (G.shared ++ [fresh]).length + totalCost List.length (suffixes dedup alternatives G) ≤
      totalCost List.length (G.sequences alternatives) := by
  have hleft : totalCost List.length (suffixes dedup alternatives G) ≤
      totalCost List.length (suffixes false alternatives G) :=
    totalCost_le_of_subperm (suffixes_subperm h dedup)
  have hshared : 0 < G.shared.length := List.length_pos_of_ne_nil h.shared_ne_nil
  -- what is shared has been there twice at least
  have htwice : 2 * G.shared.length ≤ G.members.length * G.shared.length :=
    Nat.mul_le_mul_right _ h.two_le
  rw [h.totalCost_sequences, List.length_append, List.length_singleton]
  omega

end Group

/-! ## Passes -/

namespace Factored

variable {o : Options} {s : Symbol} {fresh : List Symbol} {g g' : Grammar}

theorem map_rhs_factoredRules {dedup : Bool} {s : Symbol} {alternatives : List (List Symbol)}
    {marked : List (Group × Symbol)} :
    (factoredRules dedup s alternatives marked).map (·.rhs) =
      heads alternatives marked ++ marked.flatMap fun m => suffixes dedup alternatives m.1 := by
  rw [factoredRules, tails, List.map_append, List.map_flatMap]
  simp [List.map_map, Function.comp_def]

/-- After a pass the members of the groups are gone, and there are heads and suffixes instead. -/
theorem totalCost_add (h : Factored o s fresh g g') (cost : List Symbol → Nat) :
    totalCost cost g'.allRightSides + (((g.groups o.policy s).zip fresh).map fun m =>
        totalCost cost (m.1.sequences (g.rightSides s))).sum =
      totalCost cost g.allRightSides + (((g.groups o.policy s).zip fresh).map fun m =>
        cost (m.1.shared ++ [m.2]) +
          totalCost cost (suffixes o.dedup (g.rightSides s) m.1)).sum := by
  have hmark := h.marking
  have hrules := (g.rules_replaceAlternatives_perm s (factoredRules o.dedup s (g.rightSides s)
    ((g.groups o.policy s).zip fresh))).map (·.rhs)
  rw [← h.rules_eq, List.map_append, map_rhs_factoredRules] at hrules
  have hnew : totalCost cost g'.allRightSides = _ := totalCost_perm hrules
  have hold : totalCost cost g.allRightSides = _ := totalCost_perm (g.allRightSides_perm s)
  -- alternatives in no group and the rules of the other symbols are on both sides
  rw [totalCost_append, totalCost_append, totalCost_perm hmark.heads_perm, totalCost_append,
    totalCost_flatMap, totalCost_map fun m : Group × Symbol => m.1.shared ++ [m.2]] at hnew
  rw [totalCost_append, totalCost_perm hmark.alternatives_perm, totalCost_append,
    totalCost_flatMap] at hold
  rw [hnew, hold, List.sum_map_add]
  omega

/-- Each group has its head, and a rule for each suffix in place of one for each member. -/
theorem length_rules_add (h : Factored o s fresh g g') :
    g'.rules.length + (((g.groups o.policy s).zip fresh).map fun m =>
        (m.1.sequences (g.rightSides s)).length).sum =
      g.rules.length + fresh.length + (((g.groups o.policy s).zip fresh).map fun m =>
        (suffixes o.dedup (g.rightSides s) m.1).length).sum := by
  have hadd := h.totalCost_add fun _ => 1
  simp only [totalCost_one, Grammar.length_allRightSides] at hadd
  rw [hadd, List.sum_map_add, List.map_const', List.sum_replicate_nat, List.length_zip,
    ← h.length_fresh, Nat.min_self, Nat.mul_one, Nat.add_assoc]

theorem length_rules_le (h : Factored o s fresh g g') :
    g'.rules.length ≤ g.rules.length + fresh.length := by
  have hadd := h.length_rules_add
  have hleft : (((g.groups o.policy s).zip fresh).map fun m =>
        (suffixes o.dedup (g.rightSides s) m.1).length).sum ≤
      (((g.groups o.policy s).zip fresh).map fun m =>
        (m.1.sequences (g.rightSides s)).length).sum := by
    refine List.sum_le_sum fun m hm => ?_
    have hof := h.marking.of_mem m hm
    rw [← hof.length_suffixes]
    exact (suffixes_subperm hof o.dedup).length_le
  omega

/-- If repetitions are kept, a pass makes one more rule for each fresh symbol. -/
theorem length_rules_eq (h : Factored o s fresh g g') (hd : o.dedup = false) :
    g'.rules.length = g.rules.length + fresh.length := by
  have hadd := h.length_rules_add
  have hall : (((g.groups o.policy s).zip fresh).map fun m =>
        (suffixes o.dedup (g.rightSides s) m.1).length) =
      (((g.groups o.policy s).zip fresh).map fun m =>
        (m.1.sequences (g.rightSides s)).length) := by
    refine List.map_congr_left fun m hm => ?_
    rw [hd, (h.marking.of_mem m hm).length_suffixes]
  rw [hall] at hadd
  omega

/-- A pass does not make the right sides longer in all. -/
theorem volume_le (h : Factored o s fresh g g') : g'.volume ≤ g.volume := by
  have hadd := h.totalCost_add List.length
  have hgroups : (((g.groups o.policy s).zip fresh).map fun m =>
        (m.1.shared ++ [m.2]).length +
          totalCost List.length (suffixes o.dedup (g.rightSides s) m.1)).sum ≤
      (((g.groups o.policy s).zip fresh).map fun m =>
        totalCost List.length (m.1.sequences (g.rightSides s))).sum :=
    List.sum_le_sum fun m hm =>
      (h.marking.of_mem m hm).length_head_add_totalCost_le o.dedup m.2
  rw [Grammar.totalCost_length, Grammar.totalCost_length] at hadd
  omega

end Factored

/-! ## Runs -/

namespace Passes

variable {o : Options} {fresh : List Symbol} {g g' : Grammar}

theorem length_rules_le (h : Passes o g fresh g') :
    g'.rules.length ≤ g.rules.length + fresh.length := by
  induction h with
  | nil g => exact Nat.le_refl _
  | cons hpass _ ih =>
    have hfirst := hpass.length_rules_le
    rw [List.length_append]
    omega

theorem length_rules_eq (h : Passes o g fresh g') (hd : o.dedup = false) :
    g'.rules.length = g.rules.length + fresh.length := by
  induction h with
  | nil g => rfl
  | cons hpass _ ih => rw [ih, hpass.length_rules_eq hd, List.length_append, Nat.add_assoc]

theorem volume_le (h : Passes o g fresh g') : g'.volume ≤ g.volume := by
  induction h with
  | nil g => exact Nat.le_refl _
  | cons hpass _ ih => exact ih.trans hpass.volume_le

end Passes

/-- A run makes one more rule for each fresh symbol, or fewer if repetitions are left out, and does
not make the right sides longer in all. -/
theorem growth_bounded {o : Options} {run : Run} {fresh : List Symbol} {w w' : Workspace}
    (h : run.perform o w = .ok (.ok fresh) w') :
    (o.dedup = false → w'.grammar.rules.length = w.grammar.rules.length + fresh.length) ∧
    w'.grammar.rules.length ≤ w.grammar.rules.length + fresh.length ∧
    w'.grammar.volume ≤ w.grammar.volume := by
  have hpasses := passes_of_run h
  exact ⟨hpasses.length_rules_eq, hpasses.length_rules_le, hpasses.volume_le⟩

/-- The first fresh symbol is the one that is being factored, and there are three more rules. If
repetitions are left out there may be fewer. -/
theorem growth_bounded_reissued :
    (∃ w', Run.all.perform {} (.ofGrammar reissued) =
        .ok (.ok [.numbered 0, .numbered 1, .numbered 2]) w' ∧
      w'.grammar.rules.length = reissued.rules.length + 3 ∧
      w'.grammar.volume ≤ reissued.volume) ∧
    ∃ w', (Run.fully (.numbered 0)).perform ⟨.grouped, true⟩ (.ofGrammar repeatedSuffixes) =
        .ok (.ok [.numbered 4, .numbered 5, .numbered 6]) w' ∧
      w'.grammar.rules.length ≤ repeatedSuffixes.rules.length + 3 ∧
      w'.grammar.volume ≤ repeatedSuffixes.volume := by
  have hall : Run.all.fresh? {} (.ofGrammar reissued) =
      some [.numbered 0, .numbered 1, .numbered 2] := by decide +kernel
  have hfully : Run.fresh? ⟨.grouped, true⟩ (.fully (.numbered 0)) (.ofGrammar repeatedSuffixes) =
      some [.numbered 4, .numbered 5, .numbered 6] := by decide +kernel
  obtain ⟨w, hw⟩ := Run.exists_of_fresh? hall
  obtain ⟨w', hw'⟩ := Run.exists_of_fresh? hfully
  obtain ⟨hcount, -, hvolume⟩ := growth_bounded hw
  obtain ⟨-, hcount', hvolume'⟩ := growth_bounded hw'
  exact ⟨⟨w, hw, hcount rfl, hvolume⟩, w', hw', hcount', hvolume'⟩

end Factoring

end ContextFree
