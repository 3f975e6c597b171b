import Mathlib.Algebra.BigOperators.Group.List.Lemmas
import Mathlib.Algebra.Order.BigOperators.Group.List
import Mathlib.Algebra.Order.Ring.Nat
import ContextFree.Proofs.CommonGroups
import ContextFree.Proofs.Index
import ContextFree.Proofs.Language
import ContextFree.Proofs.Worklist

/-!
# How many symbols a run introduces

The fresh symbols of a run on a closed grammar are the inner nodes of trees whose leaves are
alternatives, and each of them takes two or more of these together. So a run pays for its fresh
symbols out of the alternatives: each symbol that waits to be factored has a `budget`, which is one
less than the number of its alternatives, or two less if they have nothing in common at their
beginning. A pass takes from the budget of its symbol enough for its fresh symbols and for their
budgets (`Marking.sum_budget_add_length_le`), because what is left of a group has nothing in common
(`commonPrefix_suffixes`).

A run may come to its end, be refused, or run out of symbols halfway: the bound holds for the
vocabulary after it, whatever it came to.
-/

namespace ContextFree

namespace Factoring

/-! ## Budgets -/

/-- How many fresh symbols factoring the alternatives fully can take. -/
def budget (alternatives : List (List Symbol)) : Nat :=
  alternatives.length - if commonPrefix alternatives = [] then 2 else 1

theorem budget_lt {alternatives : List (List Symbol)} (h : alternatives ≠ []) :
    budget alternatives < alternatives.length := by
  have hpos : 0 < alternatives.length := List.length_pos_of_ne_nil h
  unfold budget
  split <;> omega

theorem budget_suffixes_add_two_le {policy : Policy} {alternatives : List (List Symbol)}
    {G : Group} (h : G ∈ groups policy alternatives) (dedup : Bool) :
    budget (suffixes dedup alternatives G) + 2 ≤ G.members.length := by
  have hof := of_mem_groups h
  have hlen : (suffixes dedup alternatives G).length ≤ G.members.length := by
    rw [← hof.length_sequences, ← hof.length_suffixes]
    exact (suffixes_subperm hof dedup).length_le
  have htwo := hof.two_le
  rw [budget, if_pos (commonPrefix_suffixes h dedup)]
  omega

namespace Marking

variable {alternatives : List (List Symbol)} {marked : List (Group × Symbol)}

/-- Every alternative is in no group or in one. -/
theorem length_eq (h : Marking alternatives marked) :
    alternatives.length = (ungrouped alternatives marked).length +
      (marked.map fun m => m.1.members.length).sum := by
  have hlen := h.alternatives_perm.length_eq
  have hmembers : marked.map (fun m => (m.1.sequences alternatives).length) =
      marked.map fun m => m.1.members.length :=
    List.map_congr_left fun m hm => (h.of_mem m hm).length_sequences
  rw [List.length_append, List.length_flatMap, hmembers] at hlen
  exact hlen

/-- If there is one group and it has all alternatives, these begin alike. -/
theorem commonPrefix_ne_nil_of_all {m : Group × Symbol} (h : Marking alternatives [m])
    (hfree : ungrouped alternatives [m] = []) : commonPrefix alternatives ≠ [] := by
  have hperm := h.alternatives_perm
  rw [hfree, List.nil_append, List.flatMap_singleton] at hperm
  have hof := h.of_mem m (List.mem_singleton_self m)
  obtain ⟨a, shared, hshared⟩ := List.exists_cons_of_ne_nil hof.shared_ne_nil
  rw [commonPrefix_ne_nil_iff]
  refine ⟨?_, a, fun rhs hrhs => ?_⟩
  · rw [hperm.length_eq, hof.length_sequences]
    exact hof.two_le
  · rw [head?_of_begins hof.shared_ne_nil (hof.shared_begins (hperm.mem_iff.mp hrhs)), hshared]
    rfl

end Marking

/-- The budget of the alternatives pays for a fresh symbol of each group and for the budgets of
these. -/
theorem Marking.sum_budget_add_length_le {policy : Policy} {alternatives : List (List Symbol)}
    {marked : List (Group × Symbol)} (h : Marking alternatives marked)
    (hgroups : ∀ m ∈ marked, m.1 ∈ groups policy alternatives) (hne : marked ≠ []) (dedup : Bool) :
    (marked.map fun m => budget (suffixes dedup alternatives m.1)).sum + marked.length ≤
      budget alternatives := by
  have hall := h.length_eq
  have hpos : 0 < marked.length := List.length_pos_of_ne_nil hne
  -- a group leaves its fresh symbol a budget that is less by two than the number of its members
  have hsum : (marked.map fun m => budget (suffixes dedup alternatives m.1) + 2).sum ≤
      (marked.map fun m => m.1.members.length).sum :=
    List.sum_le_sum fun m hm => budget_suffixes_add_two_le (hgroups m hm) dedup
  rw [List.sum_map_add, List.map_const', List.sum_replicate_nat] at hsum
  unfold budget at hsum ⊢
  split
  next hnil =>
    -- one group that has all alternatives would leave them something in common
    have htwo : 2 ≤ (ungrouped alternatives marked).length + marked.length := by
      by_contra hshort
      match marked, h, hpos with
      | [m], h, _ =>
        have hfree : ungrouped alternatives [m] = [] := by
          rw [← List.length_eq_zero_iff]
          simp only [List.length_singleton] at hshort
          omega
        exact h.commonPrefix_ne_nil_of_all hfree hnil
      | _ :: _ :: _, _, _ =>
        simp only [List.length_cons] at hshort
        omega
    omega
  · omega

theorem length_groups_le_budget {policy : Policy} {alternatives : List (List Symbol)}
    (hne : groups policy alternatives ≠ []) :
    (groups policy alternatives).length ≤ budget alternatives := by
  have hmark : Marking alternatives ((groups policy alternatives).zip
      (List.replicate (groups policy alternatives).length Symbol.first)) :=
    marking_zip policy alternatives List.length_replicate
  have hsum := hmark.sum_budget_add_length_le (fun m hm => (List.of_mem_zip hm).1)
    (by simpa using hne) false
  rw [List.length_zip, List.length_replicate, Nat.min_self] at hsum
  omega

/-! ## Charges -/

/-- The budgets of the symbols that wait to be factored. -/
def charge (g : Grammar) (waiting : List Symbol) : Nat :=
  (waiting.map fun t => budget (g.rightSides t)).sum

theorem charge_cons (g : Grammar) (s : Symbol) (waiting : List Symbol) :
    charge g (s :: waiting) = budget (g.rightSides s) + charge g waiting := by
  rw [charge, List.map_cons, List.sum_cons]
  rfl

theorem charge_append (g : Grammar) (waiting later : List Symbol) :
    charge g (waiting ++ later) = charge g waiting + charge g later := by
  rw [charge, List.map_append, List.sum_append]
  rfl

theorem charge_congr {g g' : Grammar} {waiting : List Symbol}
    (h : ∀ t ∈ waiting, g'.rightSides t = g.rightSides t) :
    charge g' waiting = charge g waiting := by
  rw [charge, charge, List.map_congr_left fun t ht => congrArg budget (h t ht)]

/-- Different symbols of a closed grammar wait to be factored. -/
structure Waiting (g : Grammar) (waiting : List Symbol) : Prop where
  closed : g.Closed
  nodup : waiting.Nodup
  issued : ∀ t ∈ waiting, g.Issued t

variable {o : Options} {s : Symbol} {queue others fresh : List Symbol} {g g' : Grammar}

theorem Waiting.tail (h : Waiting g (s :: others)) : Waiting g others :=
  ⟨h.closed, (List.nodup_cons.mp h.nodup).2, fun t ht => h.issued t (List.mem_cons_of_mem s ht)⟩

/-- Passes over other symbols leave a symbol waiting. -/
theorem Waiting.of_passes (h : Waiting g others) (hpasses : Passes o g fresh g') :
    Waiting g' others :=
  ⟨hpasses.closed h.closed, h.nodup, fun t ht => hpasses.issued_of h.closed (h.issued t ht)⟩

/-- The fresh symbols of a pass and the others wait after it. -/
theorem Waiting.of_factored (h : Waiting g (s :: others)) (hpass : Factored o s fresh g g') :
    Waiting g' (fresh ++ others) := by
  refine ⟨hpass.closed h.closed, ?_, ?_⟩
  · refine (hpass.fresh_nodup h.closed).append (List.nodup_cons.mp h.nodup).2 ?_
    intro t hfresh ht
    exact hpass.not_issued h.closed hfresh (h.issued t (List.mem_cons_of_mem s ht))
  · intro t ht
    rcases List.mem_append.mp ht with hfresh | hold
    · exact hpass.issued_fresh h.closed hfresh
    · exact hpass.issued_of h.closed (h.issued t (List.mem_cons_of_mem s hold))

theorem Waiting.perm {waiting later : List Symbol} (h : Waiting g waiting)
    (hperm : waiting.Perm later) : Waiting g later :=
  ⟨h.closed, hperm.nodup_iff.mp h.nodup, fun t ht => h.issued t (hperm.mem_iff.mpr ht)⟩

theorem charge_perm {waiting later : List Symbol} (hperm : waiting.Perm later) :
    charge g waiting = charge g later :=
  (hperm.map _).sum_nat

/-- What a pass issues is paid for by those that wait. -/
theorem Waiting.size_add_charge_le (h : Waiting g (s :: others))
    (hpass : Factored o s fresh g g') :
    g'.vocabulary.size + charge g' (fresh ++ others) ≤
      g.vocabulary.size + charge g (s :: others) := by
  have hothers : charge g' others = charge g others := by
    refine charge_congr fun t ht => hpass.rightSides_of_ne ?_ ?_
    · rintro rfl
      exact (List.nodup_cons.mp h.nodup).1 ht
    · intro hfresh
      exact hpass.not_issued h.closed hfresh (h.issued t (List.mem_cons_of_mem s ht))
  have hfresh : charge g' fresh + fresh.length ≤ budget (g.rightSides s) := by
    have hne : (g.groups o.policy s).zip fresh ≠ [] := by
      have hlen := hpass.length_fresh
      have hpos := List.length_pos_of_ne_nil hpass.groups_ne_nil
      rw [← List.length_pos_iff, List.length_zip]
      omega
    have hsum := hpass.marking.sum_budget_add_length_le
      (fun m hm => (List.of_mem_zip hm).1) hne o.dedup
    have hcharge : charge g' fresh = (((g.groups o.policy s).zip fresh).map fun m =>
        budget (suffixes o.dedup (g.rightSides s) m.1)).sum := by
      conv_lhs => rw [charge, ← hpass.map_snd_zip, List.map_map]
      exact congrArg List.sum (List.map_congr_left fun m hm =>
        congrArg budget (hpass.rightSides_fresh h.closed hm))
    rw [List.length_zip, hpass.length_fresh, Nat.min_self] at hsum
    rw [hcharge, hpass.length_fresh]
    exact hsum
  rw [charge_append, charge_cons, hothers, hpass.size_eq h.closed]
  omega

/-- The fresh symbols join the queue, before the others that wait. -/
theorem Waiting.join (h : Waiting g (s :: (queue ++ others))) (hpass : Factored o s fresh g g') :
    Waiting g' ((queue ++ fresh) ++ others) ∧
      g'.vocabulary.size + charge g' ((queue ++ fresh) ++ others) ≤
        g.vocabulary.size + charge g (s :: (queue ++ others)) := by
  have hperm : (fresh ++ (queue ++ others)).Perm ((queue ++ fresh) ++ others) := by
    rw [← List.append_assoc]
    exact List.perm_append_comm.append_right others
  rw [← charge_perm hperm]
  exact ⟨(h.of_factored hpass).perm hperm, h.size_add_charge_le hpass⟩

/-- A pass that runs out of symbols has issued fewer than its symbol could pay for. -/
theorem size_le_of_factor_error {e : OutOfSymbols} {w w' : Workspace}
    (h : factor o s w = .error e w') (others : List Symbol) :
    w'.vocabulary.size + charge w'.grammar others ≤
      w.vocabulary.size + charge w.grammar (s :: others) := by
  obtain ⟨hne, -, hrules, hlt⟩ := of_factor_error h
  have hpaid : (w.grammar.groups o.policy s).length ≤ budget (w.grammar.rightSides s) :=
    length_groups_le_budget hne
  have hothers : charge w'.grammar others = charge w.grammar others :=
    charge_congr fun t _ => congrFun (Grammar.rightSides_congr hrules) t
  rw [hothers, charge_cons]
  omega

/-! ## Runs -/

/-- Draining a queue costs what those in it can pay, and leaves the others what they have. -/
theorem size_add_charge_drain_le {w : Workspace} (h : Waiting w.grammar (queue ++ others)) :
    (Outcome.state (drain o queue w)).vocabulary.size +
        charge (Outcome.state (drain o queue w)).grammar others ≤
      w.vocabulary.size + charge w.grammar (queue ++ others) := by
  fun_induction drain o queue w with
  | case1 w => exact Nat.le_refl _
  | case2 w s rest fresh w₁ hfactor _ later w₂ hdrain ih =>
    have hpass := factored_of_factor hfactor
    obtain ⟨hwaiting, hpaid⟩ := Waiting.join h hpass
    have hlater := ih hwaiting
    rw [hdrain] at hlater
    exact hlater.trans hpaid
  | case3 w s rest fresh w₁ hfactor _ e w₂ hdrain ih =>
    have hpass := factored_of_factor hfactor
    obtain ⟨hwaiting, hpaid⟩ := Waiting.join h hpass
    have hlater := ih hwaiting
    rw [hdrain] at hlater
    exact hlater.trans hpaid
  | case4 w s rest t hfactor ih =>
    have hlater := ih h.tail
    rw [List.cons_append, charge_cons]
    exact hlater.trans (Nat.add_le_add_left (Nat.le_add_left _ _) _)
  | case5 w s rest r w₁ _ hfactor =>
    cases eq_of_factor_refused hfactor
    rw [charge_append]
    exact Nat.add_le_add_left (Nat.le_add_left _ _) _
  | case6 w s rest e w₁ hfactor =>
    have hpaid := size_le_of_factor_error hfactor (rest ++ others)
    rw [charge_append] at hpaid
    exact (Nat.add_le_add_left (Nat.le_add_left _ _) _).trans hpaid

/-- A fixed point costs what its symbol can pay, and leaves the others what they have. -/
theorem size_add_charge_factorFully_le {w : Workspace} (h : Waiting w.grammar (s :: others)) :
    (Outcome.state (factorFully o s w)).vocabulary.size +
        charge (Outcome.state (factorFully o s w)).grammar others ≤
      w.vocabulary.size + charge w.grammar (s :: others) := by
  rw [factorFully_apply]
  cases hfactor : factor o s w with
  | ok answer w₁ =>
    cases answer with
    | error r =>
      cases eq_of_factor_refused hfactor
      rw [charge_cons]
      exact Nat.add_le_add_left (Nat.le_add_left _ _) _
    | ok first =>
      have hpass := factored_of_factor hfactor
      have hlater := size_add_charge_drain_le (o := o) (h.of_factored hpass)
      have hpaid := h.size_add_charge_le hpass
      dsimp only
      cases hdrain : drain o first w₁ with
      | ok later w₂ =>
        rw [hdrain] at hlater
        exact hlater.trans hpaid
      | error e w₂ =>
        rw [hdrain] at hlater
        exact hlater.trans hpaid
  | error e w₁ => exact size_le_of_factor_error hfactor others

theorem size_factorEach_le {symbols : List Symbol} {w : Workspace}
    (h : Waiting w.grammar symbols) :
    (Outcome.state (factorEach o symbols w)).vocabulary.size ≤
      w.vocabulary.size + charge w.grammar symbols := by
  induction symbols generalizing w with
  | nil => exact Nat.le_refl _
  | cons s rest ih =>
    have hfirst := size_add_charge_factorFully_le (o := o) h
    rw [factorEach, Action.bind_apply]
    cases hfully : factorFully o s w with
    | ok answer w₁ =>
      have hwaiting : Waiting w₁.grammar rest := by
        cases answer with
        | error r =>
          cases eq_of_factorFully_refused hfully
          exact h.tail
        | ok fresh => exact h.tail.of_passes (passes_of_factorFully hfully)
      have hrest := ih hwaiting
      rw [hfully] at hfirst
      dsimp only
      rw [Action.bind_apply]
      cases heach : factorEach o rest w₁ with
      | ok later w₂ =>
        rw [heach] at hrest
        exact hrest.trans hfirst
      | error e w₂ =>
        rw [heach] at hrest
        exact hrest.trans hfirst
    | error e w₁ =>
      rw [hfully] at hfirst
      exact (Nat.le_add_right _ _).trans hfirst

/-! ## Rules and nonterminals -/

/-- Each rule is an alternative of one nonterminal. -/
theorem sum_length_rightSides (g : Grammar) :
    (g.nonterminals.map fun t => (g.rightSides t).length).sum = g.rules.length := by
  have hcount : ∀ t, (g.rightSides t).length = (g.rules.map (·.lhs)).count t := by
    intro t
    rw [Grammar.rightSides_eq, List.length_map, ← List.countP_eq_length_filter,
      List.count_eq_countP, List.countP_map]
    exact List.countP_congr fun r _ => by simp
  have hperm : g.nonterminals.Perm (g.rules.map (·.lhs)).dedup := by
    rw [Grammar.nonterminals_eq, List.perm_ext_iff_of_nodup (nodup_eraseDups _)
      (List.nodup_dedup _)]
    intro t
    rw [List.mem_eraseDups, List.mem_dedup]
  simp only [hcount]
  rw [(hperm.map _).sum_nat, List.sum_map_count_dedup_eq_length, List.length_map]

/-- The nonterminals of a grammar can pay for one symbol less than there are rules, each. -/
theorem charge_nonterminals_add_length_le (g : Grammar) :
    charge g g.nonterminals + g.nonterminals.length ≤ g.rules.length := by
  have hsum : (g.nonterminals.map fun t => budget (g.rightSides t) + 1).sum ≤
      (g.nonterminals.map fun t => (g.rightSides t).length).sum := by
    refine List.sum_le_sum fun t ht => budget_lt ?_
    exact Grammar.isNonterminal_iff_rightSides.mp (Grammar.mem_nonterminals.mp ht)
  rw [List.sum_map_add, List.map_const', List.sum_replicate_nat, sum_length_rightSides,
    Nat.mul_one] at hsum
  exact hsum

theorem waiting_nonterminals (hc : g.Closed) : Waiting g g.nonterminals := by
  refine ⟨hc, ?_, fun t ht => hc.issued_of_isNonterminal (Grammar.mem_nonterminals.mp ht)⟩
  rw [Grammar.nonterminals_eq]
  exact nodup_eraseDups _

theorem size_factorFully_le (o : Options) (s : Symbol) {w : Workspace} (hc : w.grammar.Closed) :
    (Outcome.state (factorFully o s w)).vocabulary.size ≤
      w.vocabulary.size + (w.grammar.numAlternatives s - 1) := by
  rw [Grammar.numAlternatives_eq]
  by_cases hnt : w.grammar.isNonterminal s = true
  · have hwaiting : Waiting w.grammar [s] :=
      ⟨hc, List.nodup_singleton s, fun t ht =>
        List.mem_singleton.mp ht ▸ hc.issued_of_isNonterminal hnt⟩
    have hpaid := size_add_charge_factorFully_le (o := o) hwaiting
    have hbudget := budget_lt (Grammar.isNonterminal_iff_rightSides.mp hnt)
    rw [charge_cons] at hpaid
    simp only [charge, List.map_nil, List.sum_nil, Nat.add_zero] at hpaid
    omega
  · rw [Bool.not_eq_true] at hnt
    have hrefused : factorFully o s w = .ok (.error (.notNonterminal s)) w := by
      rw [factorFully_refused_iff, factor_eq_notNonterminal_iff]
      exact ⟨rfl, rfl, hnt⟩
    rw [hrefused]
    exact Nat.le_add_right _ _

theorem size_factorAll_le (o : Options) {w : Workspace} (hc : w.grammar.Closed) :
    (Outcome.state (factorAll o w)).vocabulary.size + w.grammar.nonterminals.length ≤
      w.vocabulary.size + w.grammar.rules.length := by
  have hpaid := size_factorEach_le (o := o) (waiting_nonterminals hc)
  have hrules := charge_nonterminals_add_length_le w.grammar
  rw [factorAll_apply]
  omega

/-! ## The end of a fixed point -/

/-- A fixed point is refused, or it runs out of symbols in its first pass, or the turns of its loop
come to an empty queue or to a symbol for which no room is left. No symbol is in the loop twice, so
up to an empty queue each fresh symbol is taken once.

In a closed grammar a fixed point introduces fewer symbols than its symbol has alternatives, and
factoring the whole grammar introduces at most as many as there are rules less nonterminals, even
where they run out of symbols. -/
theorem fixed_point_ends (o : Options) (w : Workspace) :
    (∀ s,
      (∃ r, factorFully o s w = .ok (.error r) w) ∨
      (∃ e w', factor o s w = .error e w' ∧ factorFully o s w = .error e w' ∧ w'.room = 0) ∨
      ∃ first w₁, factor o s w = .ok (.ok first) w₁ ∧
        (∀ taken c, Turns o ⟨first, w₁⟩ taken c → (taken ++ c.queue).Nodup) ∧
        ((∃ fresh w', factorFully o s w = .ok (.ok fresh) w' ∧
            Turns o ⟨first, w₁⟩ fresh ⟨[], w'⟩) ∨
          ∃ e w' taken t rest w₂, factorFully o s w = .error e w' ∧
            Turns o ⟨first, w₁⟩ taken ⟨t :: rest, w₂⟩ ∧
            factor o t (w₂.revisit t) = .error e w' ∧ w'.room = 0)) ∧
    (w.grammar.Closed →
      (∀ s, (Outcome.state (factorFully o s w)).vocabulary.size ≤
        w.vocabulary.size + (w.grammar.numAlternatives s - 1)) ∧
      (∀ s fresh w', factorFully o s w = .ok (.ok fresh) w' →
        fresh.length ≤ w.grammar.numAlternatives s - 1) ∧
      (Outcome.state (factorAll o w)).vocabulary.size + w.grammar.nonterminals.length ≤
        w.vocabulary.size + w.grammar.rules.length ∧
      ∀ fresh w', factorAll o w = .ok fresh w' →
        fresh.length + w.grammar.nonterminals.length ≤ w.grammar.rules.length) := by
  constructor
  · intro s
    cases hfully : factorFully o s w with
    | ok answer w' =>
      cases answer with
      | error r =>
        cases eq_of_factorFully_refused hfully
        exact .inl ⟨r, rfl⟩
      | ok fresh =>
        obtain ⟨first, w₁, later, hfactor, hdrains, rfl⟩ := of_factorFully hfully
        refine .inr (.inr ⟨first, w₁, hfactor, fun taken c => nodup_of_turns hfactor, .inl ?_⟩)
        exact ⟨_, w', rfl, turns_of_drains hdrains⟩
    | error e w' =>
      rcases of_factorFully_error hfully with hfactor | ⟨first, w₁, hfactor, hdrain⟩
      · exact .inr (.inl ⟨e, w', hfactor, rfl, (of_factor_error hfactor).2.1⟩)
      · obtain ⟨taken, t, rest, w₂, hturns, herror⟩ := exists_turns_of_drain_error hdrain
        refine .inr (.inr ⟨first, w₁, hfactor, fun taken c => nodup_of_turns hfactor, .inr ?_⟩)
        exact ⟨e, w', taken, t, rest, w₂, rfl, hturns, herror, (of_factor_error herror).2.1⟩
  · intro hc
    refine ⟨fun s => size_factorFully_le o s hc, ?_, size_factorAll_le o hc, ?_⟩
    · intro s fresh w' h
      have hle := size_factorFully_le o s hc
      have hsize : w'.vocabulary.size = w.vocabulary.size + fresh.length :=
        (passes_of_factorFully h).extends.size_eq
      rw [h] at hle
      simp only [Outcome.state] at hle
      omega
    · intro fresh w' h
      have hle := size_factorAll_le o hc
      have hsize : w'.vocabulary.size = w.vocabulary.size + fresh.length := by
        rw [factorAll_apply] at h
        exact (passes_of_factorEach h).extends.size_eq
      rw [h] at hle
      simp only [Outcome.state] at hle
      omega

/-- Four alternatives of symbol 0, each of which begins with the ones before it, and one of
symbol 1. -/
def chain : Grammar :=
  .unnamed 2
    [⟨.numbered 0, [.numbered 1]⟩,
     ⟨.numbered 0, [.numbered 1, .numbered 1]⟩,
     ⟨.numbered 0, [.numbered 1, .numbered 1, .numbered 1]⟩,
     ⟨.numbered 0, [.numbered 1, .numbered 1, .numbered 1, .numbered 1]⟩,
     ⟨.numbered 1, []⟩]

/-- Three symbols are introduced one after the other, as many as the bounds allow. -/
theorem fixed_point_ends_chain :
    chain.Closed ∧ chain.numAlternatives (.numbered 0) - 1 = 3 ∧
    chain.rules.length = 3 + chain.nonterminals.length ∧
    (∃ first w₁ w', factor {} (.numbered 0) (.ofGrammar chain) = .ok (.ok first) w₁ ∧
      factorFully {} (.numbered 0) (.ofGrammar chain) =
        .ok (.ok [.numbered 2, .numbered 3, .numbered 4]) w' ∧
      Turns {} ⟨first, w₁⟩ [.numbered 2, .numbered 3, .numbered 4] ⟨[], w'⟩ ∧
      [Symbol.numbered 2, .numbered 3, .numbered 4].Nodup ∧
      [Symbol.numbered 2, .numbered 3, .numbered 4].length ≤
        chain.numAlternatives (.numbered 0) - 1) ∧
    ∃ w', factorAll {} (.ofGrammar chain) =
        .ok [.numbered 2, .numbered 3, .numbered 4] w' ∧
      [Symbol.numbered 2, .numbered 3, .numbered 4].length + chain.nonterminals.length ≤
        chain.rules.length := by
  have hclosed : chain.Closed := by decide +kernel
  have hfully : Run.fresh? {} (.fully (.numbered 0)) (.ofGrammar chain) =
      some [.numbered 2, .numbered 3, .numbered 4] := by decide +kernel
  have hall : Run.fresh? {} .all (.ofGrammar chain) =
      some [.numbered 2, .numbered 3, .numbered 4] := by decide +kernel
  obtain ⟨w', hw'⟩ := Run.exists_of_fresh? hfully
  obtain ⟨w'', hw''⟩ := Run.exists_of_fresh? hall
  obtain ⟨fresh, heq, hw''⟩ := perform_all_eq_ok_iff.mp hw''
  cases heq
  have hw' : factorFully {} (.numbered 0) (.ofGrammar chain) =
      .ok (.ok [.numbered 2, .numbered 3, .numbered 4]) w' := hw'
  obtain ⟨hends, hbound⟩ := fixed_point_ends {} (.ofGrammar chain)
  obtain ⟨-, hfew, -, hfewAll⟩ := hbound hclosed
  refine ⟨hclosed, by decide +kernel, by decide +kernel, ?_, w'', hw'', hfewAll _ w'' hw''⟩
  rcases hends (.numbered 0) with ⟨r, hr⟩ | ⟨e, w₂, -, he, -⟩ | ⟨first, w₁, hfirst, hnodup, hend⟩
  · rw [hw'] at hr
    cases hr
  · rw [hw'] at he
    cases he
  · rcases hend with ⟨fresh, w₂, hfresh, hturns⟩ | ⟨e, w₂, _, _, _, _, he, -⟩
    · rw [hw'] at hfresh
      cases hfresh
      exact ⟨first, w₁, w', hfirst, hw', hturns, hnodup _ _ hturns, hfew _ _ w' hw'⟩
    · rw [hw'] at he
      cases he

end Factoring

end ContextFree
