import Mathlib.Logic.Equiv.Basic
import ContextFree.Proofs.Budget
import ContextFree.Proofs.Mirroring

/-!
# The order of runs

Runs over two symbols of a closed grammar leave each other's alternatives alone, so either run comes
to the same before the other and after it, up to the numbers of its fresh symbols. Those of the run
that comes first are as many lower as the other run has fresh symbols (`Symbol.exchange`), and with
them exchanged the rules are the same, in the same order (`runs_commute`).

The names of fresh symbols may differ in more than that, because each is the first one of its kind
that is free when it is issued.
-/

namespace ContextFree

namespace Symbol

/-- The number that `i` becomes when the `a` numbers from `n` on change places with the `b` numbers
behind them. -/
def exchangeId (n a b i : Nat) : Nat :=
  if i < n then i else if i < n + a then i + b else if i < n + a + b then i - a else i

theorem exchangeId_exchangeId (n a b i : Nat) : exchangeId n b a (exchangeId n a b i) = i := by
  unfold exchangeId
  split_ifs <;> omega

theorem exchangeId_lt {n a b i : Nat} (h : n + a + b ≤ 4294967295) (hi : i < 4294967295) :
    exchangeId n a b i < 4294967295 := by
  unfold exchangeId
  split_ifs <;> omega

/-- The `a` symbols from number `n` on change places with the `b` symbols behind them. -/
def exchange {n a b : Nat} (h : n + a + b ≤ 4294967295) : Equiv.Perm Symbol where
  toFun s := ⟨exchangeId n a b s.id, exchangeId_lt h s.id_lt⟩
  invFun s := ⟨exchangeId n b a s.id, exchangeId_lt (by omega) s.id_lt⟩
  left_inv s := Symbol.ext (exchangeId_exchangeId n a b s.id)
  right_inv s := Symbol.ext (exchangeId_exchangeId n b a s.id)

theorem exchange_of_lt {n a b : Nat} (h : n + a + b ≤ 4294967295) {s : Symbol} (hs : s.id < n) :
    exchange h s = s :=
  Symbol.ext (if_pos hs)

end Symbol

namespace Vocabulary.Next

variable {v v' : Vocabulary} {symbols : List Symbol}

/-- Symbols that would come first come after `b` others. -/
theorem exchange_first {b : Nat} (h : v.Next symbols)
    (hroom : v.size + symbols.length + b ≤ 4294967295) (hsize : v'.size = v.size + b) :
    v'.Next (symbols.map (Symbol.exchange hroom)) := by
  have hup : ∀ s ∈ symbols, (Symbol.exchange hroom s).id = b + s.id := by
    intro s hs
    rw [← Symbol.id_mem_map, h.ids, List.mem_range'_1] at hs
    simp only [Symbol.exchange, Equiv.coe_fn_mk, Symbol.exchangeId]
    split_ifs <;> omega
  constructor
  · rw [List.length_map]
    omega
  · rw [List.length_map, hsize, Nat.add_comm, ← List.map_add_range', ← h.ids, List.map_map,
      List.map_map]
    exact List.map_congr_left hup

/-- Symbols that would come after `a` others come first. -/
theorem exchange_second {a : Nat} (h : v'.Next symbols)
    (hroom : v.size + a + symbols.length ≤ 4294967295) (hsize : v'.size = v.size + a) :
    v.Next (symbols.map (Symbol.exchange hroom)) := by
  have hdown : ∀ s ∈ symbols, (Symbol.exchange hroom s).id = s.id - a := by
    intro s hs
    rw [← Symbol.id_mem_map, h.ids, List.mem_range'_1] at hs
    simp only [Symbol.exchange, Equiv.coe_fn_mk, Symbol.exchangeId]
    split_ifs <;> omega
  have hrange : (List.range' v'.size symbols.length).map (· - a) =
      List.range' v.size symbols.length := by
    rw [hsize, List.map_sub_range' (by omega), Nat.add_sub_cancel]
  constructor
  · rw [List.length_map]
    omega
  · rw [List.length_map, ← hrange, ← h.ids, List.map_map, List.map_map]
    exact List.map_congr_left hdown

end Vocabulary.Next

namespace Grammar.Closed

variable {g : Grammar} {σ : Equiv.Perm Symbol}

theorem rename_rightSides (h : g.Closed) (hσ : ∀ t, g.Issued t → σ t = t) (s : Symbol) :
    (g.rightSides s).map (List.map σ) = g.rightSides s := by
  have hrhs : ∀ rhs ∈ g.rightSides s, rhs.map σ = id rhs := by
    intro rhs hrhs
    have hsymbols : ∀ t ∈ rhs, σ t = id t := fun t ht =>
      hσ t (h.issued_of_mem_rightSides hrhs ht)
    rw [List.map_congr_left hsymbols, List.map_id, id]
  rw [List.map_congr_left hrhs, List.map_id]

/-- To rename symbols that are not issued does not change a closed grammar. -/
theorem rename_rules (h : g.Closed) (hσ : ∀ t, g.Issued t → σ t = t) :
    g.rules.map (Rule.rename σ) = g.rules := by
  have hrule : ∀ r ∈ g.rules, Rule.rename σ r = id r := by
    intro r hr
    have hsymbols : ∀ t ∈ r.rhs, σ t = id t := fun t ht => hσ t (h.rhs_issued r hr t ht)
    rw [Rule.rename, hσ r.lhs (h.lhs_issued r hr), List.map_congr_left hsymbols, List.map_id, id]
  rw [List.map_congr_left hrule, List.map_id]

end Grammar.Closed

namespace Factoring

variable {o : Options} {toEnd : Bool} {s t : Symbol} {answer : Except Refusal (List Symbol)}
  {w w' : Workspace}

/-! ## What a run leaves alone -/

theorem rightSides_of_drains {queue later : List Symbol} (h : Drains o queue w later w')
    (hc : w.grammar.Closed) (hqueue : t ∉ queue) (ht : w.grammar.Issued t) :
    w'.grammar.rightSides t = w.grammar.rightSides t := by
  induction h with
  | done w => rfl
  | @factored s rest fresh later w w₁ w' hfactor _ ih =>
    have hpass := factored_of_factor hfactor
    rw [List.mem_cons, not_or] at hqueue
    obtain ⟨hts, hrest⟩ := hqueue
    -- the fresh symbols that join the queue have not been issued before
    have hfresh : t ∉ fresh := fun hmem => hpass.not_issued hc hmem ht
    have hlater := ih (hpass.closed hc) (by simp [hrest, hfresh]) (hpass.issued_of hc ht)
    exact hlater.trans (hpass.rightSides_of_ne hts hfresh)
  | passedOver _ _ ih =>
    rw [List.mem_cons, not_or] at hqueue
    exact ih hc hqueue.2 ht

/-- A run over one symbol leaves the alternatives of every other one alone. -/
theorem rightSides_of_run_over (h : (Run.over toEnd s).perform o w = .ok answer w')
    (hc : w.grammar.Closed) (hts : t ≠ s) (ht : w.grammar.Issued t) :
    w'.grammar.rightSides t = w.grammar.rightSides t := by
  cases answer with
  | error r =>
    cases eq_of_run_refused h
    rfl
  | ok fresh =>
    cases toEnd with
    | false =>
      have hpass := factored_of_factor h
      exact hpass.rightSides_of_ne hts fun hmem => hpass.not_issued hc hmem ht
    | true =>
      obtain ⟨first, w₁, later, hfactor, hdrains, rfl⟩ := of_factorFully h
      have hpass := factored_of_factor hfactor
      have hfirst : t ∉ first := fun hmem => hpass.not_issued hc hmem ht
      have hlater := rightSides_of_drains hdrains (hpass.closed hc) hfirst (hpass.issued_of hc ht)
      exact hlater.trans (hpass.rightSides_of_ne hts hfirst)

/-- What a run issues, if it answers. -/
theorem next_of_run {run : Run} (h : run.perform o w = .ok answer w') (hc : w.grammar.Closed) :
    w.vocabulary.Next (answer.toOption.getD []) ∧
      w'.vocabulary.size = w.vocabulary.size + (answer.toOption.getD []).length ∧
      w'.grammar.Closed ∧
      ∀ t, w.grammar.isNonterminal t = true → w'.grammar.isNonterminal t = true := by
  cases answer with
  | error r =>
    cases eq_of_run_refused h
    exact ⟨⟨hc.size_le, rfl⟩, rfl, hc, fun _ ht => ht⟩
  | ok fresh =>
    have hpasses := passes_of_run h
    have hclosed := hpasses.closed hc
    exact ⟨hpasses.extends.next hclosed.size_le, hpasses.extends.size_eq, hclosed,
      fun t ht => hpasses.isNonterminal_of ht⟩

/-! ## Two runs -/

/-- Two runs, one after the other. -/
def Run.inTurn (o : Options) (first second : Run) :
    Action Workspace (Except Refusal (List Symbol) × Except Refusal (List Symbol)) := do
  let a ← first.perform o
  let b ← second.perform o
  return (a, b)

/-- The answers of two runs, if there was room for both. -/
def Run.answers? (o : Options) (first second : Run) (w : Workspace) :
    Option (Except Refusal (List Symbol) × Except Refusal (List Symbol)) :=
  match Run.inTurn o first second w with
  | .ok answers _ => some answers
  | .error .. => none

theorem inTurn_eq_ok_iff {first second : Run} {a b : Except Refusal (List Symbol)} :
    Run.inTurn o first second w = .ok (a, b) w' ↔
      ∃ w₁, first.perform o w = .ok a w₁ ∧ second.perform o w₁ = .ok b w' := by
  simp only [Run.inTurn, Action.bind_eq_ok_iff, Action.pure_apply, EStateM.Result.ok.injEq,
    Prod.mk.injEq]
  constructor
  · rintro ⟨a', w₁, ha, b', w₂, hb, ⟨rfl, rfl⟩, rfl⟩
    exact ⟨w₁, ha, hb⟩
  · rintro ⟨w₁, ha, hb⟩
    exact ⟨a, w₁, ha, b, w', hb, ⟨rfl, rfl⟩, rfl⟩

theorem getD_toOption_map (f : Symbol → Symbol) (answer : Except Refusal (List Symbol)) :
    (answer.map (List.map f)).toOption.getD [] = (answer.toOption.getD []).map f := by
  cases answer <;> rfl

/-- A mirror image of a block for `s` has no rules for another symbol that has rules around it. -/
theorem lhs_ne_of_inside {σ : Equiv.Perm Symbol} {block? : Option (List Rule)} {around : List Rule}
    (hst : s ≠ t) (hs : σ s = s) (ht : ∃ r ∈ around, r.lhs = t)
    (h : ∀ block ∈ block?, ∀ r ∈ block, Inside (σ s) around (σ r.lhs)) :
    ∀ block ∈ block?.map (List.map (Rule.rename σ)), ∀ r ∈ block, r.lhs ≠ t := by
  intro image himage r hr hlhs
  obtain ⟨block, hblock, rfl⟩ := Option.map_eq_some_iff.mp himage
  obtain ⟨r', hr', rfl⟩ := List.mem_map.mp hr
  obtain ⟨old, hold, holdlhs⟩ := ht
  rcases h block hblock r' hr' with heq | hnone
  · exact hst (hs.symm.trans (heq.symm.trans hlhs))
  · exact hnone old hold (holdlhs.trans hlhs.symm)

/-- The mirror images of two blocks, put in in the other order, make the mirror image of what the
blocks make. -/
theorem change_swap {σ : Equiv.Perm Symbol} {blockS blockT : Option (List Rule)}
    {rules : List Rule} (hσs : σ s = s) (hσt : σ t = t)
    (hrules : rules.map (Rule.rename σ) = rules) (hst : s ≠ t) (hs : ∃ r ∈ rules, r.lhs = s)
    (hnoT : ∀ block ∈ blockS.map (List.map (Rule.rename σ)), ∀ r ∈ block, r.lhs ≠ t)
    (hnoS : ∀ block ∈ blockT.map (List.map (Rule.rename σ)), ∀ r ∈ block, r.lhs ≠ s) :
    change s (blockS.map (List.map (Rule.rename σ)))
        (change t (blockT.map (List.map (Rule.rename σ))) rules) =
      (change t blockT (change s blockS rules)).map (Rule.rename σ) := by
  rw [change_comm hst hs hnoT hnoS, ← change_map, ← change_map, hσs, hσt, hrules]

/-- Two runs come to what they come to in the other order, with the fresh symbols exchanged. -/
theorem inTurn_swap {a b : Except Refusal (List Symbol)}
    (h : Run.inTurn o (.over toEnd s) (.over toEnd t) w = .ok (a, b) w')
    (hc : w.grammar.Closed) (hs : w.grammar.isNonterminal s = true)
    (ht : w.grammar.isNonterminal t = true) (hst : s ≠ t) :
    ∃ (σ : Equiv.Perm Symbol) (x' : Workspace),
      Run.inTurn o (.over toEnd t) (.over toEnd s) w =
        .ok (b.map (List.map σ), a.map (List.map σ)) x' ∧
      (∀ u, w.grammar.Issued u → σ u = u) ∧
      x'.grammar.rules = w'.grammar.rules.map (Rule.rename σ) := by
  obtain ⟨w₁, ha, hb⟩ := inTurn_eq_ok_iff.mp h
  obtain ⟨hnextA, hsizeA, hc₁, -⟩ := next_of_run ha hc
  obtain ⟨hnextB, hsizeB, hc', -⟩ := next_of_run hb hc₁
  have hissuedS : w.grammar.Issued s := hc.issued_of_isNonterminal hs
  have hissuedT : w.grammar.Issued t := hc.issued_of_isNonterminal ht
  have hroom : w.vocabulary.size + (a.toOption.getD []).length + (b.toOption.getD []).length ≤
      4294967295 := by
    have hle : w'.vocabulary.size ≤ 4294967295 := hc'.size_le
    omega
  let σ := Symbol.exchange hroom
  have hfix : ∀ u, w.grammar.Issued u → σ u = u := fun u hu => Symbol.exchange_of_lt hroom hu
  -- the second run would have come to the same before the first one
  have hframeT : w₁.grammar.rightSides t = w.grammar.rightSides t :=
    rightSides_of_run_over ha hc hst.symm hissuedT
  have hrenamedT : Renamed σ t w₁.grammar w.grammar := by
    rw [Renamed, hfix t hissuedT, hframeT, hc.rename_rightSides hfix]
  have hnextT : w.vocabulary.Next ((b.toOption.getD []).map σ) :=
    hnextB.exchange_second hroom hsizeA
  obtain ⟨x₁, blockT, hb', hrulesT, hrulesT', hinsideT⟩ :=
    mirror_run hb hc₁ hc (hfix t hissuedT) hrenamedT hnextT
  obtain ⟨-, hsizeX, hcX, hkept⟩ := next_of_run hb' hc
  -- and so the first run comes to the same after it
  have hrenamedS : Renamed σ s w.grammar x₁.grammar := by
    rw [Renamed, hfix s hissuedS, rightSides_of_run_over hb' hc hst hissuedS,
      hc.rename_rightSides hfix]
  rw [getD_toOption_map, List.length_map] at hsizeX
  have hnextS : x₁.vocabulary.Next ((a.toOption.getD []).map σ) :=
    hnextA.exchange_first hroom hsizeX
  obtain ⟨x', blockS, ha', hrulesS, hrulesS', hinsideS⟩ :=
    mirror_run ha hc hcX (hfix s hissuedS) hrenamedS hnextS
  refine ⟨σ, x', inTurn_eq_ok_iff.mpr ⟨x₁, hb', ha'⟩, hfix, ?_⟩
  have hnoT := lhs_ne_of_inside hst (hfix s hissuedS) (Grammar.isNonterminal_iff.mp (hkept t ht))
    fun block hblock r hr => (hinsideS block hblock r hr).2
  have hnoS := lhs_ne_of_inside hst.symm (hfix t hissuedT) (Grammar.isNonterminal_iff.mp hs)
    fun block hblock r hr => (hinsideT block hblock r hr).2
  have hswap := change_swap (hfix s hissuedS) (hfix t hissuedT) (hc.rename_rules hfix) hst
    (Grammar.isNonterminal_iff.mp hs) hnoT hnoS
  rw [hrulesS', hrulesT', hswap, hrulesT, hrulesS]

/-! ## Room for two runs -/

theorem room_eq_of_closed (hc : w.grammar.Closed) : w.room = 4294967295 - w.vocabulary.size := by
  have hle : w.vocabulary.size ≤ 4294967295 := hc.size_le
  rw [Workspace.room, Vocabulary.room, Nat.mod_eq_of_lt (by omega)]

/-- A run over a symbol issues fewer symbols than the symbol has alternatives. -/
theorem size_run_over_lt (toEnd : Bool) (o : Options) (hc : w.grammar.Closed)
    (hs : w.grammar.isNonterminal s = true) :
    (Outcome.state ((Run.over toEnd s).perform o w)).vocabulary.size <
      w.vocabulary.size + w.grammar.numAlternatives s := by
  have hne : w.grammar.rightSides s ≠ [] := Grammar.isNonterminal_iff_rightSides.mp hs
  have hbudget := budget_lt hne
  rw [← Grammar.numAlternatives_eq] at hbudget
  cases toEnd with
  | true =>
    have hle := size_factorFully_le o s hc
    show (Outcome.state (factorFully o s w)).vocabulary.size < _
    omega
  | false =>
    show (Outcome.state (factor o s w)).vocabulary.size < _
    cases h : factor o s w with
    | error e w' =>
      obtain ⟨hgroups, -, -, hlt⟩ := of_factor_error h
      have hpaid : (w.grammar.groups o.policy s).length ≤ budget (w.grammar.rightSides s) :=
        length_groups_le_budget hgroups
      simp only [Outcome.state]
      omega
    | ok answer w' =>
      cases answer with
      | error r =>
        cases eq_of_factor_refused h
        simp only [Outcome.state]
        omega
      | ok fresh =>
        have hpass := factored_of_factor h
        have hsize : w'.vocabulary.size = w.vocabulary.size + fresh.length := hpass.size_eq hc
        have hpaid : (w.grammar.groups o.policy s).length ≤ budget (w.grammar.rightSides s) :=
          length_groups_le_budget hpass.groups_ne_nil
        rw [← hpass.length_fresh] at hpaid
        simp only [Outcome.state]
        omega

/-- A run that fails has issued all symbols. -/
theorem room_of_run_over_error {e : OutOfSymbols}
    (h : (Run.over toEnd s).perform o w = .error e w') : w'.room = 0 := by
  cases toEnd with
  | false => exact (of_factor_error h).2.1
  | true =>
    rcases of_factorFully_error h with hfactor | ⟨first, w₁, -, hdrain⟩
    · exact (of_factor_error hfactor).2.1
    · obtain ⟨_, _, _, _, -, hfactor⟩ := exists_turns_of_drain_error hdrain
      exact (of_factor_error hfactor).2.1

theorem room_lt_of_run_over_error {e : OutOfSymbols}
    (h : (Run.over toEnd s).perform o w = .error e w') (hc : w.grammar.Closed)
    (hs : w.grammar.isNonterminal s = true) : w.room < w.grammar.numAlternatives s := by
  have hlt := size_run_over_lt toEnd o hc hs
  have hfull := room_of_run_over_error h
  have hle : w.vocabulary.size ≤ 4294967295 := hc.size_le
  rw [h] at hlt
  simp only [Outcome.state] at hlt
  simp only [Workspace.room, Vocabulary.room] at hfull
  rw [room_eq_of_closed hc]
  omega

theorem room_lt_of_inTurn_error {e : OutOfSymbols}
    (h : Run.inTurn o (.over toEnd s) (.over toEnd t) w = .error e w') (hc : w.grammar.Closed)
    (hs : w.grammar.isNonterminal s = true) (ht : w.grammar.isNonterminal t = true)
    (hst : s ≠ t) :
    w.room < w.grammar.numAlternatives s + w.grammar.numAlternatives t := by
  simp only [Run.inTurn, Action.bind_eq_error_iff, Action.pure_apply, reduceCtorEq, and_false,
    exists_false, or_false] at h
  rcases h with hfirst | ⟨a, w₁, ha, hsecond⟩
  · have hroom := room_lt_of_run_over_error hfirst hc hs
    omega
  · obtain ⟨-, hsize, hc₁, hkept⟩ := next_of_run ha hc
    have hroom := room_lt_of_run_over_error hsecond hc₁ (hkept t ht)
    have hlt := size_run_over_lt toEnd o hc hs
    have hframe := rightSides_of_run_over ha hc hst.symm (hc.issued_of_isNonterminal ht)
    rw [ha] at hlt
    simp only [Outcome.state] at hlt
    rw [room_eq_of_closed hc₁, Grammar.numAlternatives_eq, hframe, ← Grammar.numAlternatives_eq]
      at hroom
    rw [room_eq_of_closed hc]
    omega

/-- Runs over two nonterminals of a closed grammar, both one pass or both to the end, come to the
same in either order. With too little room both orders run out of symbols. Otherwise each run is
refused in both orders or in neither, and some bijection of symbols that leaves the old ones alone
takes the fresh symbols of each run in one order to those in the other, one by one, and the rules in
one order to those in the other, in the same places. -/
theorem runs_commute (o : Options) (toEnd : Bool) {w : Workspace} {s t : Symbol}
    (hc : w.grammar.Closed) (hs : w.grammar.isNonterminal s = true)
    (ht : w.grammar.isNonterminal t = true) (hst : s ≠ t) :
    (w.room < w.grammar.numAlternatives s + w.grammar.numAlternatives t ∧
      (∃ e w₁, Run.inTurn o (.over toEnd s) (.over toEnd t) w = .error e w₁) ∧
      ∃ e w₂, Run.inTurn o (.over toEnd t) (.over toEnd s) w = .error e w₂) ∨
    ∃ (σ : Equiv.Perm Symbol) (a b : Except Refusal (List Symbol)) (w₁ w₂ : Workspace),
      Run.inTurn o (.over toEnd s) (.over toEnd t) w = .ok (a, b) w₁ ∧
      Run.inTurn o (.over toEnd t) (.over toEnd s) w =
        .ok (b.map (List.map σ), a.map (List.map σ)) w₂ ∧
      (∀ u, w.grammar.Issued u → σ u = u) ∧
      w₂.grammar.rules = w₁.grammar.rules.map (Rule.rename σ) := by
  cases h : Run.inTurn o (.over toEnd s) (.over toEnd t) w with
  | ok answers w₁ =>
    obtain ⟨a, b⟩ := answers
    obtain ⟨σ, w₂, hswap, hfix, hrules⟩ := inTurn_swap h hc hs ht hst
    exact .inr ⟨σ, a, b, w₁, w₂, rfl, hswap, hfix, hrules⟩
  | error e w₁ =>
    refine .inl ⟨room_lt_of_inTurn_error h hc hs ht hst, ⟨e, w₁, rfl⟩, ?_⟩
    cases h' : Run.inTurn o (.over toEnd t) (.over toEnd s) w with
    | ok answers w₂ =>
      -- then the first order would not have failed either
      obtain ⟨b, a⟩ := answers
      obtain ⟨_, _, hswap, -⟩ := inTurn_swap h' hc ht hs hst.symm
      cases h.symm.trans hswap
    | error e' w₂ => exact ⟨e', w₂, rfl⟩

/-- Symbols `X` and `X1` to `X10`, of which the first two have rules, one between the others. Both
symbols have alternatives that begin alike, and so has what is left of those of `X`. -/
def competing : Grammar :=
  .ofRules
    (Outcome.state (Vocabulary.issueAll
      (some "X" :: (List.range 10).map fun n => some ("X" ++ toString (n + 1))) .empty))
    [⟨.numbered 0, [.numbered 2]⟩,
     ⟨.numbered 1, [.numbered 3, .numbered 4]⟩,
     ⟨.numbered 0, [.numbered 2, .numbered 3, .numbered 0]⟩,
     ⟨.numbered 2, []⟩,
     ⟨.numbered 1, [.numbered 3]⟩,
     ⟨.numbered 0, [.numbered 2, .numbered 3, .numbered 1]⟩]

/-- The name `X11` goes to a fresh symbol of whichever symbol is factored first. -/
theorem runs_commute_competing :
    competing.Closed ∧ competing.isNonterminal (.numbered 0) = true ∧
    competing.isNonterminal (.numbered 1) = true ∧ Symbol.numbered 0 ≠ .numbered 1 ∧
    ∃ (σ : Equiv.Perm Symbol) (w₁ w₂ : Workspace),
      Run.inTurn {} (.over true (.numbered 0)) (.over true (.numbered 1)) (.ofGrammar competing) =
        .ok (.ok [.numbered 11, .numbered 12], .ok [.numbered 13]) w₁ ∧
      Run.inTurn {} (.over true (.numbered 1)) (.over true (.numbered 0)) (.ofGrammar competing) =
        .ok (.ok [σ (.numbered 13)], .ok [σ (.numbered 11), σ (.numbered 12)]) w₂ ∧
      w₂.grammar.rules = w₁.grammar.rules.map (Rule.rename σ) ∧
      w₁.vocabulary.displayNames [.numbered 11, .numbered 12, .numbered 13] = "X11 X111 X12" ∧
      w₂.vocabulary.displayNames [.numbered 11, .numbered 12, .numbered 13] = "X11 X12 X121" := by
  have hclosed : competing.Closed := by decide +kernel
  have hzero : competing.isNonterminal (.numbered 0) = true := by decide +kernel
  have hone : competing.isNonterminal (.numbered 1) = true := by decide +kernel
  have hanswers : Run.answers? {} (.over true (.numbered 0)) (.over true (.numbered 1))
      (.ofGrammar competing) =
      some (.ok [.numbered 11, .numbered 12], .ok [.numbered 13]) := by decide +kernel
  have hnames : (Outcome.state (Run.inTurn {} (.over true (.numbered 0)) (.over true (.numbered 1))
      (.ofGrammar competing))).vocabulary.displayNames
      [.numbered 11, .numbered 12, .numbered 13] = "X11 X111 X12" := by decide +kernel
  have hnames' : (Outcome.state (Run.inTurn {} (.over true (.numbered 1)) (.over true (.numbered 0))
      (.ofGrammar competing))).vocabulary.displayNames
      [.numbered 11, .numbered 12, .numbered 13] = "X11 X12 X121" := by decide +kernel
  refine ⟨hclosed, hzero, hone, by decide, ?_⟩
  rcases runs_commute {} true (w := .ofGrammar competing) hclosed hzero hone (by decide) with
    ⟨-, ⟨e, w₁, he⟩, -⟩ | ⟨σ, a, b, w₁, w₂, h₁, h₂, -, hrules⟩
  · rw [Run.answers?, he] at hanswers
    cases hanswers
  · rw [Run.answers?, h₁] at hanswers
    cases hanswers
    rw [h₁] at hnames
    rw [h₂] at hnames'
    exact ⟨σ, w₁, w₂, h₁, h₂, hrules, hnames, hnames'⟩

end Factoring

end ContextFree
