import Mathlib.Data.List.Sort
import ContextFree.Grammar.Terminals
import ContextFree.Proofs.DisplayNames
import ContextFree.Proofs.Index
import ContextFree.Proofs.Language
import ContextFree.Proofs.Worklist

/-!
# The terminals of a grammar

The terminals are the symbols of the vocabulary without those that have a rule
(`Grammar.exists_terminals`), listed by number. They cannot be listed if a rule has a left side that
has not been issued, and the first such rule is then to blame (`Grammar.terminals_eq_error_iff`).

A pass over a closed grammar leaves every symbol what it was, terminal or not, and gives each fresh
symbol a rule. So the list of the terminals is the same after it. If the symbols run out during a
pass, some fresh symbols are left without a rule, but the symbols from before are still what they
were (`Grammar.EvolvesInto`).
-/

namespace ContextFree

/-! ## Sets as lists -/

namespace Symbol

/-- Numbers that are not too great are read as the symbols that have them. -/
theorem mapM_ofNat {α : Type} {number : α → Nat} {l : List α}
    (h : ∀ a ∈ l, number a < 4294967295) :
    ∃ symbols, l.mapM (fun a => ofNat (number a)) = .ok symbols ∧
      symbols.map (·.id) = l.map number := by
  induction l with
  | nil => exact ⟨[], rfl, rfl⟩
  | cons a l ih =>
    obtain ⟨symbols, hrest, hids⟩ := ih fun b hb => h b (List.mem_cons_of_mem a hb)
    have ha := h a (List.mem_cons_self ..)
    have hfirst : ofNat (number a) = .ok ⟨number a, ha⟩ := by
      rw [ofNat_eq_ok_iff, Nat.mod_eq_of_lt (by omega)]
    refine ⟨⟨number a, ha⟩ :: symbols, ?_, ?_⟩
    · rw [List.mapM_cons, hfirst, hrest]
      rfl
    · rw [List.map_cons, List.map_cons, hids]

/-- Ascending lists of the same symbols are the same. -/
theorem eq_of_ascending {l l' : List Symbol} (h : l.Pairwise (·.id < ·.id))
    (h' : l'.Pairwise (·.id < ·.id)) (hmem : ∀ s, s ∈ l ↔ s ∈ l') : l = l' := by
  have : Std.Irrefl fun s t : Symbol => s.id < t.id := ⟨fun s => Nat.lt_irrefl s.id⟩
  have : Std.Antisymm fun s t : Symbol => s.id < t.id :=
    ⟨fun _ _ hst hts => absurd hts (Nat.lt_asymm hst)⟩
  exact h.eq_of_mem_iff h' hmem

end Symbol

namespace SymbolSet

/-- A set with no more bits than there are symbols is listed by number. -/
theorem exists_toList {A : SymbolSet} (h : A.bits.length ≤ 4294967295) :
    ∃ l, A.toList = .ok l ∧ l.Pairwise (·.id < ·.id) ∧ ∀ s, s ∈ l ↔ s ∈ A := by
  have hbound : ∀ entry ∈ A.bits.zipIdx.filter (·.1), entry.2 < 4294967295 := by
    intro entry hentry
    have hlook := List.mem_zipIdx_iff_getElem?.mp (List.mem_filter.mp hentry).1
    have hlt := (List.getElem?_eq_some_iff.mp hlook).1
    omega
  rcases Symbol.mapM_ofNat hbound with ⟨l, hl, hids⟩
  refine ⟨l, hl, ?_, ?_⟩
  · have hascending := positions_ascending A.bits fun bit => bit
    rw [← hids, List.pairwise_map] at hascending
    exact hascending
  · intro s
    have hmem := mem_positions A.bits (fun bit => bit) (i := s.id)
    rw [← hids, Symbol.id_mem_map] at hmem
    rw [hmem, mem_iff]
    simp

end SymbolSet

/-! ## Listing terminals -/

/-- The first element with a property is no repetition. -/
theorem find?_eraseDups {α : Type} [DecidableEq α] (l : List α) (p : α → Bool) :
    l.eraseDups.find? p = l.find? p := by
  induction l using List.reverseRecOn with
  | nil => rfl
  | append_singleton l a ih =>
    rw [eraseDups_concat, List.find?_append, ← ih]
    split
    next hmem =>
      cases hfind : l.eraseDups.find? p with
      | some b => rfl
      | none =>
        have ha := List.find?_eq_none.mp hfind a (List.mem_eraseDups.mpr hmem)
        rw [Option.none_or, List.find?_cons_of_neg ha]
        rfl
    · rw [List.find?_append]

namespace Grammar

variable {g g₁ g' : Grammar} {s : Symbol} {l : List Symbol}

/-- The symbol has been issued and has no rule. -/
def IsTerminal (g : Grammar) (s : Symbol) : Prop :=
  g.Issued s ∧ ∀ r ∈ g.rules, r.lhs ≠ s

/-- The terminals of the grammar can be told, and they are listed so. -/
def HasTerminals (g : Grammar) (l : List Symbol) : Prop :=
  ∃ A, g.terminals = .ok A ∧ A.toList = .ok l

theorem isTerminal_iff : g.IsTerminal s ↔ g.Issued s ∧ g.isNonterminal s = false := by
  have hnone : (∀ r ∈ g.rules, r.lhs ≠ s) ↔ g.isNonterminal s = false := by
    rw [← Bool.not_eq_true, isNonterminal_iff]
    simp
  rw [IsTerminal, hnone]

/-- The terminals cannot be told if a left side has not been issued, and the first such is the one
that is reported. -/
theorem terminals_eq_error_iff {e : OutOfRange} :
    g.terminals = .error e ↔ ∃ r, g.rules.find? (¬ g.Issued ·.lhs) = some r ∧
      e = ⟨r.lhs.id, g.vocabulary.size⟩ := by
  have hbeyond : (fun r : Rule => decide (¬ g.Issued r.lhs)) =
      (fun s : Symbol => decide (g.vocabulary.size ≤ s.id)) ∘ (·.lhs) := by
    funext r
    simp [Issued]
  rw [terminals, SymbolSet.eraseAll_eq_error_iff, nonterminals_eq, find?_eraseDups,
    SymbolSet.full, List.length_replicate, hbeyond, List.find?_map]
  constructor
  · rintro ⟨s, hs, rfl⟩
    rcases Option.map_eq_some_iff.mp hs with ⟨r, hr, rfl⟩
    exact ⟨r, hr, rfl⟩
  · rintro ⟨r, hr, rfl⟩
    rw [hr]
    exact ⟨r.lhs, rfl, rfl⟩

/-- If all left sides have been issued, the terminals are listed by number. -/
theorem exists_terminals (hsize : g.vocabulary.size ≤ 4294967295)
    (hlhs : ∀ r ∈ g.rules, g.Issued r.lhs) :
    ∃ l, g.HasTerminals l ∧ l.Pairwise (·.id < ·.id) ∧ ∀ s, s ∈ l ↔ g.IsTerminal s := by
  cases hterminals : g.terminals with
  | error e =>
    rcases terminals_eq_error_iff.mp hterminals with ⟨r, hr, -⟩
    have hnot := List.find?_some hr
    exact absurd (hlhs r (List.mem_of_find?_eq_some hr)) (of_decide_eq_true hnot)
  | ok A =>
    have hlength := SymbolSet.length_bits_of_eraseAll hterminals
    rw [SymbolSet.full, List.length_replicate] at hlength
    rcases SymbolSet.exists_toList (hlength ▸ hsize) with ⟨l, hl, hascending, hmem⟩
    refine ⟨l, ⟨A, hterminals, hl⟩, hascending, fun s => ?_⟩
    rw [hmem, SymbolSet.mem_of_eraseAll hterminals, SymbolSet.mem_full, mem_nonterminals,
      Bool.not_eq_true, isTerminal_iff, Issued]

theorem Closed.exists_terminals (h : g.Closed) :
    ∃ l, g.HasTerminals l ∧ l.Pairwise (·.id < ·.id) ∧ ∀ s, s ∈ l ↔ g.IsTerminal s :=
  Grammar.exists_terminals h.size_le h.lhs_issued

/-- The terminals are listed in one way only. -/
theorem HasTerminals.unique {l' : List Symbol} (h : g.HasTerminals l) (h' : g.HasTerminals l') :
    l = l' := by
  rcases h with ⟨A, hA, hl⟩
  rcases h' with ⟨A', hA', hl'⟩
  cases hA.symm.trans hA'
  exact Except.ok.inj (hl.symm.trans hl')

/-! ## What becomes of a grammar -/

/-- A closed grammar has become another one, in which the symbols of the old one are terminals or
nonterminals as they were. -/
structure EvolvesInto (g g' : Grammar) : Prop where
  closed : g'.Closed
  issued_of : ∀ s, g.Issued s → g'.Issued s
  isNonterminal_eq : ∀ s, g.Issued s → g'.isNonterminal s = g.isNonterminal s

namespace EvolvesInto

theorem refl (hc : g.Closed) : g.EvolvesInto g :=
  ⟨hc, fun _ hs => hs, fun _ _ => rfl⟩

theorem trans (h : g.EvolvesInto g₁) (h' : g₁.EvolvesInto g') : g.EvolvesInto g' := by
  refine ⟨h'.closed, fun s hs => h'.issued_of s (h.issued_of s hs), fun s hs => ?_⟩
  rw [h'.isNonterminal_eq s (h.issued_of s hs), h.isNonterminal_eq s hs]

/-- The terminals among the old symbols are the old terminals. -/
theorem isTerminal_iff (h : g.EvolvesInto g') (hs : g.Issued s) :
    g'.IsTerminal s ↔ g.IsTerminal s := by
  rw [Grammar.isTerminal_iff, Grammar.isTerminal_iff, h.isNonterminal_eq s hs]
  exact and_congr_left fun _ => iff_of_true (h.issued_of s hs) hs

end EvolvesInto

end Grammar

namespace Factoring

variable {o : Options} {s t : Symbol} {fresh : List Symbol} {g g' : Grammar}

/-! ## A pass -/

namespace Factored

theorem evolvesInto (h : Factored o s fresh g g') (hc : g.Closed) : g.EvolvesInto g' := by
  refine ⟨h.closed hc, fun t ht => h.issued_of hc ht, fun t ht => ?_⟩
  have hfresh : t ∉ fresh := fun hmem => h.not_issued hc hmem ht
  rw [Bool.eq_iff_iff]
  by_cases hts : t = s
  · -- the symbol that is factored keeps at least one rule
    rw [hts]
    exact iff_of_true (h.isNonterminal_of h.isNonterminal) h.isNonterminal
  · rw [Grammar.isNonterminal_iff_rightSides, Grammar.isNonterminal_iff_rightSides,
      h.rightSides_of_ne hts hfresh]

/-- A pass over a closed grammar neither makes nor unmakes a terminal. -/
theorem isTerminal_iff (h : Factored o s fresh g g') (hc : g.Closed) :
    g'.IsTerminal t ↔ g.IsTerminal t := by
  by_cases ht : g.Issued t
  · exact (h.evolvesInto hc).isTerminal_iff ht
  · -- a symbol that is new to the grammar is fresh, and so it has a rule
    constructor
    · intro hterminal
      rw [Grammar.isTerminal_iff] at hterminal
      have hfresh := (h.mem_fresh_iff hc).mpr ⟨ht, hterminal.1⟩
      rw [h.isNonterminal_fresh hfresh] at hterminal
      cases hterminal.2
    · intro hterminal
      exact absurd hterminal.1 ht

end Factored

theorem Passes.isTerminal_iff (h : Passes o g fresh g') (hc : g.Closed) :
    g'.IsTerminal t ↔ g.IsTerminal t := by
  induction h with
  | nil => rfl
  | cons hpass _ ih => rw [ih (hpass.closed hc), hpass.isTerminal_iff hc]

theorem isTerminal_iff_of_runs {w w' : Workspace} (h : Runs w w') (hc : w.grammar.Closed) :
    w'.grammar.Closed ∧ ∀ t, w'.grammar.IsTerminal t ↔ w.grammar.IsTerminal t := by
  induction h with
  | nil => exact ⟨hc, fun _ => Iff.rfl⟩
  | @cons o run answer w w₁ w' hrun _ ih =>
    cases answer with
    | error r =>
      cases eq_of_run_refused hrun
      exact ih hc
    | ok fresh =>
      have hpasses := passes_of_run hrun
      rcases ih (hpasses.closed hc) with ⟨hclosed, hterminal⟩
      exact ⟨hclosed, fun t => (hterminal t).trans (hpasses.isTerminal_iff hc)⟩

/-! ## Running out of symbols -/

theorem size_keptByFresh (n : Nat) :
    KeptByFresh fun v => n ≤ v.size ∧ v.size ≤ 4294967295 := by
  intro base v s v' hv h
  have hsize := Vocabulary.size_of_issue h
  exact ⟨by omega, Vocabulary.size_le_of_issue h hv.2⟩

/-- A pass that runs out of symbols has not come to the rules. -/
theorem evolvesInto_of_factor_error {e : OutOfSymbols} {w w' : Workspace} (hc : w.grammar.Closed)
    (h : factor o s w = .error e w') : w.grammar.EvolvesInto w'.grammar := by
  have hrules := (of_factor_error h).2.2.1
  have hsize := keeps_factor (size_keptByFresh w.vocabulary.size) o s w ⟨Nat.le_refl _, hc.size_le⟩
  rw [h] at hsize
  have hissued : ∀ t, w.grammar.Issued t → w'.grammar.Issued t :=
    fun t ht => Nat.lt_of_lt_of_le ht hsize.1
  constructor
  · refine ⟨hsize.2, fun r hr => ?_, fun r hr t ht => ?_⟩
    · rw [hrules] at hr
      exact hissued _ (hc.lhs_issued r hr)
    · rw [hrules] at hr
      exact hissued _ (hc.rhs_issued r hr t ht)
  · exact hissued
  · intro t _
    rw [Bool.eq_iff_iff, Grammar.isNonterminal_iff, Grammar.isNonterminal_iff, hrules]

/-- Whatever a pass comes to, the symbols from before are still what they were. -/
theorem keeps_evolvesInto (g : Grammar) (o : Options) (s : Symbol) :
    (factor o s).Keeps fun w => g.EvolvesInto w.grammar := by
  intro w hw
  cases hfactor : factor o s w with
  | ok answer w' =>
    cases answer with
    | error r =>
      cases eq_of_factor_refused hfactor
      exact hw
    | ok fresh => exact hw.trans ((factored_of_factor hfactor).evolvesInto hw.closed)
  | error e w' => exact hw.trans (evolvesInto_of_factor_error hw.closed hfactor)

theorem evolvesInto_after_runs {w : Workspace} (hw : g.EvolvesInto w.grammar)
    (runs : List (Options × Run)) :
    g.EvolvesInto (w.after (runs.map fun r => .run r.1 r.2)).grammar := by
  induction runs generalizing w with
  | nil => exact hw
  | cons r runs ih =>
    rw [List.map_cons, Workspace.after_cons]
    exact ih (keeps_run_of_pass (keeps_evolvesInto g r.1) r.2 w hw)

/-! ## The terminals after runs -/

/-- The terminals cannot be told if and only if a left side has not been issued, and the first such
is reported; else they are the issued symbols without a rule, listed by number. Runs over a closed
grammar leave the list as it is, and if some of them run out of symbols, then they leave the part of
the list as it is that is about the symbols from before. -/
theorem terminals_outlast_runs :
    (∀ g : Grammar, g.vocabulary.size ≤ 4294967295 →
      (∀ e, g.terminals = .error e ↔ ∃ r, g.rules.find? (¬ g.Issued ·.lhs) = some r ∧
        e = ⟨r.lhs.id, g.vocabulary.size⟩) ∧
      ((∀ r ∈ g.rules, g.Issued r.lhs) → ∃ l, g.HasTerminals l ∧ l.Pairwise (·.id < ·.id) ∧
        ∀ s, s ∈ l ↔ g.Issued s ∧ ∀ r ∈ g.rules, r.lhs ≠ s)) ∧
    ∀ w : Workspace, w.grammar.Closed → ∃ l, w.grammar.HasTerminals l ∧
      (∀ w', Runs w w' → w'.grammar.HasTerminals l) ∧
      ∀ runs : List (Options × Run), ∃ l',
        (w.after (runs.map fun r => .run r.1 r.2)).grammar.HasTerminals l' ∧
        l'.filter (w.grammar.Issued ·) = l := by
  refine ⟨fun g hsize => ⟨fun e => g.terminals_eq_error_iff, g.exists_terminals hsize⟩, ?_⟩
  intro w hc
  rcases hc.exists_terminals with ⟨l, hl, hascending, hmem⟩
  refine ⟨l, hl, fun w' hruns => ?_, fun runs => ?_⟩
  · rcases isTerminal_iff_of_runs hruns hc with ⟨hclosed, hterminal⟩
    rcases hclosed.exists_terminals with ⟨l', hl', hascending', hmem'⟩
    have heq : l' = l := Symbol.eq_of_ascending hascending' hascending fun s => by
      rw [hmem', hterminal, hmem]
    rwa [← heq]
  · have hevolves := evolvesInto_after_runs (.refl hc) runs
    rcases hevolves.closed.exists_terminals with ⟨l', hl', hascending', hmem'⟩
    refine ⟨l', hl', Symbol.eq_of_ascending (hascending'.filter _) hascending fun s => ?_⟩
    rw [List.mem_filter, hmem', hmem, decide_eq_true_iff]
    constructor
    · rintro ⟨hs, hissued⟩
      exact (hevolves.isTerminal_iff hissued).mp hs
    · intro hs
      exact ⟨(hevolves.isTerminal_iff hs.1).mpr hs, hs.1⟩

/-- A grammar over three symbols, with rules for two symbols that have not been issued. -/
def unissued : Grammar :=
  .unnamed 3
    [⟨.numbered 1, [.numbered 9]⟩, ⟨.numbered 7, []⟩, ⟨.numbered 5, [.numbered 1]⟩]

/-- A grammar over four symbols, the last of which is not used. -/
def unused : Grammar :=
  .unnamed 4 [⟨.numbered 0, [.numbered 2, .numbered 1]⟩, ⟨.numbered 0, [.numbered 2]⟩]

/-- The symbol that is not used is a terminal, and the fresh symbol is not. -/
theorem terminals_outlast_runs_unused :
    (unissued.vocabulary.size ≤ 4294967295 ∧ unissued.terminals = .error ⟨7, 3⟩) ∧
    (unused.vocabulary.size ≤ 4294967295 ∧ (∀ r ∈ unused.rules, unused.Issued r.lhs) ∧
      ∃ l, unused.HasTerminals l ∧ .numbered 3 ∈ l) ∧
    unused.Closed ∧ ∃ w', Runs (.ofGrammar unused) w' ∧
      w'.grammar.isNonterminal (.numbered 4) = true ∧
      w'.grammar.HasTerminals [.numbered 1, .numbered 2, .numbered 3] := by
  have hsmall : unissued.vocabulary.size ≤ 4294967295 := by decide +kernel
  have hclosed : unused.Closed := by decide +kernel
  have hfresh : Run.fresh? ⟨.grouped, false⟩ .all (.ofGrammar unused) = some [.numbered 4] := by
    decide +kernel
  rcases Run.exists_of_fresh? hfresh with ⟨w', hrun⟩
  have hruns : Runs (.ofGrammar unused) w' := .cons hrun (.nil w')
  have hbefore : unused.HasTerminals [.numbered 1, .numbered 2, .numbered 3] :=
    ⟨⟨[false, true, true, true]⟩, rfl, rfl⟩
  rcases terminals_outlast_runs with ⟨htold, hkept⟩
  rcases (htold unused hclosed.size_le).2 hclosed.lhs_issued with ⟨l, hl, -, hmem⟩
  have hunused : .numbered 3 ∈ l := by
    rw [hmem]
    decide +kernel
  rcases hkept (.ofGrammar unused) hclosed with ⟨l', hl', hafter, -⟩
  have hfour := (passes_of_run hrun).isNonterminal_fresh (t := .numbered 4) (by decide)
  refine ⟨⟨hsmall, ?_⟩, ⟨hclosed.size_le, hclosed.lhs_issued, l, hl, hunused⟩, hclosed, w', hruns,
    hfour, ?_⟩
  · rw [(htold unissued hsmall).1]
    exact ⟨⟨.numbered 7, []⟩, by decide +kernel, rfl⟩
  · rw [hbefore.unique hl']
    exact hafter w' hruns

end Factoring

end ContextFree
