import Mathlib.Data.List.TakeWhile
import ContextFree.Proofs.Index

/-!
# Where new rules come

A replacement puts the new rules where the first rule of the symbol was and takes its other rules
away, while all other rules stay in order (`Grammar.replacement_exact`). Every other symbol has its
new alternatives between the old ones that stood before that place and the old ones after it.

The nonterminals are listed by their first rules. If the new rules are for the symbol first and then
for symbols that had no rule, these come into the list right behind it
(`Grammar.nonterminals_replaceAlternatives`).
-/

namespace ContextFree

/-! ## Lists without repetitions -/

section EraseDups

variable {α : Type} [DecidableEq α] {l l' : List α} {a : α}

theorem removeAll_of_disjoint (h : List.Disjoint l' l) : l'.removeAll l = l' := by
  rw [List.removeAll, List.filter_eq_self]
  intro b hb
  simpa using fun hmem => h hb hmem

theorem eraseDups_append_of_disjoint (h : List.Disjoint l' l) :
    (l ++ l').eraseDups = l.eraseDups ++ l'.eraseDups := by
  rw [List.eraseDups_append, removeAll_of_disjoint h]

theorem eraseDups_eq_singleton (hne : l ≠ []) (h : ∀ b ∈ l, b = a) : l.eraseDups = [a] := by
  obtain ⟨b, rest, rfl⟩ := List.exists_cons_of_ne_nil hne
  have hnone : rest.filter (fun c => !c == b) = [] := by
    rw [List.filter_eq_nil_iff]
    intro c hc
    simp [h c (List.mem_cons_of_mem b hc), h b (List.mem_cons_self ..)]
  rw [List.eraseDups_cons, hnone, List.eraseDups_nil, h b (List.mem_cons_self ..)]

end EraseDups

namespace Grammar

variable {g : Grammar} {s : Symbol}

/-! ## New rules in their place -/

theorem rules_replaceAlternatives_of_absent (new : List Rule) (hs : g.isNonterminal s = false) :
    (g.replaceAlternatives s new).rules = g.rules ++ new := by
  have hne : ∀ r ∈ g.rules, decide (r.lhs ≠ s) = true := by
    intro r hr
    rw [decide_eq_true_eq]
    intro hlhs
    rw [isNonterminal_iff.mpr ⟨r, hr, hlhs⟩] at hs
    cases hs
  rw [rules_replaceAlternatives_eq, List.takeWhile_eq_self_iff.mpr hne,
    List.dropWhile_eq_nil_iff.mpr hne, List.filter_nil, List.append_nil]

/-- Replacing the rules of `s` leaves the vocabulary alone. The new rules come once, after the rules
in front of the first one of `s`, or at the end if `s` has none, and the other rules that are not
for `s` follow. So `s` has those of the new rules that are for it, and any other symbol has its new
rules between its old ones from before that place and from behind it. -/
theorem replacement_exact (g : Grammar) (s : Symbol) (new : List Rule) :
    (g.replaceAlternatives s new).vocabulary = g.vocabulary ∧
    (g.replaceAlternatives s new).rules =
      g.rules.takeWhile (·.lhs ≠ s) ++ new ++
        (g.rules.dropWhile (·.lhs ≠ s)).filter (·.lhs ≠ s) ∧
    (g.isNonterminal s = false → (g.replaceAlternatives s new).rules = g.rules ++ new) ∧
    (g.replaceAlternatives s new).alternatives s = new.filter (·.lhs = s) ∧
    ∀ t, t ≠ s →
      g.alternatives t = (g.rules.takeWhile (·.lhs ≠ s)).filter (·.lhs = t) ++
        (g.rules.dropWhile (·.lhs ≠ s)).filter (·.lhs = t) ∧
      (g.replaceAlternatives s new).alternatives t =
        (g.rules.takeWhile (·.lhs ≠ s)).filter (·.lhs = t) ++ new.filter (·.lhs = t) ++
          (g.rules.dropWhile (·.lhs ≠ s)).filter (·.lhs = t) := by
  refine ⟨rfl, g.rules_replaceAlternatives_eq s new, rules_replaceAlternatives_of_absent new,
    g.alternatives_replaceAlternatives_self s new, fun t hts => ⟨?_, ?_⟩⟩
  · exact g.alternatives_eq_append (·.lhs ≠ s) t
  · exact g.alternatives_replaceAlternatives_of_ne new hts

/-- The rules of symbol 2 are replaced by one for symbol 7, which has rules before and behind, and
one for symbol 2. Symbol 9 has no rule, so what replaces its rules comes last. Symbol 7 has the
first rule and the last one, and nothing is put in their place. -/
theorem replacement_exact_scattered :
    (scattered.replaceAlternatives ⟨2, by decide⟩
        [⟨⟨7, by decide⟩, [⟨2, by decide⟩]⟩, ⟨⟨2, by decide⟩, []⟩]).alternatives ⟨7, by decide⟩ =
      [⟨⟨7, by decide⟩, []⟩, ⟨⟨7, by decide⟩, [⟨2, by decide⟩]⟩,
        ⟨⟨7, by decide⟩, [⟨9, by decide⟩]⟩] ∧
    scattered.isNonterminal ⟨9, by decide⟩ = false ∧
    (scattered.replaceAlternatives ⟨9, by decide⟩ [⟨⟨2, by decide⟩, []⟩]).rules =
      scattered.rules ++ [⟨⟨2, by decide⟩, []⟩] ∧
    (scattered.replaceAlternatives ⟨7, by decide⟩ []).rules =
      [⟨⟨2, by decide⟩, [⟨7, by decide⟩]⟩] := by
  have habsent : scattered.isNonterminal ⟨9, by decide⟩ = false := by decide +kernel
  obtain ⟨-, -, -, -, hothers⟩ := replacement_exact scattered ⟨2, by decide⟩
    [⟨⟨7, by decide⟩, [⟨2, by decide⟩]⟩, ⟨⟨2, by decide⟩, []⟩]
  obtain ⟨-, -, hlast, -, -⟩ := replacement_exact scattered ⟨9, by decide⟩ [⟨⟨2, by decide⟩, []⟩]
  obtain ⟨-, hrules, -, -, -⟩ := replacement_exact scattered ⟨7, by decide⟩ []
  refine ⟨?_, habsent, hlast habsent, ?_⟩
  · rw [(hothers ⟨7, by decide⟩ (by decide)).2]
    decide +kernel
  · rw [hrules]
    decide +kernel

/-! ## The first rule of a nonterminal -/

/-- The rules of a nonterminal begin somewhere. -/
theorem exists_first_rule (hs : g.isNonterminal s = true) :
    ∃ rhs later, g.rules.dropWhile (·.lhs ≠ s) = ⟨s, rhs⟩ :: later := by
  obtain ⟨r, hr, hlhs⟩ := isNonterminal_iff.mp hs
  have hne : g.rules.dropWhile (·.lhs ≠ s) ≠ [] := by
    rw [Ne, List.dropWhile_eq_nil_iff]
    intro hall
    exact absurd hlhs (of_decide_eq_true (hall r hr))
  obtain ⟨⟨lhs, rhs⟩, later, hcons⟩ := List.exists_cons_of_ne_nil hne
  have hfirst := List.head?_dropWhile_not (fun r : Rule => decide (r.lhs ≠ s)) g.rules
  rw [hcons] at hfirst
  have hlhs : lhs = s := by simpa using hfirst
  exact ⟨rhs, later, by rw [hcons, hlhs]⟩

/-! ## Nonterminals in order -/

/-- New rules that are for `s` first, and for symbols that had no rule, bring these in behind `s`.
-/
theorem nonterminals_replaceAlternatives {new : List Rule} {fresh : List Symbol}
    (hs : g.isNonterminal s = true) (hnew : (new.map (·.lhs)).eraseDups = s :: fresh)
    (hfresh : ∀ t ∈ fresh, ¬ g.isNonterminal t = true) :
    ∃ before after, g.nonterminals = before ++ s :: after ∧
      (g.replaceAlternatives s new).nonterminals = before ++ s :: (fresh ++ after) := by
  obtain ⟨rhs, later, hlater⟩ := exists_first_rule hs
  let before := (g.rules.takeWhile (·.lhs ≠ s)).map (·.lhs)
  let others := (later.filter (·.lhs ≠ s)).map (·.lhs)
  have hsplit : g.rules = g.rules.takeWhile (·.lhs ≠ s) ++ ⟨s, rhs⟩ :: later := by
    rw [← hlater, List.takeWhile_append_dropWhile]
  have hsbefore : s ∉ before := by
    intro hmem
    obtain ⟨r, hr, hlhs⟩ := List.mem_map.mp hmem
    exact lhs_ne_of_mem_takeWhile hr hlhs
  have hsothers : s ∉ others := by
    intro hmem
    obtain ⟨r, hr, hlhs⟩ := List.mem_map.mp hmem
    exact absurd hlhs (of_decide_eq_true (List.mem_filter.mp hr).2)
  have hold : ∀ t ∈ before ++ others, g.isNonterminal t = true := by
    intro t ht
    rw [isNonterminal_iff, hsplit]
    rcases List.mem_append.mp ht with hmem | hmem
    · obtain ⟨r, hr, rfl⟩ := List.mem_map.mp hmem
      exact ⟨r, List.mem_append_left _ hr, rfl⟩
    · obtain ⟨r, hr, rfl⟩ := List.mem_map.mp hmem
      exact ⟨r, by simp [(List.mem_filter.mp hr).1], rfl⟩
  -- the new left sides are neither before the rules of `s` nor among the other later ones
  have hapart : List.Disjoint (new.map (·.lhs)) (before ++ others) := by
    intro t ht hmem
    rw [← List.mem_eraseDups, hnew] at ht
    rcases List.mem_cons.mp ht with rfl | hfreshT
    · exact (List.mem_append.mp hmem).elim hsbefore hsothers
    · exact hfresh t hfreshT (hold t hmem)
  refine ⟨before.eraseDups, (others.removeAll before).eraseDups, ?_, ?_⟩
  · have hrules : g.rules.map (·.lhs) = before ++ s :: later.map (·.lhs) := by
      conv_lhs => rw [hsplit]
      rw [List.map_append, List.map_cons]
    have hfilter : ((later.map (·.lhs)).removeAll before).filter (fun t => !t == s) =
        others.removeAll before := by
      simp only [others, List.removeAll, List.filter_map, List.filter_filter]
      congr 1
      apply List.filter_congr
      intro r _
      simp [Bool.and_comm, beq_eq_decide]
    rw [nonterminals_eq, hrules, List.eraseDups_append, List.removeAll,
      List.filter_cons_of_pos (by simpa using hsbefore), ← List.removeAll, List.eraseDups_cons,
      hfilter]
  · have hrules : (g.replaceAlternatives s new).rules.map (·.lhs) =
        before ++ (new.map (·.lhs) ++ others) := by
      rw [rules_replaceAlternatives_eq, hlater, List.filter_cons_of_neg (by simp)]
      simp only [List.map_append, List.append_assoc, before, others]
    have hremove : (new.map (·.lhs) ++ others).removeAll before =
        new.map (·.lhs) ++ others.removeAll before := by
      rw [List.removeAll, List.filter_append, ← List.removeAll, ← List.removeAll,
        removeAll_of_disjoint (List.disjoint_of_disjoint_append_right_left hapart)]
    have hdisjoint : List.Disjoint (others.removeAll before) (new.map (·.lhs)) := by
      intro t ht hmem
      exact hapart hmem (List.mem_append_right _ (List.mem_filter.mp ht).1)
    rw [nonterminals_eq, hrules, List.eraseDups_append, hremove,
      eraseDups_append_of_disjoint hdisjoint, hnew, List.cons_append]

end Grammar

end ContextFree
