import Mathlib.Data.List.Forall2
import Mathlib.Data.List.ReduceOption
import ContextFree.Proofs.Closed
import ContextFree.Proofs.CommonGroups
import ContextFree.Proofs.Replacement

/-!
# The order of rules after a pass

The rules that a pass makes stand where the first rule of the symbol was: first the heads, in the
order of the alternatives in whose place they come (`InPlace`), and then the tails, group by group
and member by member (`Group.Of.forall₂_suffixes`).

In a closed grammar no other symbol notices, and the fresh symbols come right behind the one that
was factored in the list of nonterminals (`Factored.nonterminals_eq`).
-/

namespace ContextFree

namespace Factoring

/-! ## Heads in place -/

/-- What comes in place of each alternative, if anything does. -/
structure InPlace (alternatives : List (List Symbol)) (Gs : List Group) (fresh : List Symbol)
    (places : List (Option (List Symbol))) : Prop where
  length_eq : places.length = alternatives.length
  /-- An alternative in no group is kept. -/
  kept : ∀ (i : Nat) (rhs : List Symbol), alternatives[i]? = some rhs →
    (∀ G ∈ Gs, i ∉ G.members) → places[i]? = some (some rhs)
  /-- In place of the first member of a group comes what the group shares, and then its fresh
  symbol. -/
  first : ∀ (k : Nat) (G : Group) (f : Symbol) (i : Nat), Gs[k]? = some G → fresh[k]? = some f →
    G.members.head? = some i → places[i]? = some (some (G.shared ++ [f]))
  /-- In place of the other members comes nothing. -/
  dropped : ∀ G ∈ Gs, ∀ i ∈ G.members.tail, places[i]? = some none

theorem getElem?_map_headAt {alternatives : List (List Symbol)} {marked : List (Group × Symbol)}
    {i : Nat} {rhs : List Symbol} (h : alternatives[i]? = some rhs) :
    (alternatives.zipIdx.map (headAt marked))[i]? = some (headAt marked (rhs, i)) := by
  rw [List.getElem?_map, List.getElem?_zipIdx, h]
  simp

theorem reduceOption_map_headAt (alternatives : List (List Symbol))
    (marked : List (Group × Symbol)) :
    (alternatives.zipIdx.map (headAt marked)).reduceOption = heads alternatives marked := by
  rw [List.reduceOption, List.filterMap_map]
  rfl

/-! ## Suffixes in order -/

/-- Member by member, what is left is what the member has after the shared sequence. -/
theorem Group.Of.forall₂_suffixes {alternatives : List (List Symbol)} {G : Group}
    (h : G.Of alternatives) :
    List.Forall₂ (fun i rest => alternatives[i]? = some (G.shared ++ rest)) G.members
      (suffixes false alternatives G) := by
  have hbegins := h.begins
  show List.Forall₂ _ G.members ((G.members.filterMap (alternatives[·]?)).map _)
  generalize G.members = members at hbegins
  induction members with
  | nil => exact .nil
  | cons i members ih =>
    obtain ⟨_, hlook, rest, rfl⟩ := hbegins i (List.mem_cons_self ..)
    rw [List.filterMap_cons_some hlook, List.map_cons, List.drop_left]
    exact .cons hlook (ih fun j hj => hbegins j (List.mem_cons_of_mem i hj))

theorem suffixes_eq (dedup : Bool) (alternatives : List (List Symbol)) (G : Group) :
    suffixes dedup alternatives G =
      if dedup then (suffixes false alternatives G).eraseDups
      else suffixes false alternatives G := by
  cases dedup <;> rfl

/-- The tails are for the fresh symbols, in order. -/
theorem eraseDups_lhs_tails {dedup : Bool} {alternatives : List (List Symbol)}
    {marked : List (Group × Symbol)} (hof : ∀ m ∈ marked, m.1.Of alternatives)
    (hnodup : (marked.map (·.2)).Nodup) :
    ((tails dedup alternatives marked).map (·.lhs)).eraseDups = marked.map (·.2) := by
  induction marked with
  | nil => rfl
  | cons m rest ih =>
    rw [List.map_cons, List.nodup_cons] at hnodup
    have hrest := ih (fun n hn => hof n (List.mem_cons_of_mem m hn)) hnodup.2
    have hsplit : (tails dedup alternatives (m :: rest)).map (·.lhs) =
        (suffixes dedup alternatives m.1).map (fun _ => m.2) ++
          (tails dedup alternatives rest).map (·.lhs) := by
      rw [tails, List.flatMap_cons, List.map_append, List.map_map]
      rfl
    have hfirst : ((suffixes dedup alternatives m.1).map fun _ => m.2).eraseDups = [m.2] := by
      apply eraseDups_eq_singleton
      · simpa using suffixes_ne_nil (hof m (List.mem_cons_self ..)) dedup
      · intro b hb
        obtain ⟨_, -, rfl⟩ := List.mem_map.mp hb
        rfl
    have hapart : List.Disjoint ((tails dedup alternatives rest).map (·.lhs))
        ((suffixes dedup alternatives m.1).map fun _ => m.2) := by
      intro t ht hmem
      rw [← List.mem_eraseDups, hrest] at ht
      obtain ⟨_, -, rfl⟩ := List.mem_map.mp hmem
      exact hnodup.1 ht
    rw [hsplit, eraseDups_append_of_disjoint hapart, hfirst, hrest, List.map_cons,
      List.singleton_append]

namespace Factored

variable {o : Options} {s t : Symbol} {fresh : List Symbol} {g g' : Grammar}

/-- The heads stand in the places of alternatives. -/
theorem inPlace (h : Factored o s fresh g g') :
    InPlace (g.rightSides s) (g.groups o.policy s) fresh
      ((g.rightSides s).zipIdx.map (headAt ((g.groups o.policy s).zip fresh))) := by
  have hmark := h.marking
  constructor
  · rw [List.length_map, List.length_zipIdx]
  · intro i rhs hlook hout
    rw [getElem?_map_headAt hlook, Marking.headAt_of_free]
    rw [isFree_iff]
    exact fun m hm => hout m.1 (List.of_mem_zip hm).1
  · intro k G f i hG hf hfirst
    have hm : (G, f) ∈ (g.groups o.policy s).zip fresh :=
      List.mem_of_getElem? (List.getElem?_zip_eq_some.mpr ⟨hG, hf⟩)
    have hi := List.mem_of_head? hfirst
    obtain ⟨rhs, hlook, -⟩ := (hmark.of_mem _ hm).begins i hi
    rw [getElem?_map_headAt hlook, hmark.headAt_of_mem hm hi, if_pos hfirst]
  · intro G hG i hi
    obtain ⟨m, hm, rfl⟩ := h.exists_fresh hG
    have hmem := List.mem_of_mem_tail hi
    obtain ⟨rhs, hlook, -⟩ := (hmark.of_mem m hm).begins i hmem
    -- a member of the tail is not the first one, since no member is there twice
    have hfirst : m.1.members.head? ≠ some i := by
      intro hhead
      obtain ⟨members, hcons⟩ := List.head?_eq_some_iff.mp hhead
      have hnodup := hmark.members_nodup hm
      rw [hcons, List.nodup_cons] at hnodup
      rw [hcons] at hi
      exact hnodup.1 hi
    rw [getElem?_map_headAt hlook, hmark.headAt_of_mem hm hmem, if_neg hfirst]

/-- A closed grammar gets the fresh symbols as nonterminals right behind the one that was factored.
-/
theorem nonterminals_eq (h : Factored o s fresh g g') (hc : g.Closed) :
    ∃ before after, g.nonterminals = before ++ s :: after ∧
      g'.nonterminals = before ++ s :: (fresh ++ after) := by
  have hheads : ((heads (g.rightSides s) ((g.groups o.policy s).zip fresh)).map
      fun _ => s).eraseDups = [s] := by
    apply eraseDups_eq_singleton
    · simpa using h.marking.heads_ne_nil (Grammar.isNonterminal_iff_rightSides.mp h.isNonterminal)
    · intro b hb
      obtain ⟨_, -, rfl⟩ := List.mem_map.mp hb
      rfl
  have htails : ((tails o.dedup (g.rightSides s) ((g.groups o.policy s).zip fresh)).map
      (·.lhs)).eraseDups = fresh := by
    have hnodup := h.fresh_nodup hc
    rw [← h.map_snd_zip] at hnodup
    rw [eraseDups_lhs_tails h.marking.of_mem hnodup, h.map_snd_zip]
  have hapart : List.Disjoint
      ((tails o.dedup (g.rightSides s) ((g.groups o.policy s).zip fresh)).map (·.lhs))
      ((heads (g.rightSides s) ((g.groups o.policy s).zip fresh)).map fun _ => s) := by
    intro t ht hmem
    rw [← List.mem_eraseDups, htails] at ht
    obtain ⟨_, -, rfl⟩ := List.mem_map.mp hmem
    exact h.self_not_mem hc ht
  have hnew : ((factoredRules o.dedup s (g.rightSides s)
      ((g.groups o.policy s).zip fresh)).map (·.lhs)).eraseDups = s :: fresh := by
    rw [factoredRules, List.map_append, List.map_map]
    refine (eraseDups_append_of_disjoint hapart).trans ?_
    rw [hheads, htails, List.singleton_append]
  have hsame : g'.nonterminals = (g.replaceAlternatives s (factoredRules o.dedup s (g.rightSides s)
      ((g.groups o.policy s).zip fresh))).nonterminals := by
    rw [Grammar.nonterminals_eq, Grammar.nonterminals_eq, h.rules_eq]
  rw [hsame]
  refine Grammar.nonterminals_replaceAlternatives h.isNonterminal hnew fun t ht hnt => ?_
  exact h.not_issued hc ht (hc.issued_of_isNonterminal hnt)

end Factored

/-- After a pass over `s` there is a fresh symbol for each group, and the rules are those before the
first rule of `s`, the heads in the places of alternatives, the tails of the groups and the other
later rules. In a closed grammar every other nonterminal keeps its alternatives, and the fresh
symbols come right behind `s`. -/
theorem pass_output_exactly {o : Options} {s : Symbol} {fresh : List Symbol} {w w' : Workspace}
    (h : factor o s w = .ok (.ok fresh) w') :
    fresh.length = (w.grammar.groups o.policy s).length ∧
    (w.grammar.groups o.policy s).Pairwise Group.Before ∧
    (∃ (places : List (Option (List Symbol))) (rests : Group → List (List Symbol)),
      InPlace (w.grammar.rightSides s) (w.grammar.groups o.policy s) fresh places ∧
      (∀ G ∈ w.grammar.groups o.policy s,
        List.Forall₂ (fun i rest => (w.grammar.rightSides s)[i]? = some (G.shared ++ rest))
          G.members (rests G)) ∧
      w'.grammar.rules =
        w.grammar.rules.takeWhile (·.lhs ≠ s) ++
          (places.reduceOption.map (Rule.mk s) ++
            ((w.grammar.groups o.policy s).zip fresh).flatMap fun m =>
              (if o.dedup then (rests m.1).eraseDups else rests m.1).map (Rule.mk m.2)) ++
          (w.grammar.rules.dropWhile (·.lhs ≠ s)).filter (·.lhs ≠ s)) ∧
    (w.grammar.Closed →
      (∀ t ∈ w.grammar.nonterminals, t ≠ s →
        w'.grammar.alternatives t = w.grammar.alternatives t) ∧
      ∃ before after, w.grammar.nonterminals = before ++ s :: after ∧
        w'.grammar.nonterminals = before ++ s :: (fresh ++ after)) := by
  have hpass := factored_of_factor h
  have hgrouping := w.grammar.grouping o.policy s
  refine ⟨hpass.length_fresh, hgrouping.ordered, ⟨_, _, hpass.inPlace,
    fun G hG => (hgrouping.of_mem G hG).forall₂_suffixes, ?_⟩, fun hclosed => ⟨?_, ?_⟩⟩
  · rw [hpass.rules_eq, Grammar.rules_replaceAlternatives_eq, factoredRules,
      reduceOption_map_headAt, tails]
    simp only [suffixes_eq o.dedup]
  · intro t ht hts
    have hnt := Grammar.mem_nonterminals.mp ht
    have hfresh : t ∉ fresh := fun hmem =>
      hpass.not_issued hclosed hmem (hclosed.issued_of_isNonterminal hnt)
    rw [Grammar.alternatives_eq_map, Grammar.alternatives_eq_map, hpass.rightSides_of_ne hts hfresh]
  · exact hpass.nonterminals_eq hclosed

/-- The fresh symbols 6 and 7 come between the nonterminals 0 and 4. In place of alternative 1 comes
what it shares with alternative 5, and nothing comes in place of that one. -/
theorem pass_output_exactly_interlaced :
    interlaced.Closed ∧
    ∃ w', factor ⟨.grouped, true⟩ (.numbered 0) (.ofGrammar interlaced) =
        .ok (.ok [.numbered 6, .numbered 7]) w' ∧
      (∃ places, InPlace (interlaced.rightSides (.numbered 0))
          (interlaced.groups .grouped (.numbered 0)) [.numbered 6, .numbered 7] places ∧
        places[1]? = some (some [.numbered 1, .numbered 3, .numbered 7]) ∧
        places[5]? = some none) ∧
      w'.grammar.alternatives (.numbered 3) = [⟨.numbered 3, [.numbered 5]⟩, ⟨.numbered 3, []⟩] ∧
      w'.grammar.nonterminals =
        [.numbered 3, .numbered 0, .numbered 6, .numbered 7, .numbered 4] := by
  have hclosed : interlaced.Closed := by decide +kernel
  have hfresh : Run.fresh? ⟨.grouped, true⟩ (.once (.numbered 0)) (.ofGrammar interlaced) =
      some [.numbered 6, .numbered 7] := by decide +kernel
  obtain ⟨w', hw'⟩ := Run.exists_of_fresh? hfresh
  obtain ⟨-, -, ⟨places, _, hplaces, -, -⟩, hframe⟩ := pass_output_exactly hw'
  obtain ⟨hothers, before, after, hold, hnew⟩ := hframe hclosed
  have hgroups : interlaced.groups .grouped (.numbered 0) =
      [⟨[.numbered 2], [0, 3, 6]⟩, ⟨[.numbered 1, .numbered 3], [1, 5]⟩] := by decide +kernel
  have hnonterminals : interlaced.nonterminals = [.numbered 3, .numbered 0, .numbered 4] := by
    decide +kernel
  refine ⟨hclosed, w', hw', ⟨places, hplaces, ?_, ?_⟩, ?_, ?_⟩
  · exact hplaces.first 1 _ _ 1 (congrArg (·[1]?) hgroups) rfl rfl
  · have hmem : ⟨[.numbered 1, .numbered 3], [1, 5]⟩ ∈
        interlaced.groups .grouped (.numbered 0) := by simp [hgroups]
    exact hplaces.dropped _ hmem 5 (by decide)
  · have hmem : .numbered 3 ∈ interlaced.nonterminals := by simp [hnonterminals]
    rw [hothers _ hmem (by decide)]
    decide +kernel
  · have hold : [Symbol.numbered 3, .numbered 0, .numbered 4] = before ++ .numbered 0 :: after :=
      hnonterminals.symm.trans hold
    rcases before with - | ⟨b, - | ⟨c, before⟩⟩
    · exact absurd (List.cons.inj hold).1 (by decide)
    · have hafter : [Symbol.numbered 4] = after := (List.cons.inj (List.cons.inj hold).2).2
      have hfirst : Symbol.numbered 3 = b := (List.cons.inj hold).1
      rw [hnew, ← hafter, ← hfirst]
      rfl
    · have htail := (List.cons.inj (List.cons.inj hold).2).2
      have hmem : Symbol.numbered 0 ∈ [Symbol.numbered 4] := by simp [htail]
      exact absurd hmem (by decide)

end Factoring

end ContextFree
