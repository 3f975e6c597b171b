import ContextFree.Proofs.NameTable

/-!
# Closed grammars

A closed grammar uses only symbols that its vocabulary has issued, and its vocabulary has no more
entries than there are symbols. A pass over a closed grammar issues the symbols that follow
(`Introduces.ids`), so the fresh symbols are all different and no rule has used one of them before
(`Factored.not_issued`). Then the alternatives of a fresh symbol are what is left of its group and
nothing else (`Factored.rightSides_fresh`), and the grammar stays closed (`Factored.closed`).

Without closure a fresh symbol can be one that a rule uses already, and all of this fails.
-/

namespace ContextFree

namespace Grammar

/-- The vocabulary of the grammar has issued the symbol. -/
def Issued (g : Grammar) (s : Symbol) : Prop :=
  s.id < g.vocabulary.size

/-- A grammar all of whose symbols have been issued by its vocabulary. -/
structure Closed (g : Grammar) : Prop where
  /-- No entry of the vocabulary is without a symbol. -/
  size_le : g.vocabulary.size ≤ 4294967295
  lhs_issued : ∀ r ∈ g.rules, g.Issued r.lhs
  rhs_issued : ∀ r ∈ g.rules, ∀ s ∈ r.rhs, g.Issued s

theorem closed_iff {g : Grammar} :
    g.Closed ↔ g.vocabulary.size ≤ 4294967295 ∧
      ∀ r ∈ g.rules, g.Issued r.lhs ∧ ∀ s ∈ r.rhs, g.Issued s := by
  constructor
  · rintro ⟨hsize, hlhs, hrhs⟩
    exact ⟨hsize, fun r hr => ⟨hlhs r hr, hrhs r hr⟩⟩
  · rintro ⟨hsize, hrules⟩
    exact ⟨hsize, fun r hr => (hrules r hr).1, fun r hr => (hrules r hr).2⟩

instance (g : Grammar) (s : Symbol) : Decidable (g.Issued s) :=
  inferInstanceAs (Decidable (s.id < g.vocabulary.size))

instance (g : Grammar) : Decidable g.Closed :=
  decidable_of_iff _ closed_iff.symm

theorem Closed.issued_of_isNonterminal {g : Grammar} (h : g.Closed) {s : Symbol}
    (hs : g.isNonterminal s = true) : g.Issued s := by
  rcases isNonterminal_iff.mp hs with ⟨r, hr, rfl⟩
  exact h.lhs_issued r hr

theorem Closed.issued_of_mem_rightSides {g : Grammar} (h : g.Closed) {s t : Symbol}
    {rhs : List Symbol} (hrhs : rhs ∈ g.rightSides s) (ht : t ∈ rhs) : g.Issued t :=
  h.rhs_issued _ (mem_rightSides.mp hrhs) t ht

theorem Closed.rightSides_eq_nil {g : Grammar} (h : g.Closed) {s : Symbol} (hs : ¬ g.Issued s) :
    g.rightSides s = [] := by
  rw [rightSides_eq_nil_iff]
  exact fun hnt => hs (h.issued_of_isNonterminal hnt)

end Grammar

namespace Factoring

/-- Symbols that are issued have the numbers that follow. -/
theorem Introduces.ids {base : Symbol} {v v' : Vocabulary} {fresh : List Symbol}
    (h : Introduces base v fresh v') (hsize : v.size ≤ 4294967295) :
    fresh.map (·.id) = List.range' v.size fresh.length ∧
      v'.size = v.size + fresh.length ∧ v'.size ≤ 4294967295 := by
  -- the low 32 bits of the size are the size itself below the limit, and the numbers end before it
  have hextends := h.extends
  have hmod : v.size % 4294967296 = v.size := Nat.mod_eq_of_lt (by omega)
  have hids := hextends.ids
  have hnext := hextends.size_mod
  have hsize' := hextends.size_eq
  rw [hmod] at hids hnext
  refine ⟨hids, hsize', ?_⟩
  omega

namespace Factored

variable {o : Options} {s t : Symbol} {fresh : List Symbol} {g g' : Grammar}

/-! ## Fresh symbols -/

theorem size_eq (h : Factored o s fresh g g') (hc : g.Closed) :
    g'.vocabulary.size = g.vocabulary.size + fresh.length :=
  (h.introduces.ids hc.size_le).2.1

theorem mem_fresh_iff (h : Factored o s fresh g g') (hc : g.Closed) :
    t ∈ fresh ↔ ¬ g.Issued t ∧ g'.Issued t := by
  have hsize := h.size_eq hc
  rw [← Symbol.id_mem_map, (h.introduces.ids hc.size_le).1, List.mem_range'_1, Grammar.Issued,
    Grammar.Issued]
  omega

/-- No rule of a closed grammar has used a fresh symbol before. -/
theorem not_issued (h : Factored o s fresh g g') (hc : g.Closed) (ht : t ∈ fresh) :
    ¬ g.Issued t :=
  ((h.mem_fresh_iff hc).mp ht).1

theorem issued_fresh (h : Factored o s fresh g g') (hc : g.Closed) (ht : t ∈ fresh) :
    g'.Issued t :=
  ((h.mem_fresh_iff hc).mp ht).2

theorem issued_of (h : Factored o s fresh g g') (hc : g.Closed) (ht : g.Issued t) :
    g'.Issued t := by
  have hsize := h.size_eq hc
  unfold Grammar.Issued at ht ⊢
  omega

theorem fresh_nodup (h : Factored o s fresh g g') (hc : g.Closed) : fresh.Nodup := by
  apply List.Nodup.of_map (·.id)
  rw [(h.introduces.ids hc.size_le).1]
  exact List.nodup_range'

/-- The symbol that was factored is not fresh. -/
theorem self_not_mem (h : Factored o s fresh g g') (hc : g.Closed) : s ∉ fresh := by
  intro hs
  exact h.not_issued hc hs (hc.issued_of_isNonterminal h.isNonterminal)

/-! ## Rules -/

/-- The alternatives of a fresh symbol are what is left of its group. -/
theorem rightSides_fresh (h : Factored o s fresh g g') (hc : g.Closed) {m : Group × Symbol}
    (hm : m ∈ (g.groups o.policy s).zip fresh) :
    g'.rightSides m.2 = suffixes o.dedup (g.rightSides s) m.1 := by
  have hfresh : m.2 ∈ fresh := (List.of_mem_zip hm).2
  have hne : m.2 ≠ s := by
    intro heq
    exact h.self_not_mem hc (heq ▸ hfresh)
  rw [h.rightSides_eq, Grammar.rightSides_replaceAlternatives_of_nil _ hne
    (hc.rightSides_eq_nil (h.not_issued hc hfresh)), factoredRules, List.filter_append]
  rw [filter_mk_of_ne hne.symm, List.nil_append]
  have hnodup := h.fresh_nodup hc
  rw [← h.map_snd_zip] at hnodup
  exact filter_tails hnodup hm

/-- The head and the tails of a group come from its members and from nothing else. -/
theorem join_mem_rules (h : Factored o s fresh g g') (hc : g.Closed) {m : Group × Symbol}
    (hm : m ∈ (g.groups o.policy s).zip fresh) {rest : List Symbol}
    (hrest : ⟨m.2, rest⟩ ∈ g'.rules) : ⟨s, m.1.shared ++ rest⟩ ∈ g.rules := by
  rw [← Grammar.mem_rightSides, h.rightSides_fresh hc hm,
    mem_suffixes (h.marking.of_mem m hm)] at hrest
  exact Grammar.mem_rightSides.mp (mem_of_mem_sequences hrest)

/-- What a group shares was in a rule. -/
theorem issued_shared (h : Factored o s fresh g g') (hc : g.Closed) {m : Group × Symbol}
    (hm : m ∈ (g.groups o.policy s).zip fresh) (ht : t ∈ m.1.shared) : g.Issued t := by
  rcases (h.marking.of_mem m hm).exists_sequence with ⟨rest, hrest⟩
  exact hc.issued_of_mem_rightSides (mem_of_mem_sequences hrest) (List.mem_append_left rest ht)

/-- A closed grammar stays closed. -/
theorem closed (h : Factored o s fresh g g') (hc : g.Closed) : g'.Closed := by
  have hs : g.Issued s := hc.issued_of_isNonterminal h.isNonterminal
  constructor
  · exact (h.introduces.ids hc.size_le).2.2
  · intro r hr
    rcases h.old_or_head_or_tail hr with hold | ⟨m, hm, rfl | ⟨rest, rfl, -⟩⟩
    · exact h.issued_of hc (hc.lhs_issued r hold)
    · exact h.issued_of hc hs
    · exact h.issued_fresh hc (List.of_mem_zip hm).2
  · intro r hr t ht
    rcases h.old_or_head_or_tail hr with hold | ⟨m, hm, rfl | ⟨rest, rfl, hjoin⟩⟩
    · exact h.issued_of hc (hc.rhs_issued r hold t ht)
    · rcases List.mem_append.mp ht with hshared | hlast
      · exact h.issued_of hc (h.issued_shared hc hm hshared)
      · rw [List.mem_singleton.mp hlast]
        exact h.issued_fresh hc (List.of_mem_zip hm).2
    · exact h.issued_of hc (hc.rhs_issued _ hjoin t (List.mem_append_right _ ht))

end Factored

end Factoring

end ContextFree
