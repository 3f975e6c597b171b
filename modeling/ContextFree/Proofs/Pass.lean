import ContextFree.Proofs.Scan

/-!
# What a pass does

`Factored o s fresh g g'` says all that a successful pass over `s` does to a grammar `g`: which
symbols it issues (`Introduces`), and what the rules of `g'` are. `factored_of_factor` is the one
place where the steps of a pass are opened; everything else about a pass is derived from
`Factored`.

A symbol that is neither factored nor fresh keeps its alternatives
(`Factored.rightSides_of_ne`), and no symbol loses its last rule (`Factored.isNonterminal_of`),
whatever symbols the rules use.
-/

namespace ContextFree

namespace Vocabulary

/-! ## Issuing symbols -/

theorem of_issue {name? : Option String} {v w : Vocabulary} {s : Symbol}
    (h : issue name? v = .ok s w) : w.names = v.names ++ [name?] ∧ Symbol.ofNat v.size = .ok s := by
  unfold issue at h
  split at h
  next hs =>
    cases h
    exact ⟨rfl, hs⟩
  · cases h

theorem prefix_of_issue {name? : Option String} {v w : Vocabulary} {s : Symbol}
    (h : issue name? v = .ok s w) : v.names <+: w.names := by
  rw [(of_issue h).1]
  exact List.prefix_append _ _

theorem size_of_issue {name? : Option String} {v w : Vocabulary} {s : Symbol}
    (h : issue name? v = .ok s w) : w.size = v.size + 1 := by
  rw [size, (of_issue h).1, List.length_append]
  rfl

/-- The number of a symbol is that of its entry if there are not more entries than symbols. -/
theorem id_of_issue {name? : Option String} {v w : Vocabulary} {s : Symbol}
    (h : issue name? v = .ok s w) (hsize : v.size ≤ 4294967295) : s.id = v.size := by
  have hid := Symbol.ofNat_eq_ok_iff.mp (of_issue h).2
  have hlt := s.id_lt
  omega

theorem size_le_of_issue {name? : Option String} {v w : Vocabulary} {s : Symbol}
    (h : issue name? v = .ok s w) (hsize : v.size ≤ 4294967295) : w.size ≤ 4294967295 := by
  rw [size_of_issue h, ← id_of_issue h hsize]
  exact s.id_lt

/-- A vocabulary without room is the only one that does not issue a symbol, and is not changed. -/
theorem issue_eq_error_iff {name? : Option String} {v w : Vocabulary} {e : OutOfSymbols} :
    issue name? v = .error e w ↔ v.room = 0 ∧ w = v := by
  unfold issue
  split
  next s hs =>
    have hid := Symbol.ofNat_eq_ok_iff.mp hs
    have hlt := s.id_lt
    constructor
    · intro h
      cases h
    · rintro ⟨hroom, -⟩
      rw [room] at hroom
      omega
  next he =>
    rw [room, Symbol.ofNat_eq_error_iff.mp he]
    constructor
    · intro h
      cases h
      exact ⟨rfl, rfl⟩
    · rintro ⟨-, rfl⟩
      rfl

/-- A vocabulary with room issues a symbol. -/
theorem issue_of_room {v : Vocabulary} (name? : Option String) (h : 0 < v.room) :
    ∃ s w, issue name? v = .ok s w := by
  cases hissue : issue name? v with
  | ok s w => exact ⟨s, w, rfl⟩
  | error e w => exact absurd (issue_eq_error_iff.mp hissue).1 (Nat.ne_of_gt h)

end Vocabulary

namespace Factoring

/-- The symbols `fresh` are issued one after the other, each with a fresh name that is derived from
`base`. -/
inductive Introduces (base : Symbol) : Vocabulary → List Symbol → Vocabulary → Prop
  | nil (v : Vocabulary) : Introduces base v [] v
  | cons {v v₁ v' : Vocabulary} {s : Symbol} {fresh : List Symbol} :
      Vocabulary.issue (some (v.freshName base)) v = .ok s v₁ →
      Introduces base v₁ fresh v' → Introduces base v (s :: fresh) v'

/-- A pass over `s` under `o`, with the fresh symbols `fresh`, leads from `g` to `g'`. -/
structure Factored (o : Options) (s : Symbol) (fresh : List Symbol) (g g' : Grammar) : Prop where
  isNonterminal : g.isNonterminal s = true
  groups_ne_nil : g.groups o.policy s ≠ []
  length_fresh : fresh.length = (g.groups o.policy s).length
  introduces : Introduces s g.vocabulary fresh g'.vocabulary
  rules_eq : g'.rules = (g.replaceAlternatives s (factoredRules o.dedup s (g.rightSides s)
    ((g.groups o.policy s).zip fresh))).rules

/-! ## Opening the steps -/

theorem of_introduce {base fresh : Symbol} {w w' : Workspace}
    (h : introduce base w = .ok fresh w') :
    Vocabulary.issue (some (w.vocabulary.freshName base)) w.vocabulary = .ok fresh w'.vocabulary ∧
      w'.grammar.rules = w.grammar.rules := by
  simp only [introduce, Action.bind_eq_ok_iff, Action.get_apply, Action.modify_apply,
    Action.pure_apply, EStateM.Result.ok.injEq, onVocabulary_eq] at h
  rcases h with ⟨_, _, ⟨rfl, rfl⟩, s, w₁, hissue, _, _, ⟨_, rfl⟩, rfl, rfl⟩
  split at hissue
  next a v hv =>
    cases hissue
    exact ⟨hv, rfl⟩
  · cases hissue

theorem of_separate {s fresh : Symbol} {G : Group} {w w' : Workspace}
    (h : separate s G w = .ok fresh w') :
    Vocabulary.issue (some (w.vocabulary.freshName s)) w.vocabulary = .ok fresh w'.vocabulary ∧
      w'.grammar.rules = w.grammar.rules := by
  simp only [separate, Action.bind_eq_ok_iff, Action.modify_apply, Action.pure_apply,
    EStateM.Result.ok.injEq] at h
  rcases h with ⟨_, w₁, hintro, _, _, ⟨_, rfl⟩, rfl, rfl⟩
  have hsame := of_introduce hintro
  exact hsame

/-- Separating groups issues a symbol for each and leaves the rules alone. -/
theorem of_mapM_separate {s : Symbol} {Gs : List Group} {fresh : List Symbol} {w w' : Workspace}
    (h : Gs.mapM (separate s) w = .ok fresh w') :
    fresh.length = Gs.length ∧ Introduces s w.vocabulary fresh w'.vocabulary ∧
      w'.grammar.rules = w.grammar.rules := by
  induction Gs generalizing fresh w with
  | nil =>
    simp only [List.mapM_nil, Action.pure_apply, EStateM.Result.ok.injEq] at h
    rcases h with ⟨rfl, rfl⟩
    exact ⟨rfl, .nil _, rfl⟩
  | cons G Gs ih =>
    simp only [List.mapM_cons, Action.bind_eq_ok_iff, Action.pure_apply,
      EStateM.Result.ok.injEq] at h
    rcases h with ⟨f, w₁, hsep, rest, _, hrest, rfl, rfl⟩
    rcases of_separate hsep with ⟨hissue, hrules⟩
    rcases ih hrest with ⟨hlen, hintro, hrules'⟩
    exact ⟨by simp [hlen], .cons hissue hintro, hrules'.trans hrules⟩

theorem factored_of_factor {o : Options} {s : Symbol} {fresh : List Symbol} {w w' : Workspace}
    (h : factor o s w = .ok (.ok fresh) w') : Factored o s fresh w.grammar w'.grammar := by
  rw [factor_apply] at h
  split at h
  · cases h
  next hnt =>
    split at h
    · cases h
    next hgroups =>
      split at h
      next hf =>
        cases h
        rw [factorGroups_eq o.dedup s (w.grammar.grouping o.policy s)] at hf
        simp only [Action.bind_eq_ok_iff, Action.modify_apply, Action.pure_apply,
          EStateM.Result.ok.injEq] at hf
        rcases hf with ⟨_, w₁, hmap, _, _, ⟨_, rfl⟩, rfl, rfl⟩
        rcases of_mapM_separate hmap with ⟨hlen, hintro, hrules⟩
        refine ⟨by simpa using hnt, by simpa using hgroups, hlen, hintro, ?_⟩
        simp only [Workspace.replace, Workspace.report]
        rw [Grammar.rules_replaceAlternatives_congr hrules]
      · cases h

/-! ## Refusals -/

/-- What a pass answers, read off the grammar. A refused pass leaves the workspace as it was. -/
theorem factor_eq_notNonterminal_iff {o : Options} {s t : Symbol} {w w' : Workspace} :
    factor o s w = .ok (.error (.notNonterminal t)) w' ↔
      t = s ∧ w' = w ∧ w.grammar.isNonterminal s = false := by
  rw [factor_apply]
  constructor
  · intro h
    split at h
    next hnt =>
      cases h
      exact ⟨rfl, rfl, by simpa using hnt⟩
    · split at h
      · cases h
      · split at h <;> cases h
  · rintro ⟨rfl, rfl, hnt⟩
    simp [hnt]

theorem factor_eq_nothingToFactor_iff {o : Options} {s t : Symbol} {w w' : Workspace} :
    factor o s w = .ok (.error (.nothingToFactor t)) w' ↔
      t = s ∧ w' = w ∧ w.grammar.isNonterminal s = true ∧ w.grammar.groups o.policy s = [] := by
  rw [factor_apply]
  constructor
  · intro h
    split at h
    · cases h
    next hnt =>
      split at h
      next hgroups =>
        cases h
        exact ⟨rfl, rfl, by simpa using hnt, by simpa using hgroups⟩
      · split at h <;> cases h
  · rintro ⟨rfl, rfl, hnt, hgroups⟩
    simp [hnt, hgroups]

/-! ## Room -/

theorem introduce_of_room {base : Symbol} {w : Workspace} (h : 0 < w.room) :
    ∃ fresh w', introduce base w = .ok fresh w' := by
  obtain ⟨s, v, hissue⟩ :=
    Vocabulary.issue_of_room (some (w.vocabulary.freshName base)) (v := w.vocabulary) h
  simp only [introduce, Action.bind_apply, Action.get_apply, Action.modify_apply,
    Action.pure_apply, onVocabulary_eq, hissue]
  exact ⟨_, _, rfl⟩

theorem separate_of_room {s : Symbol} (G : Group) {w : Workspace} (h : 0 < w.room) :
    ∃ fresh w', separate s G w = .ok fresh w' := by
  have hintro : ∃ fresh w', introduce s w = .ok fresh w' := introduce_of_room h
  rcases hintro with ⟨fresh, w₁, hintro⟩
  simp only [separate, Action.bind_apply, Action.modify_apply, Action.pure_apply, hintro]
  exact ⟨_, _, rfl⟩

theorem mapM_separate_of_room {s : Symbol} {Gs : List Group} {w : Workspace}
    (h : Gs.length ≤ w.room) : ∃ fresh w', Gs.mapM (separate s) w = .ok fresh w' := by
  induction Gs generalizing w with
  | nil => exact ⟨_, _, rfl⟩
  | cons G Gs ih =>
    rw [List.length_cons] at h
    rcases separate_of_room G (s := s) (w := w) (by omega) with ⟨f, w₁, hsep⟩
    -- one group takes up one place, so there is room for the rest of them
    have hroom := room_of_separate hsep
    rcases ih (w := w₁) (by omega) with ⟨rest, w₂, hrest⟩
    simp only [List.mapM_cons, Action.bind_apply, Action.pure_apply, hsep, hrest]
    exact ⟨_, _, rfl⟩

theorem factorGroups_of_room {dedup : Bool} {s : Symbol} {Gs : List Group} {w : Workspace}
    (hG : Grouping (w.grammar.rightSides s) Gs) (h : Gs.length ≤ w.room) :
    ∃ fresh w', factorGroups dedup s Gs w = .ok fresh w' := by
  rcases mapM_separate_of_room (s := s) h with ⟨fresh, w₁, hmap⟩
  rw [factorGroups_eq dedup s hG]
  simp only [Action.bind_apply, Action.modify_apply, Action.pure_apply, hmap]
  exact ⟨_, _, rfl⟩

namespace Factored

variable {o : Options} {s t : Symbol} {fresh : List Symbol} {g g' : Grammar}

/-! ## Rules after a pass -/

theorem marking (h : Factored o s fresh g g') :
    Marking (g.rightSides s) ((g.groups o.policy s).zip fresh) :=
  marking_zip o.policy (g.rightSides s) h.length_fresh

theorem rightSides_eq (h : Factored o s fresh g g') :
    g'.rightSides = (g.replaceAlternatives s (factoredRules o.dedup s (g.rightSides s)
      ((g.groups o.policy s).zip fresh))).rightSides :=
  Grammar.rightSides_congr h.rules_eq

theorem mem_rules (h : Factored o s fresh g g') {r : Rule} :
    r ∈ g'.rules ↔ (r ∈ g.rules ∧ r.lhs ≠ s) ∨
      r ∈ factoredRules o.dedup s (g.rightSides s) ((g.groups o.policy s).zip fresh) := by
  rw [h.rules_eq, Grammar.mem_rules_replaceAlternatives]

/-- New rules are for the symbol that is factored and for the fresh ones. -/
theorem lhs_of_mem_factoredRules {dedup : Bool} {alternatives : List (List Symbol)}
    {Gs : List Group} {r : Rule} (hr : r ∈ factoredRules dedup s alternatives (Gs.zip fresh)) :
    r.lhs = s ∨ r.lhs ∈ fresh := by
  rcases List.mem_append.mp hr with hhead | htail
  · rcases List.mem_map.mp hhead with ⟨rhs, -, rfl⟩
    exact .inl rfl
  · rcases mem_tails.mp htail with ⟨m, hm, hlhs, -⟩
    exact .inr (hlhs ▸ (List.of_mem_zip hm).2)

/-- A symbol that is neither factored nor fresh keeps its alternatives. -/
theorem rightSides_of_ne (h : Factored o s fresh g g') (hts : t ≠ s) (hfresh : t ∉ fresh) :
    g'.rightSides t = g.rightSides t := by
  rw [h.rightSides_eq]
  apply Grammar.rightSides_replaceAlternatives_of_ne hts
  intro r hr hlhs
  rcases lhs_of_mem_factoredRules hr with hs | hf
  · exact hts (hlhs.symm.trans hs)
  · exact hfresh (hlhs ▸ hf)

theorem map_snd_zip (h : Factored o s fresh g g') :
    ((g.groups o.policy s).zip fresh).map (·.2) = fresh :=
  List.map_snd_zip (Nat.le_of_eq h.length_fresh)

/-- A fresh symbol belongs to a group. -/
theorem exists_group (h : Factored o s fresh g g') (ht : t ∈ fresh) :
    ∃ m ∈ (g.groups o.policy s).zip fresh, m.2 = t := by
  rw [← h.map_snd_zip] at ht
  exact List.mem_map.mp ht

/-- A group has a fresh symbol. -/
theorem exists_fresh (h : Factored o s fresh g g') {G : Group} (hG : G ∈ g.groups o.policy s) :
    ∃ m ∈ (g.groups o.policy s).zip fresh, m.1 = G := by
  have hfst : ((g.groups o.policy s).zip fresh).map (·.1) = g.groups o.policy s :=
    List.map_fst_zip (Nat.le_of_eq h.length_fresh.symm)
  rw [← hfst] at hG
  exact List.mem_map.mp hG

/-- The alternatives of the symbol that was factored are the heads, unless it is fresh itself. -/
theorem rightSides_self (h : Factored o s fresh g g') (hfresh : s ∉ fresh) :
    g'.rightSides s = heads (g.rightSides s) ((g.groups o.policy s).zip fresh) := by
  rw [← h.map_snd_zip] at hfresh
  rw [h.rightSides_eq, Grammar.rightSides_replaceAlternatives_self, factoredRules,
    List.filter_append, List.map_append, map_rhs_filter_mk, filter_tails_of_not_mem hfresh,
    List.map_nil, List.append_nil]

/-- No symbol loses its last rule in a pass. -/
theorem isNonterminal_of (h : Factored o s fresh g g') (ht : g.isNonterminal t = true) :
    g'.isNonterminal t = true := by
  rw [Grammar.isNonterminal_iff] at ht ⊢
  rcases ht with ⟨r, hr, rfl⟩
  by_cases hrs : r.lhs = s
  · -- the rules of `s` itself are replaced, but it has heads instead
    have hne : g.rightSides s ≠ [] := Grammar.isNonterminal_iff_rightSides.mp h.isNonterminal
    rcases List.exists_mem_of_ne_nil _ (h.marking.heads_ne_nil hne) with ⟨head, hhead⟩
    refine ⟨⟨s, head⟩, h.mem_rules.mpr (.inr ?_), hrs.symm⟩
    exact List.mem_append_left _ (List.mem_map_of_mem hhead)
  · exact ⟨r, h.mem_rules.mpr (.inl ⟨hr, hrs⟩), rfl⟩

/-- Every fresh symbol has a rule. -/
theorem isNonterminal_fresh (h : Factored o s fresh g g') (ht : t ∈ fresh) :
    g'.isNonterminal t = true := by
  rcases h.exists_group ht with ⟨m, hm, rfl⟩
  have hne := suffixes_ne_nil (h.marking.of_mem m hm) o.dedup
  rcases List.exists_mem_of_ne_nil _ hne with ⟨rest, hrest⟩
  rw [Grammar.isNonterminal_iff]
  refine ⟨⟨m.2, rest⟩, h.mem_rules.mpr (.inr ?_), rfl⟩
  exact List.mem_append_right _ (mem_tails.mpr ⟨m, hm, rfl, hrest⟩)

theorem fresh_ne_nil (h : Factored o s fresh g g') : fresh ≠ [] := by
  intro hnil
  apply h.groups_ne_nil
  rw [← List.length_eq_zero_iff, ← h.length_fresh, hnil, List.length_nil]

/-! ## Which rules there are after a pass -/

/-- The group of a fresh symbol has a head. -/
theorem head_mem_rules (h : Factored o s fresh g g') {m : Group × Symbol}
    (hm : m ∈ (g.groups o.policy s).zip fresh) : ⟨s, m.1.shared ++ [m.2]⟩ ∈ g'.rules := by
  have hhead := h.marking.mem_heads.mpr (.inr ⟨m, hm, rfl⟩)
  exact h.mem_rules.mpr (.inr (List.mem_append_left _ (List.mem_map_of_mem hhead)))

/-- A rule is kept, or else it is taken apart into the head and a tail of its group. -/
theorem kept_or_split (h : Factored o s fresh g g') {r : Rule} (hr : r ∈ g.rules) :
    r ∈ g'.rules ∨ ∃ m ∈ (g.groups o.policy s).zip fresh, ∃ rest,
      r = ⟨s, m.1.shared ++ rest⟩ ∧ ⟨m.2, rest⟩ ∈ g'.rules := by
  by_cases hrs : r.lhs = s
  · rcases r with ⟨lhs, rhs⟩
    cases hrs
    -- an alternative in no group is its own head; another one begins with what its group shares
    rcases h.marking.mem_alternatives.mp (Grammar.mem_rightSides.mpr hr) with hfree | ⟨m, hm, hseq⟩
    · have hhead := h.marking.mem_heads.mpr (.inl hfree)
      exact .inl (h.mem_rules.mpr (.inr (List.mem_append_left _ (List.mem_map_of_mem hhead))))
    · have hof := h.marking.of_mem m hm
      rcases hof.shared_begins hseq with ⟨rest, rfl⟩
      refine .inr ⟨m, hm, rest, rfl, h.mem_rules.mpr (.inr (List.mem_append_right _ ?_))⟩
      exact mem_tails.mpr ⟨m, hm, rfl, (mem_suffixes hof).mpr hseq⟩
  · exact .inl (h.mem_rules.mpr (.inl ⟨hr, hrs⟩))

/-- A rule after a pass is an old one, or the head or a tail of a group. -/
theorem old_or_head_or_tail (h : Factored o s fresh g g') {r : Rule} (hr : r ∈ g'.rules) :
    r ∈ g.rules ∨ ∃ m ∈ (g.groups o.policy s).zip fresh,
      r = ⟨s, m.1.shared ++ [m.2]⟩ ∨
        ∃ rest, r = ⟨m.2, rest⟩ ∧ ⟨s, m.1.shared ++ rest⟩ ∈ g.rules := by
  rcases h.mem_rules.mp hr with ⟨hold, -⟩ | hnew
  · exact .inl hold
  rcases List.mem_append.mp hnew with hmap | htail
  · rcases List.mem_map.mp hmap with ⟨head, hhead, rfl⟩
    rcases h.marking.mem_heads.mp hhead with hfree | ⟨m, hm, rfl⟩
    · exact .inl (Grammar.mem_rightSides.mp (h.marking.mem_alternatives.mpr (.inl hfree)))
    · exact .inr ⟨m, hm, .inl rfl⟩
  · rcases mem_tails.mp htail with ⟨m, hm, hlhs, hrest⟩
    rcases r with ⟨lhs, rest⟩
    cases hlhs
    refine .inr ⟨m, hm, .inr ⟨rest, rfl, Grammar.mem_rightSides.mp ?_⟩⟩
    exact mem_of_mem_sequences ((mem_suffixes (h.marking.of_mem m hm)).mp hrest)

end Factored

end Factoring

end ContextFree
