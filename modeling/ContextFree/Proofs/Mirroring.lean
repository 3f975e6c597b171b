import ContextFree.Proofs.Closed
import ContextFree.Proofs.Refusal
import ContextFree.Proofs.Splice

/-!
# Runs that mirror each other

A run over one symbol looks at nothing but the alternatives of that symbol and of its own fresh
symbols, wherever they stand. So if another grammar has the same alternatives for the symbol, the
run comes to the same there, up to the names of fresh symbols (`mirror_run`): each fresh symbol is
renamed to the one that the other vocabulary issues in its place, and the block of rules that comes
in place of the old ones is the same but for these (`Mirrored`).

All else that is asked of the other grammar is that it is closed and has room for the fresh symbols.
-/

namespace ContextFree

/-- The vocabulary issues these symbols next, and has room for them. -/
structure Vocabulary.Next (v : Vocabulary) (symbols : List Symbol) : Prop where
  size_le : v.size + symbols.length ≤ 4294967295
  ids : symbols.map (·.id) = List.range' v.size symbols.length

namespace Vocabulary.Next

variable {v v' : Vocabulary} {symbols later : List Symbol}

theorem eq (h : v.Next symbols) (h' : v.Next later) (hlen : symbols.length = later.length) :
    symbols = later := by
  have hids : symbols.map (·.id) = later.map (·.id) := by rw [h.ids, h'.ids, hlen]
  exact List.map_injective_iff.mpr (fun _ _ => Symbol.ext) hids

theorem append_ids (h : v.Next (symbols ++ later)) :
    symbols.map (·.id) = List.range' v.size symbols.length ∧
      later.map (·.id) = List.range' (v.size + symbols.length) later.length := by
  have hids := h.ids
  rw [List.length_append, List.map_append, ← List.range'_append_1] at hids
  exact List.append_inj hids (by simp)

theorem left (h : v.Next (symbols ++ later)) : v.Next symbols := by
  have hle := h.size_le
  rw [List.length_append] at hle
  exact ⟨by omega, h.append_ids.1⟩

theorem right (h : v.Next (symbols ++ later)) (hsize : v'.size = v.size + symbols.length) :
    v'.Next later := by
  have hle := h.size_le
  rw [List.length_append] at hle
  exact ⟨by omega, hsize ▸ h.append_ids.2⟩

theorem size_le_id (h : v.Next symbols) {t : Symbol} (ht : t ∈ symbols) : v.size ≤ t.id := by
  rw [← Symbol.id_mem_map, h.ids, List.mem_range'_1] at ht
  exact ht.1

end Vocabulary.Next

namespace Factoring

variable {σ : Equiv.Perm Symbol} {o : Options} {s t : Symbol} {fresh : List Symbol}
  {w w' x : Workspace}

/-- Symbols that have been issued came next. -/
theorem Extends.next {v v' : Vocabulary} (h : Extends v fresh v') (hsize : v'.size ≤ 4294967295) :
    v.Next fresh := by
  have hle := h.size_eq
  have hids := h.ids
  rw [Nat.mod_eq_of_lt (by omega)] at hids
  exact ⟨by omega, hids⟩

/-! ## One pass -/

/-- The alternatives of `t` in one grammar, renamed, are those of its new name in the other. -/
def Renamed (σ : Equiv.Perm Symbol) (t : Symbol) (g g' : Grammar) : Prop :=
  g'.rightSides (σ t) = (g.rightSides t).map (List.map σ)

theorem Renamed.isNonterminal {g g' : Grammar} (h : Renamed σ t g g') :
    g'.isNonterminal (σ t) = g.isNonterminal t := by
  rw [Bool.eq_iff_iff, Grammar.isNonterminal_iff_rightSides, Grammar.isNonterminal_iff_rightSides,
    h, Ne, List.map_eq_nil_iff]

theorem Renamed.groups {g g' : Grammar} (h : Renamed σ t g g') (policy : Policy) :
    g'.groups policy (σ t) = (g.groups policy t).map (Group.rename σ) := by
  rw [Grammar.groups, h, groups_map]
  rfl

/-- A pass has a mirror image wherever there is room for it. -/
theorem mirror_factor (h : factor o t w = .ok (.ok fresh) w')
    (hrenamed : Renamed σ t w.grammar x.grammar) (hnext : x.vocabulary.Next (fresh.map σ)) :
    ∃ x' new, factor o (σ t) x = .ok (.ok (fresh.map σ)) x' ∧
      x'.vocabulary.size = x.vocabulary.size + (fresh.map σ).length ∧
      w'.grammar.rules = splice t new w.grammar.rules ∧
      x'.grammar.rules = splice (σ t) (new.map (Rule.rename σ)) x.grammar.rules ∧
      ∀ r ∈ new, r.lhs = t ∨ r.lhs ∈ fresh := by
  have hpass := factored_of_factor h
  have hgroups := hrenamed.groups o.policy
  have hsize := hnext.size_le
  have hlen : (x.grammar.groups o.policy (σ t)).length = (fresh.map σ).length := by
    rw [hgroups, List.length_map, List.length_map, hpass.length_fresh]
  have hne : x.grammar.groups o.policy (σ t) ≠ [] := by
    rw [hgroups, Ne, List.map_eq_nil_iff]
    exact hpass.groups_ne_nil
  have hroom : (x.grammar.groups o.policy (σ t)).length ≤ x.room := by
    simp only [Workspace.room, Vocabulary.room]
    omega
  obtain ⟨fresh', x', hx⟩ :=
    factor_of_room (hrenamed.isNonterminal.trans hpass.isNonterminal) hne hroom
  have hpass' := factored_of_factor hx
  have hsizex : x.grammar.vocabulary.size ≤ 4294967295 := Nat.le_of_add_right_le hsize
  obtain ⟨-, hsizes, hle⟩ := hpass'.introduces.ids hsizex
  have hsame : fresh' = fresh.map σ :=
    (hpass'.introduces.extends.next hle).eq hnext (hpass'.length_fresh.trans hlen)
  subst hsame
  refine ⟨x', factoredRules o.dedup t (w.grammar.rightSides t)
    ((w.grammar.groups o.policy t).zip fresh), hx, hsizes, ?_, ?_,
    fun r hr => Factored.lhs_of_mem_factoredRules hr⟩
  · rw [hpass.rules_eq, Grammar.rules_replaceAlternatives_splice]
  · rw [hpass'.rules_eq, Grammar.rules_replaceAlternatives_splice, hrenamed, hgroups,
      factoredRules_map]

/-- A pass that finds nothing has a mirror image. -/
theorem mirror_passedOver (h : factor o t w = .ok (.error (.nothingToFactor t)) w)
    (hrenamed : Renamed σ t w.grammar x.grammar) :
    factor o (σ t) x = .ok (.error (.nothingToFactor (σ t))) x := by
  obtain ⟨-, -, hnt, hnil⟩ := factor_eq_nothingToFactor_iff.mp h
  refine factor_eq_nothingToFactor_iff.mpr ⟨rfl, rfl, hrenamed.isNonterminal.trans hnt, ?_⟩
  rw [hrenamed.groups, hnil, List.map_nil]

/-! ## One pass after the other -/

/-- The symbol is inside the block for `s`, and its new name is inside the mirror image of the
block. -/
def InsideBoth (σ : Equiv.Perm Symbol) (s : Symbol) (around around' : List Rule) (t : Symbol) :
    Prop :=
  Inside s around t ∧ Inside (σ s) around' (σ t)

/-- Since a run over `s` began, one block of rules has come in place of the rules of `s` in each of
two grammars, and the blocks are the same but for the names. All rules of the symbols in the blocks
are there. -/
structure Mirrored (σ : Equiv.Perm Symbol) (s : Symbol) (around around' block : List Rule)
    (g g' : Grammar) : Prop where
  size_le : g.vocabulary.size ≤ 4294967295
  rules_eq : g.rules = splice s block around
  rules_eq' : g'.rules = splice (σ s) (block.map (Rule.rename σ)) around'
  inside : ∀ r ∈ block, InsideBoth σ s around around' r.lhs
  issued : ∀ r ∈ around, g.Issued r.lhs
  issued' : ∀ r ∈ around', g'.Issued r.lhs

/-- Symbols that are issued now have no rule among older ones. -/
theorem inside_of_next {g : Grammar} {around : List Rule} (h : g.vocabulary.Next fresh)
    (hold : ∀ r ∈ around, g.Issued r.lhs) (ht : t ∈ fresh) : Inside s around t := by
  refine .inr fun r hr heq => ?_
  have hissued := hold r hr
  have hid := h.size_le_id ht
  rw [heq, Grammar.Issued] at hissued
  omega

namespace Mirrored

variable {around around' block : List Rule} {g g' g₁ g₁' : Grammar}

theorem renamed (h : Mirrored σ s around around' block g g')
    (ht : InsideBoth σ s around around' t) : Renamed σ t g g' := by
  have hfilter : (block.map (Rule.rename σ)).filter (·.lhs = σ t) =
      (block.filter (·.lhs = t)).map (Rule.rename σ) := by
    rw [List.filter_map]
    congr 1
    exact List.filter_congr fun r _ => decide_eq_decide.mpr σ.injective.eq_iff
  rw [Renamed, Grammar.rightSides_eq, Grammar.rightSides_eq, h.rules_eq, h.rules_eq',
    filter_splice_inside ht.1, filter_splice_inside ht.2, hfilter, List.map_map, List.map_map]
  rfl

/-- A symbol inside the block has its rules there. -/
theorem exists_mem_block (h : Mirrored σ s around around' block g g') (ht : Inside s around t)
    (hnt : g.isNonterminal t = true) : ∃ r ∈ block, r.lhs = t := by
  obtain ⟨r, hr, hlhs⟩ := Grammar.isNonterminal_iff.mp hnt
  have hmem : r ∈ (splice s block around).filter (·.lhs = t) :=
    List.mem_filter.mpr ⟨h.rules_eq ▸ hr, decide_eq_true hlhs⟩
  rw [filter_splice_inside ht] at hmem
  exact ⟨r, (List.mem_filter.mp hmem).1, hlhs⟩

/-- After a pass the blocks have changed and the rules around them have not. -/
theorem of_pass (hpass : Factored o t fresh g g₁) (hsize : g.vocabulary.size ≤ 4294967295)
    (hnext : g'.vocabulary.Next (fresh.map σ))
    (hsize' : g₁'.vocabulary.size = g'.vocabulary.size + (fresh.map σ).length)
    (hissued : ∀ r ∈ around, g.Issued r.lhs) (hissued' : ∀ r ∈ around', g'.Issued r.lhs)
    (hrules : g₁.rules = splice s block around)
    (hrules' : g₁'.rules = splice (σ s) (block.map (Rule.rename σ)) around')
    (hlhs : ∀ r ∈ block, InsideBoth σ s around around' r.lhs ∨ r.lhs ∈ fresh) :
    Mirrored σ s around around' block g₁ g₁' ∧ ∀ f ∈ fresh, InsideBoth σ s around around' f := by
  obtain ⟨-, hsizes, hle⟩ := hpass.introduces.ids hsize
  have hfresh : ∀ f ∈ fresh, InsideBoth σ s around around' f := fun f hf =>
    ⟨inside_of_next (hpass.introduces.extends.next hle) hissued hf,
      inside_of_next hnext hissued' (List.mem_map_of_mem hf)⟩
  refine ⟨⟨hle, hrules, hrules', fun r hr => (hlhs r hr).elim id (hfresh r.lhs), ?_, ?_⟩, hfresh⟩
  · exact fun r hr => Nat.lt_of_lt_of_le (hissued r hr) (by omega)
  · exact fun r hr => Nat.lt_of_lt_of_le (hissued' r hr) (by omega)

/-- The first pass, over the symbol itself. -/
theorem of_factor (h : factor o s w = .ok (.ok fresh) w') (hw : w.grammar.Closed)
    (hx : x.grammar.Closed) (hrenamed : Renamed σ s w.grammar x.grammar)
    (hnext : x.vocabulary.Next (fresh.map σ)) :
    ∃ x' block, factor o (σ s) x = .ok (.ok (fresh.map σ)) x' ∧
      x'.vocabulary.size = x.vocabulary.size + (fresh.map σ).length ∧
      Mirrored σ s w.grammar.rules x.grammar.rules block w'.grammar x'.grammar ∧
      ∀ f ∈ fresh, InsideBoth σ s w.grammar.rules x.grammar.rules f := by
  obtain ⟨x', new, hfactor, hsize, hrules, hrules', hlhs⟩ := mirror_factor h hrenamed hnext
  refine ⟨x', new, hfactor, hsize, of_pass (factored_of_factor h) hw.size_le hnext hsize
    hw.lhs_issued hx.lhs_issued hrules hrules' fun r hr => (hlhs r hr).imp_left ?_⟩
  intro heq
  exact ⟨.inl heq, .inl (congrArg σ heq)⟩

/-- One more pass, over a symbol inside the block. -/
theorem step (hm : Mirrored σ s around around' block w.grammar x.grammar)
    (h : factor o t w = .ok (.ok fresh) w') (ht : InsideBoth σ s around around' t)
    (hnext : x.vocabulary.Next (fresh.map σ)) :
    ∃ x' block', factor o (σ t) x = .ok (.ok (fresh.map σ)) x' ∧
      x'.vocabulary.size = x.vocabulary.size + (fresh.map σ).length ∧
      Mirrored σ s around around' block' w'.grammar x'.grammar ∧
      ∀ f ∈ fresh, InsideBoth σ s around around' f := by
  have hpass := factored_of_factor h
  obtain ⟨x', new, hfactor, hsize, hrules, hrules', hlhs⟩ := mirror_factor h (hm.renamed ht) hnext
  have hblock := hm.exists_mem_block ht.1 hpass.isNonterminal
  have hblock' : ∃ r ∈ block.map (Rule.rename σ), r.lhs = σ t := by
    obtain ⟨r, hr, rfl⟩ := hblock
    exact ⟨r.rename σ, List.mem_map_of_mem hr, rfl⟩
  rw [hm.rules_eq, splice_splice ht.1 hblock] at hrules
  rw [hm.rules_eq', splice_splice ht.2 hblock', splice_map] at hrules'
  refine ⟨x', splice t new block, hfactor, hsize, of_pass hpass hm.size_le hnext hsize
    hm.issued hm.issued' hrules hrules' ?_⟩
  intro r hr
  rcases mem_splice.mp hr with hnew | ⟨hold, -⟩
  · rcases hlhs r hnew with heq | hfresh
    · exact .inl (heq ▸ ht)
    · exact .inr hfresh
  · exact .inl (hm.inside r hold)

/-- A queue of symbols inside the block is drained in the mirror image, too. -/
theorem drains {queue later : List Symbol} (h : Drains o queue w later w')
    (hm : Mirrored σ s around around' block w.grammar x.grammar)
    (hqueue : ∀ t ∈ queue, InsideBoth σ s around around' t)
    (hnext : x.vocabulary.Next (later.map σ)) :
    ∃ x' block', Drains o (queue.map σ) x (later.map σ) x' ∧
      Mirrored σ s around around' block' w'.grammar x'.grammar := by
  induction h generalizing x block with
  | done w => exact ⟨x, block, .done x, hm⟩
  | @factored t rest fresh later w w₁ w' hfactor _ ih =>
    rw [List.forall_mem_cons] at hqueue
    rw [List.map_append] at hnext ⊢
    obtain ⟨x₁, block₁, hfactor', hsize, hm₁, hfresh⟩ :=
      step (w := w.revisit t) (x := x.revisit (σ t)) hm hfactor hqueue.1 hnext.left
    have hqueue' : ∀ u ∈ rest ++ fresh, InsideBoth σ s around around' u := fun u hu =>
      (List.mem_append.mp hu).elim (hqueue.2 u) (hfresh u)
    obtain ⟨x', block', hdrains, hm'⟩ := ih hm₁ hqueue' (hnext.right hsize)
    rw [List.map_append] at hdrains
    exact ⟨x', block', .factored hfactor' hdrains, hm'⟩
  | @passedOver t rest later w w' hfactor _ ih =>
    rw [List.forall_mem_cons] at hqueue
    have hfactor' := mirror_passedOver (x := x.revisit (σ t)) hfactor (hm.renamed hqueue.1)
    obtain ⟨x', block', hdrains, hm'⟩ := ih (x := x.revisit (σ t)) hm hqueue.2 hnext
    exact ⟨x', block', .passedOver hfactor' hdrains, hm'⟩

end Mirrored

/-! ## Runs -/

/-- The run over one symbol: one pass, or as long as there is something to factor. -/
def Run.over (toEnd : Bool) (s : Symbol) : Run :=
  if toEnd then .fully s else .once s

/-- A refused pass has a mirror image. -/
theorem mirror_refused {r : Refusal} (h : factor o s w = .ok (.error r) w)
    (hrenamed : Renamed σ s w.grammar x.grammar) (hs : σ s = s) :
    factor o s x = .ok (.error r) x := by
  cases r with
  | notNonterminal t =>
    obtain ⟨rfl, -, hnt⟩ := factor_eq_notNonterminal_iff.mp h
    have hnt' := hrenamed.isNonterminal.trans hnt
    rw [hs] at hnt'
    exact factor_eq_notNonterminal_iff.mpr ⟨rfl, rfl, hnt'⟩
  | nothingToFactor t =>
    obtain ⟨rfl, -⟩ := factor_eq_nothingToFactor_iff.mp h
    have hmirror := mirror_passedOver h hrenamed
    rwa [hs] at hmirror

/-- A run over a symbol has a mirror image in every closed grammar that has the same alternatives
for the symbol and room for the fresh symbols: the same change of rules, up to the names. -/
theorem mirror_run {toEnd : Bool} {answer : Except Refusal (List Symbol)}
    (h : (Run.over toEnd s).perform o w = .ok answer w') (hw : w.grammar.Closed)
    (hx : x.grammar.Closed) (hs : σ s = s) (hrenamed : Renamed σ s w.grammar x.grammar)
    (hnext : x.vocabulary.Next ((answer.toOption.getD []).map σ)) :
    ∃ x' block?, (Run.over toEnd s).perform o x = .ok (answer.map (List.map σ)) x' ∧
      w'.grammar.rules = change s block? w.grammar.rules ∧
      x'.grammar.rules = change s (block?.map (List.map (Rule.rename σ))) x.grammar.rules ∧
      ∀ block ∈ block?, ∀ r ∈ block,
        InsideBoth σ s w.grammar.rules x.grammar.rules r.lhs := by
  cases answer with
  | error r =>
    cases eq_of_run_refused h
    refine ⟨x, none, ?_, rfl, rfl, fun block hblock => nomatch hblock⟩
    cases toEnd with
    | false => exact mirror_refused h hrenamed hs
    | true =>
      have hrefused := mirror_refused (factorFully_refused_iff.mp h) hrenamed hs
      exact factorFully_refused_iff.mpr hrefused
  | ok fresh =>
    cases toEnd with
    | false =>
      obtain ⟨x', block, hfactor, -, hm, -⟩ := Mirrored.of_factor h hw hx hrenamed hnext
      have hrules' := hm.rules_eq'
      rw [hs] at hfactor hrules'
      refine ⟨x', some block, hfactor, hm.rules_eq, hrules', ?_⟩
      rintro _ ⟨⟩ r hr
      exact hm.inside r hr
    | true =>
      obtain ⟨first, w₁, later, hfactor, hdrains, rfl⟩ := of_factorFully h
      have hnext : x.vocabulary.Next ((first ++ later).map σ) := hnext
      rw [List.map_append] at hnext
      obtain ⟨x₁, block, hfactor', hsize, hm, hfirst⟩ :=
        Mirrored.of_factor hfactor hw hx hrenamed hnext.left
      obtain ⟨x', block', hdrains', hm'⟩ := hm.drains hdrains hfirst (hnext.right hsize)
      have hfully := factorFully_of_drains hfactor' hdrains'
      have hrules' := hm'.rules_eq'
      rw [hs, ← List.map_append] at hfully
      rw [hs] at hrules'
      refine ⟨x', some block', hfully, hm'.rules_eq, hrules', ?_⟩
      rintro _ ⟨⟩ r hr
      exact hm'.inside r hr

end Factoring

end ContextFree
