import ContextFree.Grammar.NamedRules
import ContextFree.Proofs.Closed
import ContextFree.Proofs.FreshSymbols
import ContextFree.Proofs.NameOwners

/-!
# Grammars from named rules

Rules given by names are added one by one, and symbols are issued as new names are met. After each
rule the name table lists the names that have been met, each once, by their first occurrences
(`Vocabulary.Lists`), and each symbol that a rule uses is recorded under the name that was given for
it (`Grammar.Spells`). So the rules are shown as they were given, and a name stands for one symbol
all over the grammar.

Rules of one left side may also be added by a chain, for which the name of the left side is looked
up once. That makes no difference (`Grammar.forM_addChain`), whatever the grammar is that the rules
are added to.
-/

namespace ContextFree

/-! ## Actions in a row -/

namespace Action

variable {σ α : Type} {f : α → Action σ Unit}

theorem forM_cons_apply (a : α) (l : List α) (s : σ) :
    (a :: l).forM f s =
      match f a s with
      | .ok _ s' => l.forM f s'
      | .error e s' => .error e s' := by
  show (f a >>= fun _ => l.forM f) s = _
  rw [bind_apply]
  cases f a s <;> rfl

theorem forM_append_apply (l l' : List α) (s : σ) :
    (l ++ l').forM f s =
      match l.forM f s with
      | .ok _ s' => l'.forM f s'
      | .error e s' => .error e s' := by
  induction l generalizing s with
  | nil => rfl
  | cons a l ih =>
    rw [List.cons_append, forM_cons_apply, forM_cons_apply]
    cases f a s with
    | ok _ s' => exact ih s'
    | error e s' => rfl

end Action

/-! ## Tables of names -/

namespace Vocabulary

variable {v w : Vocabulary} {names added : List String} {name : String} {s : Symbol}

/-- The name table lists the given names, each at its first occurrence, and nothing else. -/
def Lists (v : Vocabulary) (names : List String) : Prop :=
  v.names = names.eraseDups.map some

/-- Symbol `s` is recorded under `name`. -/
def Records (v : Vocabulary) (s : Symbol) (name : String) : Prop :=
  v.names[s.id]? = some (some name)

theorem Lists.size_eq (h : v.Lists names) : v.size = names.eraseDups.length := by
  rw [size, h, List.length_map]

theorem Lists.mem_iff (h : v.Lists names) : some name ∈ v.names ↔ name ∈ names := by
  rw [h, List.mem_map_of_injective (Option.some_injective _), List.mem_eraseDups]

theorem Records.mono (h : v.Records s name) (hgrows : v.names <+: w.names) :
    w.Records s name := by
  obtain ⟨more, hmore⟩ := hgrows
  rw [Records, ← hmore, List.getElem?_append_left (List.getElem?_eq_some_iff.mp h).1]
  exact h

/-- More names make more entries. -/
theorem length_eraseDups_le_append (names added : List String) :
    names.eraseDups.length ≤ (names ++ added).eraseDups.length := by
  rw [List.eraseDups_append, List.length_append]
  exact Nat.le_add_right _ _

/-- The name that is met next is listed if it is new. -/
theorem intern_lists (h : v.Lists names)
    (hroom : (names ++ [name]).eraseDups.length ≤ 4294967295) :
    ∃ s w, intern name v = .ok s w ∧ w.Lists (names ++ [name]) ∧ w.Records s name := by
  have hsize := h.size_eq
  have hle := length_eraseDups_le_append names [name]
  by_cases hmem : name ∈ names
  · have hfound : (v.find? name).isSome := find?_isSome_iff.mpr (h.mem_iff.mpr hmem)
    obtain ⟨s, hs⟩ := Option.isSome_iff_exists.mp hfound
    have howns := (find?_eq_some_iff (by omega)).mp hs
    refine ⟨s, v, intern_of_some hs, ?_, howns.1⟩
    rw [Lists, eraseDups_concat, if_pos hmem]
    exact h
  · have hnone : v.find? name = none := by
      rw [← Option.not_isSome_iff_eq_none, find?_isSome_iff, h.mem_iff]
      exact hmem
    rw [eraseDups_concat, if_neg hmem, List.length_append, List.length_singleton] at hroom
    obtain ⟨s, w, hissue, hid, hnames⟩ := issue_of_lt (v := v) (by omega) (some name)
    refine ⟨s, w, (intern_of_none hnone).trans hissue, ?_, ?_⟩
    · rw [Lists, eraseDups_concat, if_neg hmem, hnames, h, List.map_append, List.map_singleton]
    · rw [Records, hnames, hid]
      exact List.getElem?_concat_length

theorem prefix_of_intern (h : intern name v = .ok s w) : v.names <+: w.names :=
  (keeps_intern (keeps_prefix_issue v) name).of_ok (List.prefix_refl _) h

theorem prefix_of_mapM_intern {symbols : List Symbol} (h : added.mapM intern v = .ok symbols w) :
    v.names <+: w.names := by
  have hkeeps : Action.Keeps (fun w => v.names <+: w.names) (added.mapM intern) :=
    .mapM fun name _ => keeps_intern (keeps_prefix_issue v) name
  exact hkeeps.of_ok (List.prefix_refl _) h

/-- The names that are met next are listed if they are new, and their symbols are recorded under
them. -/
theorem mapM_intern_lists (h : v.Lists names)
    (hroom : (names ++ added).eraseDups.length ≤ 4294967295) :
    ∃ symbols w, added.mapM intern v = .ok symbols w ∧ w.Lists (names ++ added) ∧
      List.Forall₂ w.Records symbols added := by
  induction added generalizing v names with
  | nil =>
    rw [List.append_nil]
    exact ⟨[], v, rfl, h, .nil⟩
  | cons name added ih =>
    rw [← List.singleton_append, ← List.append_assoc] at hroom ⊢
    have hle := length_eraseDups_le_append (names ++ [name]) added
    have hnext : (names ++ [name]).eraseDups.length ≤ 4294967295 := by omega
    obtain ⟨s, v₁, hintern, hlists, hs⟩ := intern_lists h hnext
    obtain ⟨symbols, w, hrest, hlists', hsymbols⟩ := ih hlists hroom
    refine ⟨s :: symbols, w, ?_, hlists', ?_⟩
    · rw [List.singleton_append, List.mapM_cons, Action.bind_apply, hintern]
      simp only [Action.bind_apply, hrest, Action.pure_apply]
    · exact .cons (hs.mono (prefix_of_mapM_intern hrest)) hsymbols

/-- Symbols that are recorded under one name in a list of names are the same. -/
theorem Lists.eq_of_records {t : Symbol} (h : v.Lists names) (hs : v.Records s name)
    (ht : v.Records t name) : s = t := by
  have hlt : s.id < v.names.length := (List.getElem?_eq_some_iff.mp hs).1
  have hnodup : v.names.Nodup := by
    rw [h]
    exact (nodup_eraseDups names).map (Option.some_injective _)
  exact Symbol.ext ((List.getElem?_inj hlt hnodup).mp (hs.trans ht.symm))

end Vocabulary

namespace Grammar

variable {g g' : Grammar} {named added : List NamedRule}

/-! ## One rule after the other -/

/-- The symbols of a rule are recorded under the names of a named rule. -/
def SpellsRule (v : Vocabulary) (r : Rule) (n : NamedRule) : Prop :=
  v.Records r.lhs n.lhs ∧ List.Forall₂ v.Records r.rhs n.rhs

/-- The grammar has the given rules, and the names in them are all that its vocabulary lists. -/
structure Spells (g : Grammar) (named : List NamedRule) : Prop where
  lists : g.vocabulary.Lists (named.flatMap NamedRule.names)
  rules : List.Forall₂ (SpellsRule g.vocabulary) g.rules named

theorem SpellsRule.mono {v w : Vocabulary} {r : Rule} {n : NamedRule} (h : SpellsRule v r n)
    (hgrows : v.names <+: w.names) : SpellsRule w r n :=
  ⟨h.1.mono hgrows, h.2.imp fun _ _ hs => hs.mono hgrows⟩

theorem spells_empty : empty.Spells [] :=
  ⟨rfl, .nil⟩

theorem onVocabulary_of_ok {α : Type} {act : Action Vocabulary α} {a : α} {v : Vocabulary}
    (h : act g.vocabulary = .ok a v) : onVocabulary act g = .ok a { g with vocabulary := v } := by
  simp only [onVocabulary, h]

theorem of_onVocabulary {α : Type} {act : Action Vocabulary α} {a : α}
    (h : onVocabulary act g = .ok a g') : act g.vocabulary = .ok a g'.vocabulary := by
  unfold onVocabulary at h
  split at h
  next hact =>
    cases h
    exact hact
  · cases h

/-- A rule is added with the symbols that are recorded under its names. -/
theorem addNamedRule_spells {r : NamedRule} (h : g.Spells named)
    (hroom : ((named ++ [r]).flatMap NamedRule.names).eraseDups.length ≤ 4294967295) :
    ∃ g', addNamedRule r g = .ok () g' ∧ g'.Spells (named ++ [r]) := by
  have hnames : (named ++ [r]).flatMap NamedRule.names =
      named.flatMap NamedRule.names ++ [r.lhs] ++ r.rhs := by
    simp [NamedRule.names]
  rw [hnames] at hroom
  have hle := Vocabulary.length_eraseDups_le_append
    (named.flatMap NamedRule.names ++ [r.lhs]) r.rhs
  have hnext : (named.flatMap NamedRule.names ++ [r.lhs]).eraseDups.length ≤ 4294967295 := by omega
  obtain ⟨lhs, v, hintern, hlists, hlhs⟩ := Vocabulary.intern_lists h.lists hnext
  obtain ⟨rhs, w, hmapM, hlists', hrhs⟩ := Vocabulary.mapM_intern_lists hlists hroom
  have hgrows := Vocabulary.prefix_of_mapM_intern hmapM
  have hbefore := (Vocabulary.prefix_of_intern hintern).trans hgrows
  refine ⟨addRule { g with vocabulary := w } ⟨lhs, rhs⟩, ?_, ?_, ?_⟩
  · simp only [addNamedRule, internAll, Action.bind_apply, onVocabulary_of_ok hintern,
      onVocabulary_of_ok (g := { g with vocabulary := v }) hmapM, Action.modify_apply]
  · rw [hnames]
    exact hlists'
  · have hold := h.rules.imp fun _ _ hr => SpellsRule.mono hr hbefore
    have hnew : SpellsRule w ⟨lhs, rhs⟩ r := ⟨hlhs.mono hgrows, hrhs⟩
    exact List.rel_append hold (.cons hnew .nil)

/-- So are all rules, one after the other, if there are symbols enough for the names. -/
theorem forM_addNamedRule_spells (h : g.Spells named)
    (hroom : ((named ++ added).flatMap NamedRule.names).eraseDups.length ≤ 4294967295) :
    ∃ g', added.forM addNamedRule g = .ok () g' ∧ g'.Spells (named ++ added) := by
  induction added generalizing g named with
  | nil =>
    rw [List.append_nil]
    exact ⟨g, rfl, h⟩
  | cons r added ih =>
    rw [← List.singleton_append, ← List.append_assoc] at hroom ⊢
    have hle := Vocabulary.length_eraseDups_le_append
      ((named ++ [r]).flatMap NamedRule.names) (added.flatMap NamedRule.names)
    rw [← List.flatMap_append] at hle
    obtain ⟨g₁, hadd, hspells⟩ := addNamedRule_spells (r := r) h (by omega)
    obtain ⟨g', hrest, hspells'⟩ := ih hspells hroom
    refine ⟨g', ?_, hspells'⟩
    rw [List.singleton_append, Action.forM_cons_apply, hadd]
    exact hrest

/-! ## What the rules are shown as -/

theorem map_displayName_of_records {v : Vocabulary} {symbols : List Symbol} {names : List String}
    (h : List.Forall₂ v.Records symbols names) : symbols.map v.displayName = names := by
  induction h with
  | nil => rfl
  | cons hs _ ih => rw [List.map_cons, Vocabulary.displayName_of_recorded hs, ih]

theorem map_named_of_spellsRule {v : Vocabulary} {rules : List Rule}
    (h : List.Forall₂ (SpellsRule v) rules named) :
    rules.map (fun r => NamedRule.mk (v.displayName r.lhs) (r.rhs.map v.displayName)) = named := by
  induction h with
  | nil => rfl
  | cons hr _ ih =>
    rw [List.map_cons, ih, Vocabulary.displayName_of_recorded hr.1,
      map_displayName_of_records hr.2]

namespace Spells

/-- The rules are shown by the names that were given for them. -/
theorem namedRules_eq (h : g.Spells named) : g.namedRules = named := by
  unfold namedRules
  exact map_named_of_spellsRule h.rules

/-- The symbols in the rules are recorded under the names in the named rules, place by place. -/
theorem records_occurrences (h : g.Spells named) :
    List.Forall₂ g.vocabulary.Records g.occurrences (named.flatMap NamedRule.names) := by
  refine List.rel_flatMap h.rules ?_
  intro r n hr
  exact .cons hr.1 hr.2

/-- A symbol that is used is recorded under the name that it is displayed under. -/
theorem records_displayName (h : g.Spells named) {s : Symbol} (hs : s ∈ g.occurrences) :
    g.vocabulary.Records s (g.vocabulary.displayName s) := by
  have hrecords := h.records_occurrences
  obtain ⟨i, hi, rfl⟩ := List.mem_iff_getElem.mp hs
  have hname := hrecords.get hi (hrecords.length_eq ▸ hi)
  rw [List.get_eq_getElem] at hname
  rw [Vocabulary.displayName_of_recorded hname]
  exact hname

theorem closed (h : g.Spells named) (hsize : g.vocabulary.size ≤ 4294967295) : g.Closed := by
  have hissued : ∀ s ∈ g.occurrences, g.Issued s := by
    intro s hs
    exact (List.getElem?_eq_some_iff.mp (h.records_displayName hs)).1
  constructor
  · exact hsize
  · intro r hr
    exact hissued r.lhs (mem_occurrences.mpr ⟨r, hr, .inl rfl⟩)
  · intro r hr s hs
    exact hissued s (mem_occurrences.mpr ⟨r, hr, .inr hs⟩)

/-- Symbols are the same at two places if and only if the names are. -/
theorem occurrences_eq_iff (h : g.Spells named) (i j : Nat) :
    g.occurrences[i]? = g.occurrences[j]? ↔
      (named.flatMap NamedRule.names)[i]? = (named.flatMap NamedRule.names)[j]? := by
  rw [← map_displayName_of_records h.records_occurrences, List.getElem?_map, List.getElem?_map]
  constructor
  · intro heq
    rw [heq]
  · intro heq
    cases hi : g.occurrences[i]? with
    | none =>
      rw [hi, Option.map_none, eq_comm, Option.map_eq_none_iff] at heq
      exact heq.symm
    | some s =>
      rw [hi, Option.map_some, eq_comm, Option.map_eq_some_iff] at heq
      obtain ⟨t, hj, hname⟩ := heq
      have hs := h.records_displayName (List.mem_of_getElem? hi)
      have ht := h.records_displayName (List.mem_of_getElem? hj)
      rw [hname] at ht
      rw [hj, h.lists.eq_of_records hs ht]

end Spells

/-! ## Chains -/

/-- Two rules or more, or just one, of one left side. -/
structure NamedChain where
  lhs : String
  /-- The right side of the first rule. -/
  first : List String
  /-- The right sides of the others. -/
  rest : List (List String)

namespace NamedChain

/-- The rules of a chain, one by one. -/
def rules (c : NamedChain) : List NamedRule :=
  (c.first :: c.rest).map (NamedRule.mk c.lhs)

/-- Adds the rules of a chain, whose left side is looked up once. -/
def add (c : NamedChain) : Action Grammar Unit := do
  let lhs ← onVocabulary (Vocabulary.intern c.lhs)
  build lhs ((c.first :: c.rest).map .namedAlternative)

end NamedChain

/-- Adds a rule for `lhs`, the right side of which is given by names. -/
def addAlternative (lhs : Symbol) (names : List String) : Action Grammar Unit := do
  let rhs ← internAll names
  modify (·.addRule ⟨lhs, rhs⟩)

theorem addNamedRule_eq (r : NamedRule) :
    addNamedRule r = onVocabulary (Vocabulary.intern r.lhs) >>= (addAlternative · r.rhs) :=
  rfl

theorem build_cons (lhs : Symbol) (names : List String) (steps : List BuildStep) :
    build lhs (.namedAlternative names :: steps) =
      addAlternative lhs names >>= fun _ => build lhs steps := by
  funext g
  simp only [build, addAlternative, Action.bind_apply]
  cases internAll names g <;> rfl

theorem addNamedRule_of_find? {name : String} {lhs : Symbol}
    (h : g.vocabulary.find? name = some lhs) (names : List String) :
    addNamedRule ⟨name, names⟩ g = addAlternative lhs names g := by
  rw [addNamedRule_eq, Action.bind_apply, onVocabulary_of_ok (Vocabulary.intern_of_some h)]

/-- A left side that has been looked up is found again after more rules. -/
theorem find?_of_addAlternative {name : String} {lhs t : Symbol} {names : List String}
    (h : g.vocabulary.find? name = some t) (hadd : addAlternative lhs names g = .ok () g') :
    g'.vocabulary.find? name = some t := by
  obtain ⟨rhs, g₁, hall, hmodify⟩ := Action.bind_eq_ok_iff.mp hadd
  cases hmodify
  have hgrows := Vocabulary.prefix_of_mapM_intern (of_onVocabulary hall)
  have hrecorded := Vocabulary.find?_isSome_iff.mp (Option.isSome_of_eq_some h)
  exact (Vocabulary.find?_of_prefix hgrows hrecorded).trans h

theorem build_namedAlternative {name : String} {lhs : Symbol}
    (h : g.vocabulary.find? name = some lhs) (rhss : List (List String)) :
    build lhs (rhss.map .namedAlternative) g =
      (rhss.map (NamedRule.mk name)).forM addNamedRule g := by
  induction rhss generalizing g with
  | nil => rfl
  | cons names rhss ih =>
    rw [List.map_cons, List.map_cons, Action.forM_cons_apply, addNamedRule_of_find? h, build_cons,
      Action.bind_apply]
    cases hadd : addAlternative lhs names g with
    | ok _ g₁ => exact ih (find?_of_addAlternative h hadd)
    | error e g₁ => rfl

/-- A chain adds the same rules as its rules one by one. -/
theorem NamedChain.add_apply (c : NamedChain) (g : Grammar) :
    c.add g = c.rules.forM addNamedRule g := by
  rw [rules, List.map_cons, Action.forM_cons_apply, addNamedRule_eq, Action.bind_apply, add,
    Action.bind_apply]
  cases hintern : onVocabulary (Vocabulary.intern c.lhs) g with
  | ok lhs g₁ =>
    have hfind := Vocabulary.find?_of_intern (of_onVocabulary hintern)
    have hbuild := build_namedAlternative hfind (c.first :: c.rest)
    rw [List.map_cons, List.map_cons, Action.forM_cons_apply, addNamedRule_of_find? hfind] at hbuild
    exact hbuild
  | error e g₁ => rfl

theorem forM_addChain (chains : List NamedChain) (g : Grammar) :
    chains.forM NamedChain.add g = (chains.flatMap NamedChain.rules).forM addNamedRule g := by
  induction chains generalizing g with
  | nil => rfl
  | cons c chains ih =>
    rw [Action.forM_cons_apply, List.flatMap_cons, Action.forM_append_apply, c.add_apply]
    cases c.rules.forM addNamedRule g with
    | ok _ g₁ => exact ih g₁
    | error e g₁ => rfl

/-! ## The grammar of named rules -/

/-- Rules that need no more names than there are symbols make a grammar that is shown as these
rules. Two places in it have the same symbol if and only if they were given the same name. The name
table lists all names by their first occurrences, so the grammar is closed. Chains in which the same
rules are given make the same grammar, wherever one chain ends and the next begins. -/
theorem built_as_named {named : List NamedRule}
    (hroom : (named.flatMap NamedRule.names).eraseDups.length ≤ 4294967295) :
    ∃ g, ofNamedRules named = .ok g ∧ g.namedRules = named ∧
      (∀ i j : Nat, g.occurrences[i]? = g.occurrences[j]? ↔
        (named.flatMap NamedRule.names)[i]? = (named.flatMap NamedRule.names)[j]?) ∧
      g.vocabulary.names = (named.flatMap NamedRule.names).eraseDups.map some ∧
      g.Closed ∧
      ∀ chains : List NamedChain, chains.flatMap NamedChain.rules = named →
        chains.forM NamedChain.add empty = .ok () g := by
  have hfirst : (([] ++ named).flatMap NamedRule.names).eraseDups.length ≤ 4294967295 := hroom
  obtain ⟨g, hall, hspells⟩ := forM_addNamedRule_spells spells_empty hfirst
  rw [List.nil_append] at hspells
  refine ⟨g, ?_, hspells.namedRules_eq, hspells.occurrences_eq_iff, hspells.lists, ?_, ?_⟩
  · unfold ofNamedRules
    rw [hall]
  · apply hspells.closed
    rw [hspells.lists.size_eq]
    exact hroom
  · intro chains hchains
    rw [forM_addChain, hchains]
    exact hall

/-- Three rules, in which some names come again, one is empty, and two look like placeholders. -/
def lookalikes : List NamedRule :=
  [⟨"S", ["g1", "S", ""]⟩, ⟨"S", []⟩, ⟨"", ["g1", "g0"]⟩]

/-- The first two rules share a chain. -/
theorem built_as_named_lookalikes :
    (lookalikes.flatMap NamedRule.names).eraseDups.length ≤ 4294967295 ∧
    ∃ g, ofNamedRules lookalikes = .ok g ∧ g.namedRules = lookalikes ∧
      g.occurrences[1]? = g.occurrences[6]? ∧ g.occurrences[1]? ≠ g.occurrences[7]? ∧
      g.vocabulary.names = [some "S", some "g1", some "", some "g0"] ∧ g.Closed ∧
      [⟨"S", ["g1", "S", ""], [[]]⟩, ⟨"", ["g1", "g0"], []⟩].forM NamedChain.add empty =
        .ok () g := by
  have hroom : (lookalikes.flatMap NamedRule.names).eraseDups.length ≤ 4294967295 := by
    decide +kernel
  obtain ⟨g, hof, hnamed, hsame, hnames, hclosed, hchains⟩ := built_as_named hroom
  refine ⟨hroom, g, hof, hnamed, ?_, ?_, hnames.trans (by decide +kernel), hclosed, hchains _ rfl⟩
  · rw [hsame]
    decide +kernel
  · rw [Ne, hsame]
    decide +kernel

end Grammar

end ContextFree
