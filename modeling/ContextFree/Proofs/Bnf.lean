import ContextFree.Grammar.Bnf
import ContextFree.Grammar.NamedRules
import ContextFree.Proofs.Invariant
import ContextFree.Proofs.RoundTrip

/-!
# Reading grammars from text

The text of a grammar is made of lines, and a line is made of words with one space between them: the
left side, `::=`, and the names of the right side, or the one word `()` (`NamedRule.words`). If no
name has a space or a line end in it, lines and words can be told apart again, and if no name is
`()`, so can an empty right side (`Grammar.readBnf?_toBnf`). So two such grammars with the same text
have the same rules, up to how their symbols are numbered.

Nothing else is asked of the names. The semicolon is the last character of its line and the `::=` is
the second word, wherever else they occur, and a name that is empty is a word without characters.
-/

namespace ContextFree

/-! ## Joined lists -/

section

variable {α : Type} {a sep : α} {ls : List (List α)}

theorem not_mem_intercalate (hsep : a ≠ sep) (h : ∀ l ∈ ls, a ∉ l) : a ∉ [sep].intercalate ls := by
  induction ls with
  | nil => exact List.not_mem_nil
  | cons l ls ih =>
    have hfirst := h l (List.mem_cons_self ..)
    have hrest := ih fun l' hl' => h l' (List.mem_cons_of_mem l hl')
    by_cases hls : ls = []
    · rwa [hls, List.intercalate_singleton]
    · rw [List.intercalate_cons_of_ne_nil hls]
      simp [hfirst, hsep, hrest]

/-- Lists that all end in a separator are lists with separators between them, the last of which is
empty. -/
theorem flatMap_concat_eq_intercalate :
    ls.flatMap (· ++ [sep]) = [sep].intercalate (ls ++ [[]]) := by
  induction ls with
  | nil => rfl
  | cons l ls ih =>
    rw [List.flatMap_cons, ih, List.cons_append, List.intercalate_cons_of_ne_nil (by simp)]

end

/-! ## Lines -/

namespace Grammar

namespace NamedRule

/-- The words of the line of a rule. -/
def words (r : NamedRule) : List String :=
  r.lhs :: "::=" :: if r.rhs = [] then ["()"] else r.rhs

/-- The line of a rule, without its end. -/
def line (r : NamedRule) : List Char :=
  [' '].intercalate (r.words.map String.toList) ++ [';']

/-- The rule that has the given words. -/
def ofWords? : List String → Option NamedRule
  | lhs :: mark :: rhs =>
    if mark = "::=" then some ⟨lhs, if rhs = ["()"] then [] else rhs⟩ else none
  | _ => none

/-- The rule on a line. -/
def ofLine? (line : List Char) : Option NamedRule :=
  ofWords? ((line.dropLast.splitOn ' ').map String.ofList)

/-- No name has a space or a line end in it or is a pair of parentheses. -/
def Plain (r : NamedRule) : Prop :=
  ∀ name ∈ r.names, ' ' ∉ name.toList ∧ '\n' ∉ name.toList ∧ name ≠ "()"

instance (r : NamedRule) : Decidable r.Plain :=
  inferInstanceAs (Decidable (∀ name ∈ r.names, _ ∧ _ ∧ _))

variable {r : NamedRule}

theorem ofWords?_words (h : r.rhs ≠ ["()"]) : ofWords? r.words = some r := by
  rcases r with ⟨lhs, rhs⟩
  unfold words ofWords?
  by_cases hempty : rhs = []
  · simp [hempty]
  · simp [hempty, h]

/-- A word is a name, the mark or a pair of parentheses. -/
theorem forall_mem_words {p : String → Prop} (hmark : p "::=") (hparens : p "()")
    (h : ∀ name ∈ r.names, p name) : ∀ word ∈ r.words, p word := by
  intro word hword
  rw [words, List.mem_cons, List.mem_cons] at hword
  rcases hword with rfl | rfl | hrhs
  · exact h _ (List.mem_cons_self ..)
  · exact hmark
  · split at hrhs
    · rwa [List.mem_singleton.mp hrhs]
    · exact h word (List.mem_cons_of_mem _ hrhs)

/-- The rule on the line of a rule is the rule. -/
theorem ofLine?_line (h : r.Plain) : ofLine? r.line = some r := by
  have hspace : ∀ word ∈ r.words, ' ' ∉ word.toList :=
    forall_mem_words (by decide) (by decide) fun name hname => (h name hname).1
  have hsplit : r.line.dropLast.splitOn ' ' = r.words.map String.toList := by
    rw [line, List.dropLast_concat]
    apply List.splitOn_intercalate
    · rw [List.forall_mem_map]
      exact hspace
    · simp [words]
  have hrhs : r.rhs ≠ ["()"] := by
    intro heq
    have hmem : "()" ∈ r.names := List.mem_cons_of_mem _ (heq ▸ List.mem_singleton_self _)
    exact (h _ hmem).2.2 rfl
  have hback : (r.words.map String.toList).map String.ofList = r.words := by
    simp [Function.comp_def]
  rw [ofLine?, hsplit, hback, ofWords?_words hrhs]

theorem not_mem_line (h : r.Plain) : '\n' ∉ r.line := by
  have hend : ∀ word ∈ r.words, '\n' ∉ word.toList :=
    forall_mem_words (by decide) (by decide) fun name hname => (h name hname).2.1
  rw [line, List.mem_append, not_or]
  refine ⟨not_mem_intercalate (by decide) ?_, by decide⟩
  rw [List.forall_mem_map]
  exact hend

end NamedRule

/-! ## Texts -/

/-- The rules of a text. -/
def readBnf? (text : String) : Option (List NamedRule) :=
  (text.toList.splitOn '\n').dropLast.mapM NamedRule.ofLine?

variable {g h : Grammar}

/-- The text of a grammar shows its rules by names and says nothing else. -/
theorem toList_toBnf (g : Grammar) :
    g.toBnf.toList = g.namedRules.flatMap fun r => r.line ++ ['\n'] := by
  have hline : ∀ r : Rule, (bnfLine g.vocabulary r).toList =
      NamedRule.line ⟨g.vocabulary.displayName r.lhs, r.rhs.map g.vocabulary.displayName⟩ ++
        ['\n'] := by
    intro r
    cases hrhs : r.rhs with
    | nil => simp [bnfLine, bnfRhs, NamedRule.line, NamedRule.words, hrhs]
    | cons s rest =>
      simp [bnfLine, bnfRhs, NamedRule.line, NamedRule.words, hrhs, Vocabulary.displayNames]
  rw [toBnf, String.toList_join, namedRules, List.flatMap_map, List.flatMap_map]
  simp only [hline]

/-- What is read from the text of a grammar is its rules by names. -/
theorem readBnf?_toBnf (hg : ∀ r ∈ g.namedRules, r.Plain) :
    readBnf? g.toBnf = some g.namedRules := by
  -- the text ends in a line end, so what comes after the last line is one more, empty line
  have hlines : g.toBnf.toList.splitOn '\n' = g.namedRules.map NamedRule.line ++ [[]] := by
    rw [toList_toBnf, ← List.flatMap_map NamedRule.line (· ++ ['\n']),
      flatMap_concat_eq_intercalate]
    apply List.splitOn_intercalate
    · intro l hl
      rcases List.mem_append.mp hl with hline | hlast
      · rcases List.mem_map.mp hline with ⟨r, hr, rfl⟩
        exact NamedRule.not_mem_line (hg r hr)
      · rw [List.mem_singleton.mp hlast]
        exact List.not_mem_nil
    · simp
  have hread : ∀ r ∈ g.namedRules, (NamedRule.ofLine? ∘ NamedRule.line) r = some (id r) :=
    fun r hr => NamedRule.ofLine?_line (hg r hr)
  rw [readBnf?, hlines, List.dropLast_concat, List.mapM_map, mapM_eq_some_map hread, List.map_id]

/-- If no name has a space or a line end in it or is a pair of parentheses, grammars have the same
text if and only if they have the same rules by names. -/
theorem toBnf_eq_iff_namedRules (hg : ∀ r ∈ g.namedRules, r.Plain)
    (hh : ∀ r ∈ h.namedRules, r.Plain) : g.toBnf = h.toBnf ↔ g.namedRules = h.namedRules := by
  constructor
  · intro htext
    have hread := readBnf?_toBnf hg
    rw [htext, readBnf?_toBnf hh] at hread
    exact (Option.some.inj hread).symm
  · intro hrules
    apply String.toList_injective
    rw [toList_toBnf, toList_toBnf, hrules]

/-- The grammar with the given rules over symbols with the given names. -/
def named (names : List (Option String)) (rules : List Rule) : Grammar :=
  .ofRules (Outcome.state (Vocabulary.issueAll names .empty)) rules

/-- Names that look like parts of a line, and a symbol without a name. -/
def punctuated : Grammar :=
  named [some "A", none, some ";", some "::=", some ""]
    [⟨.numbered 0, [.numbered 2, .numbered 3, .numbered 4, .numbered 1]⟩,
     ⟨.numbered 4, []⟩, ⟨.numbered 0, [.numbered 4]⟩]

/-- The same names in another order, all of them recorded. -/
def repunctuated : Grammar :=
  named [some "::=", some "", some "g1", some ";", some "A"]
    [⟨.numbered 4, [.numbered 3, .numbered 0, .numbered 1, .numbered 2]⟩,
     ⟨.numbered 1, []⟩, ⟨.numbered 4, [.numbered 1]⟩]

theorem toBnf_eq_iff_namedRules_punctuated :
    punctuated.rules ≠ repunctuated.rules ∧
    (∀ r ∈ punctuated.namedRules, r.Plain) ∧ (∀ r ∈ repunctuated.namedRules, r.Plain) ∧
    punctuated.toBnf = repunctuated.toBnf ∧ punctuated.namedRules = repunctuated.namedRules := by
  have hplain : ∀ r ∈ punctuated.namedRules, r.Plain := by decide +kernel
  have hplain' : ∀ r ∈ repunctuated.namedRules, r.Plain := by decide +kernel
  have htext : punctuated.toBnf = repunctuated.toBnf := by decide +kernel
  have hiff := toBnf_eq_iff_namedRules hplain hplain'
  exact ⟨by decide +kernel, hplain, hplain', htext, hiff.mp htext⟩

/-- A symbol displayed as a pair of parentheses looks like an empty right side. -/
example :
    (named [some "A", some "()"] [⟨.numbered 0, [.numbered 1]⟩]).toBnf =
      (named [some "A"] [⟨.numbered 0, []⟩]).toBnf := by
  decide +kernel

end Grammar

end ContextFree
