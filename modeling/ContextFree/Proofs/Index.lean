import ContextFree.Proofs.Groups

/-!
# The index mirrors the rules

Whatever has been done to a grammar, its index is the one of its rules (`Grammar.index_eq`): a rule
that is added is pushed onto it, and a replacement builds it anew. Here it is shown what the index
of a list of rules holds. The left sides are those of the rules in the order in which they come
first (`RuleIndex.leftSides_ofRules`), each has a group of its own, and the group holds the
positions of its rules in ascending order.

The rules may use any symbols, in any order of their numbers.
-/

namespace ContextFree

namespace RuleIndex

theorem mem_positions_ofRules {rules : List Rule} {s : Symbol} {i : Nat} :
    i ∈ (ofRules rules).positions s ↔ ∃ r, rules[i]? = some r ∧ r.lhs = s := by
  have hmem := mem_positions rules (fun r => decide (r.lhs = s)) (i := i)
  simp only [decide_eq_true_eq] at hmem
  rw [positions_ofRules]
  exact hmem

theorem positions_ofRules_ascending (rules : List Rule) (s : Symbol) :
    ((ofRules rules).positions s).Pairwise (· < ·) := by
  rw [positions_ofRules]
  exact positions_ascending rules fun r => decide (r.lhs = s)

/-- Left sides are listed in the order in which the rules have them first. -/
theorem leftSides_ofRules (rules : List Rule) :
    (ofRules rules).leftSides = (rules.map (·.lhs)).eraseDups := by
  induction rules using List.reverseRecOn with
  | nil => rfl
  | append_singleton rules r ih =>
    have hmem : (ofRules rules).contains r.lhs = true ↔ r.lhs ∈ rules.map (·.lhs) := by
      rw [(sound_ofRules rules).contains_iff, ih, List.mem_eraseDups]
    rw [ofRules_concat, leftSides_push, List.map_append, List.map_singleton, eraseDups_concat, ih]
    exact if_congr hmem rfl rfl

/-- The positions of a group are those of its left side. -/
theorem Sound.positions_of_group {index : RuleIndex} (h : index.Sound) {slot : Nat}
    {group : Symbol × List Nat} (hgroup : index.groups[slot]? = some group) :
    index.slot? group.1 = some slot ∧ index.positions group.1 = group.2 := by
  have hslot : index.slot? group.1 = some slot := by
    rw [h, leftSides, List.getElem?_map, hgroup]
    rfl
  refine ⟨hslot, ?_⟩
  rw [positions_of_slot hslot, hgroup]
  rfl

/-- Each rule is in exactly one group. -/
theorem existsUnique_slot {rules : List Rule} {i : Nat} (hi : i < rules.length) :
    ∃! slot : Nat, ∃ group : Symbol × List Nat,
      (ofRules rules).groups[slot]? = some group ∧ i ∈ group.2 := by
  have hsound := sound_ofRules rules
  have hrule := List.getElem?_eq_getElem hi
  have hmem : i ∈ (ofRules rules).positions rules[i].lhs :=
    mem_positions_ofRules.mpr ⟨rules[i], hrule, rfl⟩
  cases hslot : (ofRules rules).slot? rules[i].lhs with
  | none =>
    rw [positions_of_none hslot] at hmem
    cases hmem
  | some slot =>
    have hgroup := List.getElem?_eq_getElem (hsound.slot_lt hslot)
    rw [positions_of_slot hslot, hgroup] at hmem
    refine ⟨slot, ⟨_, hgroup, hmem⟩, ?_⟩
    -- a group with the position has the same left side, and so the same slot
    rintro slot' ⟨group, hgroup', hmem'⟩
    rcases hsound.positions_of_group hgroup' with ⟨hslot', hpositions⟩
    rw [← hpositions, mem_positions_ofRules] at hmem'
    rcases hmem' with ⟨r, hr, hlhs⟩
    rw [hrule] at hr
    cases hr
    rw [hlhs, hslot'] at hslot
    exact Option.some.inj hslot

end RuleIndex

namespace Grammar

theorem nonterminals_eq (g : Grammar) : g.nonterminals = (g.rules.map (·.lhs)).eraseDups := by
  rw [nonterminals, g.index_eq, RuleIndex.leftSides_ofRules]

/-- The index of a grammar says where the rules of each symbol are, and what it says of left sides
and alternatives is so. Looking up a group or a rule by it never goes beyond the groups or the
rules. -/
theorem index_mirrors_rules (g : Grammar) :
    (∀ s, (g.index.positions s).Pairwise (· < ·) ∧
      ∀ i, i ∈ g.index.positions s ↔ ∃ r, g.rules[i]? = some r ∧ r.lhs = s) ∧
    g.nonterminals = (g.rules.map (·.lhs)).eraseDups ∧
    (∀ s, g.isNonterminal s = true ↔ ∃ r ∈ g.rules, r.lhs = s) ∧
    (∀ i < g.rules.length, ∃! slot : Nat, ∃ group : Symbol × List Nat,
      g.index.groups[slot]? = some group ∧ i ∈ group.2) ∧
    (∀ s slot, g.index.slot? s = some slot → slot < g.index.groups.length) ∧
    (∀ s, ∀ i ∈ g.index.positions s, i < g.rules.length) ∧
    ∀ s, g.alternatives s = g.rules.filter (·.lhs = s) := by
  have hmem : ∀ s i, i ∈ g.index.positions s ↔ ∃ r, g.rules[i]? = some r ∧ r.lhs = s := by
    intro s i
    rw [g.index_eq]
    exact RuleIndex.mem_positions_ofRules
  refine ⟨fun s => ⟨?_, hmem s⟩, ?_, fun s => isNonterminal_iff, fun i hi => ?_, fun s slot => ?_,
    fun s i hi => ?_, g.alternatives_eq⟩
  · rw [g.index_eq]
    exact RuleIndex.positions_ofRules_ascending g.rules s
  · exact g.nonterminals_eq
  · rw [g.index_eq]
    exact RuleIndex.existsUnique_slot hi
  · exact g.index_sound.slot_lt
  · rcases (hmem s i).mp hi with ⟨r, hr, -⟩
    exact (List.getElem?_eq_some_iff.mp hr).1

/-- Rules for two symbols in turn, the second of which has the lesser number. The vocabulary has
issued neither. -/
def scattered : Grammar :=
  .ofRules .empty
    [⟨⟨7, by decide⟩, []⟩, ⟨⟨2, by decide⟩, [⟨7, by decide⟩]⟩, ⟨⟨7, by decide⟩, [⟨9, by decide⟩]⟩]

theorem index_mirrors_rules_scattered :
    (2 ∈ scattered.index.positions ⟨7, by decide⟩ ∧ 2 < scattered.rules.length) ∧
    (∃! slot : Nat, ∃ group : Symbol × List Nat,
      scattered.index.groups[slot]? = some group ∧ 2 ∈ group.2) ∧
    scattered.index.slot? ⟨2, by decide⟩ = some 1 ∧ 1 < scattered.index.groups.length := by
  rcases index_mirrors_rules scattered with ⟨hpositions, -, -, hgroup, hslot, hbound, -⟩
  have hthird : 2 ∈ scattered.index.positions ⟨7, by decide⟩ :=
    ((hpositions _).2 2).mpr ⟨_, rfl, rfl⟩
  have hsecond : scattered.index.slot? ⟨2, by decide⟩ = some 1 := by decide +kernel
  have hlt := hbound _ 2 hthird
  exact ⟨⟨hthird, hlt⟩, hgroup 2 hlt, hsecond, hslot _ 1 hsecond⟩

end Grammar

end ContextFree
