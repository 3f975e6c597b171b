import Mathlib.Logic.Equiv.Defs
import ContextFree.Proofs.NewRules

/-!
# Renaming symbols

Factoring compares symbols and does not look at their numbers. So if the alternatives are written
with other symbols, but different ones for different ones, their groups have the same members
(`groups_map`), and the rules that come in place of them are the same but for the symbols
(`factoredRules_map`).
-/

namespace ContextFree

variable (σ : Equiv.Perm Symbol)

/-- The rule with its symbols renamed. -/
def Rule.rename (r : Rule) : Rule :=
  ⟨σ r.lhs, r.rhs.map σ⟩

theorem eraseDups_map {α β : Type} [BEq α] [LawfulBEq α] [BEq β] [LawfulBEq β] {f : α → β}
    (hf : Function.Injective f) : (l : List α) → (l.map f).eraseDups = l.eraseDups.map f
  | [] => rfl
  | a :: rest => by
    have hfilter : (rest.map f).filter (fun b => !b == f a) =
        (rest.filter fun b => !b == a).map f := by
      rw [List.filter_map]
      congr 1
      apply List.filter_congr
      intro b _
      rw [Function.comp_apply, Bool.eq_iff_iff]
      simp [hf.eq_iff]
    rw [List.map_cons, List.eraseDups_cons, List.eraseDups_cons, hfilter, eraseDups_map hf,
      List.map_cons]
termination_by l => l.length
decreasing_by exact Nat.lt_succ_of_le (List.length_filter_le _ _)

namespace Factoring

/-! ## Common prefixes -/

theorem commonPrefixLength_map (seqs : List (List Symbol)) :
    commonPrefixLength (seqs.map (List.map σ)) = commonPrefixLength seqs := by
  cases seqs with
  | nil => rfl
  | cons first rest =>
    rw [List.map_cons, commonPrefixLength, commonPrefixLength, List.zipIdx_map, List.takeWhile_map,
      List.length_map]
    congr 2
    funext entry
    have hagree : ∀ a : Option Symbol, (a.map σ == some (σ entry.1)) = (a == some entry.1) := by
      intro a
      rw [Bool.eq_iff_iff]
      cases a <;> simp
    simp [List.all_map, Function.comp_def, hagree]

theorem longestCommon_map (seqs : List (List Symbol)) :
    longestCommon (seqs.map (List.map σ)) = (longestCommon seqs).map σ := by
  rw [longestCommon, longestCommon, commonPrefixLength_map, List.map_take]
  cases seqs <;> rfl

theorem commonPrefix_map (alternatives : List (List Symbol)) :
    commonPrefix (alternatives.map (List.map σ)) = (commonPrefix alternatives).map σ := by
  rw [commonPrefix, commonPrefix, List.length_map, longestCommon_map]
  split <;> rfl

/-! ## Groups -/

/-- The group with the shared symbols renamed. -/
def Group.rename (G : Group) : Group :=
  ⟨G.shared.map σ, G.members⟩

theorem filterMap_getElem?_map (alternatives : List (List Symbol)) (positions : List Nat) :
    positions.filterMap ((alternatives.map (List.map σ))[·]?) =
      (positions.filterMap (alternatives[·]?)).map (List.map σ) := by
  rw [List.map_filterMap]
  exact List.filterMap_congr fun i _ => List.getElem?_map

theorem firstSymbols_map (alternatives : List (List Symbol)) :
    firstSymbols (alternatives.map (List.map σ)) = (firstSymbols alternatives).map σ := by
  rw [firstSymbols, firstSymbols, ← eraseDups_map σ.injective, List.filterMap_map,
    List.map_filterMap]
  congr 1
  exact List.filterMap_congr fun rhs _ => List.head?_map

theorem positionsFrom_map (alternatives : List (List Symbol)) (a : Symbol) :
    positionsFrom (alternatives.map (List.map σ)) (σ a) = positionsFrom alternatives a := by
  rw [positionsFrom, positionsFrom, List.zipIdx_map, List.filter_map, List.map_map]
  congr 1
  apply List.filter_congr
  intro entry _
  cases h : entry.1.head? <;> simp [h]

theorem groupsByFirst_map (alternatives : List (List Symbol)) :
    groupsByFirst (alternatives.map (List.map σ)) =
      (groupsByFirst alternatives).map (Group.rename σ) := by
  have hclasses : (firstSymbols (alternatives.map (List.map σ))).map
      (positionsFrom (alternatives.map (List.map σ))) =
      (firstSymbols alternatives).map (positionsFrom alternatives) := by
    rw [firstSymbols_map, List.map_map]
    exact List.map_congr_left fun a _ => positionsFrom_map σ alternatives a
  rw [groupsByFirst_eq, groupsByFirst_eq, hclasses, List.map_map]
  apply List.map_congr_left
  intro members _
  rw [Group.ofMembers, filterMap_getElem?_map, longestCommon_map]
  rfl

theorem groupOfAll_map (alternatives : List (List Symbol)) :
    groupOfAll (alternatives.map (List.map σ)) =
      (groupOfAll alternatives).map (Group.rename σ) := by
  rw [groupOfAll, groupOfAll, commonPrefix_map, List.isEmpty_map, List.length_map]
  split <;> rfl

theorem groups_map (policy : Policy) (alternatives : List (List Symbol)) :
    groups policy (alternatives.map (List.map σ)) =
      (groups policy alternatives).map (Group.rename σ) := by
  cases policy with
  | grouped => exact groupsByFirst_map σ alternatives
  | global => exact groupOfAll_map σ alternatives

/-! ## New rules -/

theorem suffixes_map (dedup : Bool) (alternatives : List (List Symbol)) (G : Group) :
    suffixes dedup (alternatives.map (List.map σ)) (G.rename σ) =
      (suffixes dedup alternatives G).map (List.map σ) := by
  have hrests : ((G.rename σ).members.filterMap ((alternatives.map (List.map σ))[·]?)).map
      (·.drop (G.rename σ).shared.length) =
      ((G.members.filterMap (alternatives[·]?)).map (·.drop G.shared.length)).map (List.map σ) := by
    simp only [Group.rename, filterMap_getElem?_map, List.map_map, List.length_map]
    exact List.map_congr_left fun rhs _ => List.map_drop.symm
  cases dedup with
  | false => exact hrests
  | true =>
    show List.eraseDups _ = (List.eraseDups _).map (List.map σ)
    rw [hrests, eraseDups_map (List.map_injective_iff.mpr σ.injective)]

/-- A group with its fresh symbol, renamed. -/
def renameMark (m : Group × Symbol) : Group × Symbol :=
  (m.1.rename σ, σ m.2)

theorem headAt_map (marked : List (Group × Symbol)) (entry : List Symbol × Nat) :
    headAt (marked.map (renameMark σ)) (entry.1.map σ, entry.2) =
      (headAt marked entry).map (List.map σ) := by
  have hfind : (marked.map (renameMark σ)).find? (·.1.members.contains entry.2) =
      (marked.find? (·.1.members.contains entry.2)).map (renameMark σ) := List.find?_map
  rw [headAt, headAt, hfind]
  cases marked.find? (·.1.members.contains entry.2) with
  | none => rfl
  | some m =>
    simp only [Option.map_some, renameMark, Group.rename]
    split
    · simp
    · rfl

theorem heads_map (alternatives : List (List Symbol)) (marked : List (Group × Symbol)) :
    heads (alternatives.map (List.map σ)) (marked.map (renameMark σ)) =
      (heads alternatives marked).map (List.map σ) := by
  rw [heads, heads, List.zipIdx_map, List.filterMap_map, List.map_filterMap]
  exact List.filterMap_congr fun entry _ => headAt_map σ marked entry

theorem tails_map (dedup : Bool) (alternatives : List (List Symbol))
    (marked : List (Group × Symbol)) :
    tails dedup (alternatives.map (List.map σ)) (marked.map (renameMark σ)) =
      (tails dedup alternatives marked).map (Rule.rename σ) := by
  rw [tails, tails, List.flatMap_map, List.map_flatMap]
  apply List.flatMap_congr
  intro m _
  simp only [renameMark, suffixes_map, List.map_map]
  rfl

theorem factoredRules_map (dedup : Bool) (s : Symbol) (alternatives : List (List Symbol))
    (Gs : List Group) (fresh : List Symbol) :
    factoredRules dedup (σ s) (alternatives.map (List.map σ))
        ((Gs.map (Group.rename σ)).zip (fresh.map σ)) =
      (factoredRules dedup s alternatives (Gs.zip fresh)).map (Rule.rename σ) := by
  have hmarked : (Gs.map (Group.rename σ)).zip (fresh.map σ) =
      (Gs.zip fresh).map (renameMark σ) := List.zip_map
  rw [factoredRules, factoredRules, hmarked, heads_map, tails_map, List.map_append, List.map_map,
    List.map_map]
  rfl

end Factoring

end ContextFree
