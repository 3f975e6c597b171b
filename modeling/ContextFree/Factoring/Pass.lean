import ContextFree.Factoring.Group
import ContextFree.Factoring.Workspace

/-!
# One pass of left factoring

A pass over a nonterminal goes along its alternatives and gives each group of them a fresh symbol.
In place of the first member of the group comes one alternative, which is what the members share and
then the fresh symbol; the other members go. The alternatives of the fresh symbol are what is left
of the members.

`factor` does this, or refuses to and leaves the workspace as it was.
-/

namespace ContextFree

namespace Factoring

/-- How to factor. -/
structure Options where
  policy : Policy := .grouped
  /-- Keep only the first of equal suffixes in a group? -/
  dedup : Bool := false
deriving DecidableEq, Repr, Inhabited

/-- Why a grammar was left as it was. -/
inductive Refusal where
  /-- The symbol has no rule. -/
  | notNonterminal (s : Symbol)
  /-- No alternatives of the symbol can be put together. -/
  | nothingToFactor (s : Symbol)
deriving DecidableEq, Repr

namespace Refusal

/-- The symbol that was to be factored. -/
def symbol : Refusal → Symbol
  | .notNonterminal s => s
  | .nothingToFactor s => s

/-- The text with which a refusal is reported. -/
def message : Refusal → String
  | .notNonterminal s => "symbol " ++ toString s.id ++ " has no productions"
  | .nothingToFactor s => "nothing to factor for nonterminal " ++ toString s.id

end Refusal

/-! ## The new rules -/

/-- Enters a group at the positions of its members. -/
def enterGroup (table : Array (Option Group)) (group : Group) : Array (Option Group) :=
  group.members.foldl (fun table i => table.setIfInBounds i (some group)) table

/-- The group of each position, if it is in one. -/
def groupTable (size : Nat) (groups : List Group) : Array (Option Group) :=
  groups.foldl enterGroup (Array.replicate size none)

/-- What is left of the members of a group after what they share. -/
def suffixes (dedup : Bool) (alternatives : List (List Symbol)) (group : Group) :
    List (List Symbol) :=
  let rests := (group.members.filterMap (alternatives[·]?)).map (·.drop group.shared.length)
  if dedup then rests.eraseDups else rests

/-- The new rules as far as a pass has come. -/
structure Draft where
  /-- What comes in place of the alternatives. -/
  heads : List (List Symbol)
  /-- The rules of the fresh symbols. -/
  tails : List Rule
  /-- The fresh symbols. -/
  fresh : List Symbol
deriving DecidableEq, Repr

namespace Draft

/-- The draft before the first alternative. -/
def empty : Draft :=
  ⟨[], [], []⟩

instance : Inhabited Draft :=
  ⟨empty⟩

/-- An alternative is kept. -/
def keep (d : Draft) (rhs : List Symbol) : Draft :=
  { d with heads := d.heads ++ [rhs] }

/-- A group goes behind its fresh symbol. -/
def branch (d : Draft) (dedup : Bool) (alternatives : List (List Symbol)) (group : Group)
    (fresh : Symbol) : Draft where
  heads := d.heads ++ [group.shared ++ [fresh]]
  tails := d.tails ++ (suffixes dedup alternatives group).map (Rule.mk fresh)
  fresh := d.fresh ++ [fresh]

/-- The rules that come in place of the alternatives of `s`. -/
def rules (d : Draft) (s : Symbol) : List Rule :=
  d.heads.map (Rule.mk s) ++ d.tails

end Draft

/-! ## The pass -/

/-- Issues the fresh symbol of a group of `s`, and reports it. -/
def separate (s : Symbol) (group : Group) : Action Workspace Symbol := do
  let fresh ← introduce s
  modify fun w => w.report (.factoredOut (w.vocabulary.displayNames group.shared)
    (w.vocabulary.displayName s) (w.vocabulary.displayName fresh))
  return fresh

/-- Deals with an alternative of `s` and its position. A group is factored out where its first
member is, and its other members go. -/
def scanAt (dedup : Bool) (s : Symbol) (alternatives : List (List Symbol))
    (table : Array (Option Group)) (d : Draft) (entry : List Symbol × Nat) :
    Action Workspace Draft :=
  match table[entry.2]?.join with
  | none => pure (d.keep entry.1)
  | some group =>
    if group.members.head? = some entry.2 then do
      let fresh ← separate s group
      return d.branch dedup alternatives group fresh
    else pure d

/-- Factors the given groups out of the alternatives of `s`. The answer is the fresh symbols. -/
def factorGroups (dedup : Bool) (s : Symbol) (groups : List Group) :
    Action Workspace (List Symbol) := do
  let alternatives := (← get).grammar.rightSides s
  let table := groupTable alternatives.length groups
  let d ← alternatives.zipIdx.foldlM (scanAt dedup s alternatives table) .empty
  modify (·.replace s (d.rules s))
  return d.fresh

/-- Left-factors the alternatives of `s` once. The answer is the fresh symbols. -/
def factor (o : Options) (s : Symbol) : Action Workspace (Except Refusal (List Symbol)) := do
  let g := (← get).grammar
  if !g.isNonterminal s then
    return .error (.notNonterminal s)
  else if (g.groups o.policy s).isEmpty then
    return .error (.nothingToFactor s)
  else
    let fresh ← factorGroups o.dedup s (g.groups o.policy s)
    return .ok fresh

/-! ## Room for fresh symbols -/

theorem room_of_separate {s fresh : Symbol} {group : Group} {w w' : Workspace}
    (h : separate s group w = .ok fresh w') : w'.room + 1 = w.room := by
  simp only [separate, Action.bind_eq_ok_iff, Action.modify_apply, Action.pure_apply,
    EStateM.Result.ok.injEq] at h
  obtain ⟨_, v, hi, _, _, ⟨_, rfl⟩, _, rfl⟩ := h
  rw [Workspace.room_report]
  exact room_of_introduce hi

/-- Each symbol that the draft gains takes up room. -/
theorem room_of_scanAt {dedup : Bool} {s : Symbol} {alternatives : List (List Symbol)}
    {table : Array (Option Group)} {d d' : Draft} {entry : List Symbol × Nat} {w w' : Workspace}
    (h : scanAt dedup s alternatives table d entry w = .ok d' w') :
    w'.room + d'.fresh.length = w.room + d.fresh.length := by
  cases hgroup : table[entry.2]?.join with
  | none =>
    simp only [scanAt, hgroup] at h
    cases h
    rfl
  | some group =>
    simp only [scanAt, hgroup] at h
    split at h
    · simp only [Action.bind_eq_ok_iff, Action.pure_apply, EStateM.Result.ok.injEq] at h
      obtain ⟨fresh, _, hs, rfl, rfl⟩ := h
      have := room_of_separate hs
      simp only [Draft.branch, List.length_append, List.length_singleton]
      omega
    · cases h
      rfl

theorem room_of_foldlM_scanAt {dedup : Bool} {s : Symbol} {alternatives : List (List Symbol)}
    {table : Array (Option Group)} {entries : List (List Symbol × Nat)} {d d' : Draft}
    {w w' : Workspace}
    (h : entries.foldlM (scanAt dedup s alternatives table) d w = .ok d' w') :
    w'.room + d'.fresh.length = w.room + d.fresh.length := by
  induction entries generalizing d w with
  | nil =>
    cases h
    rfl
  | cons entry entries ih =>
    rw [List.foldlM_cons, Action.bind_eq_ok_iff] at h
    obtain ⟨d₁, w₁, hstep, hrest⟩ := h
    have hfirst := room_of_scanAt hstep
    have hlater := ih hrest
    omega

theorem room_of_factorGroups {dedup : Bool} {s : Symbol} {groups : List Group}
    {fresh : List Symbol} {w w' : Workspace}
    (h : factorGroups dedup s groups w = .ok fresh w') : w'.room + fresh.length = w.room := by
  simp only [factorGroups, Action.bind_eq_ok_iff, Action.get_apply, Action.modify_apply,
    Action.pure_apply, EStateM.Result.ok.injEq] at h
  obtain ⟨_, _, ⟨rfl, rfl⟩, d, v, hscan, _, _, ⟨_, rfl⟩, rfl, rfl⟩ := h
  rw [Workspace.room_replace]
  exact room_of_foldlM_scanAt hscan

/-- Factoring is refused twice over before anything is done. -/
theorem factor_apply (o : Options) (s : Symbol) (w : Workspace) :
    factor o s w =
      if !w.grammar.isNonterminal s then .ok (.error (.notNonterminal s)) w
      else if (w.grammar.groups o.policy s).isEmpty then .ok (.error (.nothingToFactor s)) w
      else
        match factorGroups o.dedup s (w.grammar.groups o.policy s) w with
        | .ok fresh w' => .ok (.ok fresh) w'
        | .error e w' => .error e w' := by
  simp only [factor, Action.bind_apply, Action.get_apply]
  split
  · rfl
  · split
    · rfl
    · rw [Action.bind_apply]
      cases factorGroups o.dedup s (w.grammar.groups o.policy s) w <;> rfl

/-- A refusal leaves the workspace as it was. -/
theorem eq_of_factor_refused {o : Options} {s : Symbol} {w w' : Workspace} {r : Refusal}
    (h : factor o s w = .ok (.error r) w') : w' = w := by
  rw [factor_apply] at h
  split at h
  · cases h
    rfl
  · split at h
    · cases h
      rfl
    · split at h <;> cases h

/-- Each fresh symbol of a pass takes up room. -/
theorem room_of_factor {o : Options} {s : Symbol} {w w' : Workspace} {fresh : List Symbol}
    (h : factor o s w = .ok (.ok fresh) w') : w'.room + fresh.length = w.room := by
  rw [factor_apply] at h
  split at h
  · cases h
  · split at h
    · cases h
    · split at h
      next hf =>
        cases h
        exact room_of_factorGroups hf
      · cases h

end Factoring

end ContextFree
