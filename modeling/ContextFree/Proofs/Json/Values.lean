import ContextFree.Json.Parse
import ContextFree.Proofs.Json.Tokens

/-!
# Reading values that were written

A value that is spelled as JSON allows (`Spelled`) is read back from its own text (`parse?_write`),
to whatever depth it is nested. The two steps of reading are taken one after the other. The text of
the value is taken apart into the tokens of the value, whatever delimited text follows
(`readsBack_tokens`). The tokens lead from the state in which a value has to come to the state in
which it has been read, whatever waits on the stack (`yields_tokens`).
-/

namespace ContextFree

namespace Json

/-- Every number in the value is spelled as one, and every string spells halves of surrogate pairs
where it has no characters. -/
inductive Spelled : Json → Prop
  | null : Spelled .null
  | bool (b : Bool) : Spelled (.bool b)
  | number {literal : List Char} : (Token.number literal).Spelled → Spelled (.number literal)
  | string {pieces : List Piece} : (Token.string pieces).Spelled → Spelled (.string pieces)
  | array {items : List Json} : (∀ v ∈ items, Spelled v) → Spelled (.array items)
  | object {members : List (List Piece × Json)} :
      (∀ m ∈ members, (Token.string m.1).Spelled) → (∀ m ∈ members, Spelled m.2) →
        Spelled (.object members)

/-! ## The tokens of a text -/

/-- The text of the tokens, whatever delimited text follows, is taken apart into them. -/
def ReadsBack (ts : List Token) : Prop :=
  ∀ rest, Delimited rest →
    tokenize (ts.flatMap Token.write ++ rest) = (tokenize rest).map (ts ++ ·)

theorem ReadsBack.singleton {t : Token} (h : t.Spelled) : ReadsBack [t] := by
  intro rest hrest
  rw [List.flatMap_singleton]
  exact tokenize_write h fun _ => hrest

/-- A closed token may stand before anything. -/
theorem ReadsBack.cons {t : Token} {ts : List Token} (h : t.Spelled) (hopen : t.isOpen = false)
    (hts : ReadsBack ts) : ReadsBack (t :: ts) := by
  intro rest hrest
  rw [List.flatMap_cons, List.append_assoc, tokenize_write h (by simp [hopen]), hts rest hrest,
    Option.map_map]
  rfl

/-- A sign may stand after anything. -/
theorem ReadsBack.append {t : Token} {ts us : List Token} (hts : ReadsBack ts)
    (ht : t = .comma ∨ t = .closeBracket ∨ t = .closeBrace) (hus : ReadsBack (t :: us)) :
    ReadsBack (ts ++ t :: us) := by
  intro rest hrest
  have hdel : Delimited ((t :: us).flatMap Token.write ++ rest) := by
    intro c hc
    rcases ht with rfl | rfl | rfl
    all_goals
      cases hc
      decide
  rw [List.flatMap_append, List.append_assoc, hts _ hdel, hus rest hrest, Option.map_map]
  congr 1
  funext later
  exact (List.append_assoc ..).symm

theorem readsBack_itemTokens {items : List Json} (h : ∀ v ∈ items, ReadsBack (tokens v)) :
    ReadsBack (itemTokens items) := by
  induction items with
  | nil =>
    intro rest _
    simp [itemTokens]
  | cons v items ih =>
    have hv := h v (List.mem_cons_self ..)
    cases items with
    | nil => exact hv
    | cons w items =>
      have hrest := ih fun u hu => h u (List.mem_cons_of_mem v hu)
      exact hv.append (.inl rfl) (hrest.cons (t := .comma) trivial rfl)

theorem readsBack_memberTokens {members : List (List Piece × Json)}
    (h : ∀ m ∈ members, (Token.string m.1).Spelled ∧ ReadsBack (tokens m.2)) :
    ReadsBack (memberTokens members) := by
  induction members with
  | nil =>
    intro rest _
    simp [memberTokens]
  | cons m members ih =>
    rcases m with ⟨key, v⟩
    rcases h (key, v) (List.mem_cons_self ..) with ⟨hkey, hv⟩
    cases members with
    | nil => exact (hv.cons (t := .colon) trivial rfl).cons hkey rfl
    | cons m members =>
      have hrest := ih fun u hu => h u (List.mem_cons_of_mem _ hu)
      have hvalue := hv.append (.inl rfl) (hrest.cons (t := .comma) trivial rfl)
      exact (hvalue.cons (t := .colon) trivial rfl).cons hkey rfl

/-- The text of a value is taken apart into the tokens of the value. -/
theorem readsBack_tokens {v : Json} (h : v.Spelled) : ReadsBack (tokens v) := by
  induction h with
  | null => exact .singleton trivial
  | bool b => exact .singleton trivial
  | number hn => exact .singleton hn
  | string hs => exact .singleton hs
  | array _ ih =>
    have hitems := readsBack_itemTokens ih
    exact (hitems.append (.inr (.inl rfl)) (.singleton trivial)).cons trivial rfl
  | object hkeys _ ih =>
    have hmembers := readsBack_memberTokens fun m hm => ⟨hkeys m hm, ih m hm⟩
    exact (hmembers.append (.inr (.inr rfl)) (.singleton trivial)).cons trivial rfl

/-! ## The value of the tokens -/

theorem foldlM_step_cons {s u : State} {t : Token} {ts : List Token} (h : step s t = some u) :
    (t :: ts).foldlM step s = ts.foldlM step u := by
  rw [List.foldlM_cons, h]
  rfl

/-- The tokens lead from where a value has to come to where it has been read. -/
def Yields (ts : List Token) (v : Json) : Prop :=
  ∀ stack rest, (ts ++ rest).foldlM step (.value stack) = rest.foldlM step (.done stack v)

/-- A value begins with a token that does not end an array. -/
theorem exists_token_itemTokens (v : Json) (items : List Json) :
    ∃ t ts, itemTokens (v :: items) = t :: ts ∧
      ∀ stack, step (.firstItem stack) t = step (.value (.array [] :: stack)) t := by
  have hv : ∃ t ts, tokens v = t :: ts ∧
      ∀ stack, step (.firstItem stack) t = step (.value (.array [] :: stack)) t := by
    cases v <;> exact ⟨_, _, rfl, fun _ => rfl⟩
  rcases hv with ⟨t, ts, hts, hstep⟩
  cases items with
  | nil => exact ⟨t, ts, hts, hstep⟩
  | cons w items => exact ⟨t, _, congrArg (· ++ _) hts, hstep⟩

/-- The items that follow those already done complete the array. -/
theorem foldlM_step_itemTokens {items : List Json} (h : ∀ v ∈ items, Yields (tokens v) v)
    (hne : items ≠ []) (done : List Json) (stack : List Frame) (rest : List Token) :
    (itemTokens items ++ .closeBracket :: rest).foldlM step (.value (.array done :: stack)) =
      rest.foldlM step (.done stack (.array (done.reverse ++ items))) := by
  induction items generalizing done with
  | nil => exact absurd rfl hne
  | cons v items ih =>
    have hv := h v (List.mem_cons_self ..)
    cases items with
    | nil =>
      rw [itemTokens, hv, foldlM_step_cons (u := .done stack (.array (v :: done).reverse)) rfl,
        List.reverse_cons]
    | cons w items =>
      have hrest := ih (fun u hu => h u (List.mem_cons_of_mem v hu)) (List.cons_ne_nil w items)
      rw [itemTokens, List.append_assoc, hv, List.cons_append,
        foldlM_step_cons (u := .value (.array (v :: done) :: stack)) rfl, hrest,
        List.reverse_cons, List.append_assoc]
      rfl

/-- The members that follow those already done complete the object. -/
theorem foldlM_step_memberTokens {members : List (List Piece × Json)}
    (h : ∀ m ∈ members, Yields (tokens m.2) m.2) (hne : members ≠ [])
    (done : List (List Piece × Json)) (stack : List Frame) (rest : List Token) :
    (memberTokens members ++ .closeBrace :: rest).foldlM step (.nextKey stack done) =
      rest.foldlM step (.done stack (.object (done.reverse ++ members))) := by
  induction members generalizing done with
  | nil => exact absurd rfl hne
  | cons m members ih =>
    rcases m with ⟨key, v⟩
    have hv : ∀ later, (.string key :: .colon :: tokens v ++ later).foldlM step
        (.nextKey stack done) = later.foldlM step (.done (.object done key :: stack) v) := by
      intro later
      rw [List.cons_append, List.cons_append, foldlM_step_cons (u := .colon stack done key) rfl,
        foldlM_step_cons (u := .value (.object done key :: stack)) rfl]
      exact h (key, v) (List.mem_cons_self ..) _ later
    cases members with
    | nil =>
      rw [memberTokens, hv,
        foldlM_step_cons (u := .done stack (.object ((key, v) :: done).reverse)) rfl,
        List.reverse_cons]
    | cons m members =>
      have hrest := ih (fun u hu => h u (List.mem_cons_of_mem _ hu)) (List.cons_ne_nil m members)
      rw [memberTokens, List.append_assoc, hv, List.cons_append,
        foldlM_step_cons (u := .nextKey stack ((key, v) :: done)) rfl, hrest,
        List.reverse_cons, List.append_assoc]
      rfl

theorem yields_array {items : List Json} (h : ∀ v ∈ items, Yields (tokens v) v) :
    Yields (tokens (.array items)) (.array items) := by
  intro stack rest
  rw [tokens, List.append_assoc, List.cons_append, foldlM_step_cons (u := .firstItem stack) rfl]
  cases items with
  | nil => exact foldlM_step_cons rfl
  | cons v items =>
    have hitems := foldlM_step_itemTokens h (List.cons_ne_nil v items) [] stack rest
    -- the first item is read as if a value had to come, for it begins with no closing bracket
    rcases exists_token_itemTokens v items with ⟨t, ts, hts, hstep⟩
    rw [hts] at hitems ⊢
    rw [List.cons_append, List.foldlM_cons, hstep]
    exact hitems

theorem yields_object {members : List (List Piece × Json)}
    (h : ∀ m ∈ members, Yields (tokens m.2) m.2) :
    Yields (tokens (.object members)) (.object members) := by
  intro stack rest
  rw [tokens, List.append_assoc, List.cons_append, foldlM_step_cons (u := .firstKey stack) rfl]
  cases members with
  | nil => exact foldlM_step_cons rfl
  | cons m members =>
    have hmembers := foldlM_step_memberTokens h (List.cons_ne_nil m members) [] stack rest
    -- the first key is read as one after a comma would be
    cases members <;> exact hmembers

/-- The tokens of a value lead to the value. -/
theorem yields_tokens {v : Json} (h : Spelled v) : Yields (tokens v) v := by
  induction h with
  | null => exact fun _ _ => foldlM_step_cons rfl
  | bool b => exact fun _ _ => foldlM_step_cons rfl
  | number _ => exact fun _ _ => foldlM_step_cons rfl
  | string _ => exact fun _ _ => foldlM_step_cons rfl
  | array _ ih => exact yields_array ih
  | object _ _ ih => exact yields_object ih

/-! ## Texts -/

/-- A value is read back from its text. -/
theorem parse?_write {v : Json} (h : Spelled v) : parse? v.write = some v := by
  have htokens : tokenize ((tokens v).flatMap Token.write) = some (tokens v) := by
    have hread := readsBack_tokens h [] (by simp [Delimited])
    rw [List.append_nil, tokenize] at hread
    simpa using hread
  have hvalue := yields_tokens h [] []
  rw [List.append_nil] at hvalue
  rw [parse?, write, String.toList_ofList, htokens, Option.bind_some, ofTokens?, hvalue]
  rfl

end Json

end ContextFree
