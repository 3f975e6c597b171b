import Mathlib.Data.List.TakeWhile
import ContextFree.Json.Write

/-!
# Reading tokens that were written

A token is read back from its own text (`tokenize_write`), and so is the text that follows it. The
text of a number or a word has no end of its own, so what follows it has to begin with a sign or a
blank (`Delimited`).

In a string each piece is read back from its own text (`scanString_write`): the escapes for a quote,
a backslash and the control characters are undone, and so are those for the halves of surrogate
pairs.
-/

namespace ContextFree

namespace Json

/-! ## Strings -/

/-- A half names a unit that is half of a surrogate pair. -/
def Piece.Spelled : Piece → Prop
  | .char _ => True
  | .half unit => 0xD800 ≤ unit ∧ unit < 0xE000

theorem hexDigit?_digitChar : ∀ n < 16, hexDigit? (Nat.digitChar n) = some n := by
  decide

theorem scanString_unitEscape {unit : Nat} (h : unit < 0x10000) (rest : List Char) :
    scanString (unitEscape unit ++ rest) =
      (scanString rest).map fun scanned => (.ofUnit unit :: scanned.1, scanned.2) := by
  have hdigit : ∀ n, hexDigit? (Nat.digitChar (n % 16)) = some (n % 16) := fun n =>
    hexDigit?_digitChar _ (Nat.mod_lt n (by decide))
  have hunit : unit? (Nat.digitChar (unit / 0x1000 % 16)) (Nat.digitChar (unit / 0x100 % 16))
      (Nat.digitChar (unit / 0x10 % 16)) (Nat.digitChar (unit % 16)) = some unit := by
    simp only [unit?, hdigit, bind, Option.bind_some, pure, Option.some.injEq]
    omega
  simp only [unitEscape, List.cons_append, List.nil_append, scanString, hunit, bind, pure]
  cases scanString rest <;> rfl

/-- A character that needs no escape stands for itself. -/
theorem scanString_plain {c : Char} (hquote : c ≠ '"') (hslash : c ≠ '\\') (hc : ¬ c.toNat < 0x20)
    (rest : List Char) :
    scanString (c :: rest) =
      (scanString rest).map fun scanned => (.char c :: scanned.1, scanned.2) := by
  rw [scanString.eq_def]
  split
  · simp_all
  · simp_all
  · simp_all
  · simp_all
  next heq =>
    cases heq
    rw [if_neg (by simp [hslash, hc])]
    cases scanString rest <;> rfl

/-- A letter or sign after a backslash is undone, unless it announces a unit. -/
theorem scanString_escaped {e c : Char} (hu : e ≠ 'u') (he : escaped? e = some c)
    (rest : List Char) :
    scanString ('\\' :: e :: rest) =
      (scanString rest).map fun scanned => (.char c :: scanned.1, scanned.2) := by
  rw [scanString.eq_def]
  split
  next heq => cases heq
  next heq => cases heq
  next heq =>
    cases heq
    exact absurd rfl hu
  next heq =>
    cases heq
    simp only [he, bind, Option.bind_some, pure]
    cases scanString rest <;> rfl
  next h heq =>
    cases heq
    exact absurd rfl (h e rest rfl)

theorem scanString_escape (c : Char) (rest : List Char) :
    scanString (escape c ++ rest) =
      (scanString rest).map fun scanned => (.char c :: scanned.1, scanned.2) := by
  unfold escape
  split_ifs with hquote hslash _ _ _ _ _ hcontrol
  -- a character that has a letter for its escape
  any_goals
    subst_vars
    exact scanString_escaped (by decide) rfl rest
  · have hpiece : Piece.ofUnit c.toNat = .char c := by
      rw [Piece.ofUnit, if_neg (by omega), Char.ofNat_toNat]
    rw [scanString_unitEscape (by omega), hpiece]
  · exact scanString_plain hquote hslash hcontrol rest

theorem scanString_write {p : Piece} (h : p.Spelled) (rest : List Char) :
    scanString (p.write ++ rest) =
      (scanString rest).map fun scanned => (p :: scanned.1, scanned.2) := by
  cases p with
  | char c => exact scanString_escape c rest
  | half unit =>
    have hpiece : Piece.ofUnit unit = .half unit := if_pos h
    rw [Piece.write, scanString_unitEscape (Nat.lt_trans h.2 (by decide)), hpiece]

/-- The pieces of a string are read back up to the quote that ends it. -/
theorem scanString_pieces {pieces : List Piece} (h : ∀ p ∈ pieces, p.Spelled) (rest : List Char) :
    scanString (pieces.flatMap Piece.write ++ '"' :: rest) = some (pieces, rest) := by
  induction pieces with
  | nil => rfl
  | cons p pieces ih =>
    have hrest := ih fun q hq => h q (List.mem_cons_of_mem p hq)
    rw [List.flatMap_cons, List.append_assoc, scanString_write (h p (List.mem_cons_self ..)), hrest]
    rfl

/-! ## Numbers -/

theorem isNumberChar_of_isDigit {c : Char} (h : c.isDigit = true) : isNumberChar c = true := by
  rw [isNumberChar, h, Bool.true_or]

/-- A character of a number is no sign, no quote and no blank. -/
theorem of_isNumberChar {c : Char} (h : isNumberChar c = true) :
    ofSign? c = none ∧ c ≠ '"' ∧ isBlank c = false := by
  have hne : ∀ d, isNumberChar d = false → c ≠ d := by
    rintro d hd rfl
    rw [h] at hd
    cases hd
  refine ⟨?_, hne _ (by decide), ?_⟩
  · unfold ofSign?
    split
    any_goals
      revert h
      decide
    rfl
  · simp [isBlank, hne ' ' (by decide), hne '\t' (by decide), hne '\n' (by decide),
      hne '\r' (by decide)]

/-- Every character of a number may stand in a number. -/
theorem isNumberChar_of_isDigits {cs : List Char} (h : isDigits cs = true) :
    ∀ c ∈ cs, isNumberChar c = true := by
  intro c hc
  rw [isDigits, Bool.and_eq_true, List.all_eq_true] at h
  exact isNumberChar_of_isDigit (h.2 c hc)

theorem isNumberChar_of_isExponent {cs : List Char} (h : isExponent cs = true) :
    ∀ c ∈ cs, isNumberChar c = true := by
  have hletter : ∀ {e : Char}, decide (e = 'e' ∨ e = 'E') = true → isNumberChar e = true := by
    intro e he
    rcases of_decide_eq_true he with rfl | rfl <;> decide
  unfold isExponent at h
  split at h
  · simp
  all_goals
    rw [Bool.and_eq_true] at h
    have hdigits := isNumberChar_of_isDigits h.2
    have hfirst := hletter h.1
    have hplus : isNumberChar '+' = true := by decide
    have hminus : isNumberChar '-' = true := by decide
    simp_all

theorem isNumberChar_of_isFraction {cs : List Char} (h : isFraction cs = true) :
    ∀ c ∈ cs, isNumberChar c = true := by
  unfold isFraction at h
  split at h
  next cs =>
    rw [Bool.and_eq_true] at h
    have hpoint : isNumberChar '.' = true := by decide
    intro c hc
    rcases List.mem_cons.mp hc with rfl | hc
    · exact hpoint
    · rw [← List.takeWhile_append_dropWhile (p := Char.isDigit) (l := cs)] at hc
      rcases List.mem_append.mp hc with hwhole | hrest
      · exact isNumberChar_of_isDigits h.1 c hwhole
      · exact isNumberChar_of_isExponent h.2 c hrest
  · exact isNumberChar_of_isExponent h

theorem isNumberChar_of_isUnsigned {cs : List Char} (h : isUnsigned cs = true) :
    ∀ c ∈ cs, isNumberChar c = true := by
  unfold isUnsigned at h
  split at h
  · cases h
  next cs =>
    have hzero : isNumberChar '0' = true := by decide
    have hrest := isNumberChar_of_isFraction h
    simp_all
  next d cs _ =>
    rw [Bool.and_eq_true] at h
    intro c hc
    rcases List.mem_cons.mp hc with rfl | hc
    · exact isNumberChar_of_isDigit h.1
    · rw [← List.takeWhile_append_dropWhile (p := Char.isDigit) (l := cs)] at hc
      rcases List.mem_append.mp hc with hwhole | hrest
      · exact isNumberChar_of_isDigit (List.mem_takeWhile_imp hwhole)
      · exact isNumberChar_of_isFraction h.2 c hrest

theorem isNumberChar_of_isNumber {cs : List Char} (h : isNumber cs = true) :
    ∀ c ∈ cs, isNumberChar c = true := by
  unfold isNumber at h
  split at h
  next cs =>
    have hminus : isNumberChar '-' = true := by decide
    have hrest := isNumberChar_of_isUnsigned h
    simp_all
  · exact isNumberChar_of_isUnsigned h

/-! ## Tokens -/

/-- A number is spelled as one, and a string with halves of surrogate pairs and nothing else where
it has no character. -/
def Token.Spelled : Token → Prop
  | .number literal => isNumber literal = true
  | .string pieces => ∀ p ∈ pieces, p.Spelled
  | _ => True

/-- Does the text of the token reach as far as its characters do? -/
def Token.isOpen : Token → Bool
  | .null | .bool _ | .number _ => true
  | _ => false

/-- The text goes on with nothing that could be part of a number or a word before it. -/
def Delimited (rest : List Char) : Prop :=
  ∀ c ∈ rest.head?, isNumberChar c = false ∧ c.isAlpha = false

theorem takeWhile_append_delimited {p : Char → Bool} {cs rest : List Char}
    (hcs : ∀ c ∈ cs, p c = true) (hrest : ∀ c ∈ rest.head?, p c = false) :
    (cs ++ rest).takeWhile p = cs ∧ (cs ++ rest).dropWhile p = rest := by
  rw [List.takeWhile_append_of_pos hcs, List.dropWhile_append_of_pos hcs]
  cases rest with
  | nil => simp
  | cons c rest => simp [hrest c rfl]

theorem scanWord_append {c : Char} {cs rest : List Char} {t : Token}
    (hcs : cs.all Char.isAlpha = true) (hrest : Delimited rest) (ht : ofWord? (c :: cs) = some t) :
    scanWord c (cs ++ rest) = some (t, rest) := by
  have hletters := List.all_eq_true.mp hcs
  have hends := takeWhile_append_delimited hletters fun d hd => (hrest d hd).2
  rw [scanWord, hends.1, hends.2, ht]
  rfl

theorem scan_number {c : Char} {cs rest : List Char} (h : isNumber (c :: cs) = true)
    (hrest : Delimited rest) : scan c (cs ++ rest) = some (.number (c :: cs), rest) := by
  have hchars := isNumberChar_of_isNumber h
  have hc := hchars c (List.mem_cons_self ..)
  rcases of_isNumberChar hc with ⟨hsign, hquote, -⟩
  have hends := takeWhile_append_delimited (fun d hd => hchars d (List.mem_cons_of_mem c hd))
    fun d hd => (hrest d hd).1
  simp only [scan, hsign, if_neg hquote, hc, if_true]
  rw [scanNumber, hends.1, hends.2, if_pos h]

theorem scan_string {pieces : List Piece} (h : ∀ p ∈ pieces, p.Spelled) (rest : List Char) :
    scan '"' (pieces.flatMap Piece.write ++ '"' :: rest) = some (.string pieces, rest) := by
  have hsign : ofSign? '"' = none := rfl
  simp only [scan, hsign, if_true, scanString_pieces h, Option.map_some]

/-- The text of a token is scanned up to where it ends. -/
theorem scan_write {t : Token} (h : t.Spelled) {rest : List Char}
    (hrest : t.isOpen = true → Delimited rest) :
    ∃ c cs, t.write = c :: cs ∧ isBlank c = false ∧ scan c (cs ++ rest) = some (t, rest) := by
  cases t with
  | null => exact ⟨'n', "ull".toList, rfl, rfl, scanWord_append rfl (hrest rfl) rfl⟩
  | bool b =>
    cases b with
    | true => exact ⟨'t', "rue".toList, rfl, rfl, scanWord_append rfl (hrest rfl) rfl⟩
    | false => exact ⟨'f', "alse".toList, rfl, rfl, scanWord_append rfl (hrest rfl) rfl⟩
  | number literal =>
    cases literal with
    | nil => cases h
    | cons c cs =>
      have hc := isNumberChar_of_isNumber h c (List.mem_cons_self ..)
      exact ⟨c, cs, rfl, (of_isNumberChar hc).2.2, scan_number h (hrest rfl)⟩
  | string pieces =>
    refine ⟨'"', pieces.flatMap Piece.write ++ ['"'], rfl, rfl, ?_⟩
    rw [List.append_assoc, List.singleton_append]
    exact scan_string h rest
  | openBracket => exact ⟨'[', [], rfl, rfl, rfl⟩
  | closeBracket => exact ⟨']', [], rfl, rfl, rfl⟩
  | openBrace => exact ⟨'\x7b', [], rfl, rfl, rfl⟩
  | closeBrace => exact ⟨'\x7d', [], rfl, rfl, rfl⟩
  | comma => exact ⟨',', [], rfl, rfl, rfl⟩
  | colon => exact ⟨':', [], rfl, rfl, rfl⟩

/-- A token is read back, and so is what follows it. -/
theorem tokenize_write {t : Token} (h : t.Spelled) {rest : List Char}
    (hrest : t.isOpen = true → Delimited rest) :
    tokenize (t.write ++ rest) = (tokenize rest).map (t :: ·) := by
  rcases scan_write h hrest with ⟨c, cs, hwrite, hblank, hscan⟩
  rw [hwrite, List.cons_append, tokenize.eq_def]
  simp only [hblank, Bool.false_eq_true, if_false]
  split
  next hnone =>
    rw [hscan] at hnone
    cases hnone
  next t' rest' hsome =>
    rw [hscan] at hsome
    cases hsome
    rfl

end Json

end ContextFree
