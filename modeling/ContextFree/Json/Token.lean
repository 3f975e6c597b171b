import ContextFree.Json.Value

/-!
# JSON tokens

A JSON text is a sequence of tokens with blanks between them. `tokenize` takes the text apart. A
number or a word reaches as far as its characters do; nothing that may follow one in a value could
be a part of it.
-/

namespace ContextFree

namespace Json

/-- A token of a JSON text. -/
inductive Token where
  | openBracket
  | closeBracket
  | openBrace
  | closeBrace
  | comma
  | colon
  | null
  | bool (b : Bool)
  | number (literal : List Char)
  | string (pieces : List Piece)
deriving DecidableEq, Repr

/-! ## Strings -/

/-- The value of a hexadecimal digit. -/
def hexDigit? (c : Char) : Option Nat :=
  if c.isDigit then some (c.toNat - '0'.toNat)
  else if 'a' ≤ c ∧ c ≤ 'f' then some (c.toNat - 'a'.toNat + 10)
  else if 'A' ≤ c ∧ c ≤ 'F' then some (c.toNat - 'A'.toNat + 10)
  else none

/-- The unit that four hexadecimal digits name. -/
def unit? (a b c d : Char) : Option Nat := do
  let a ← hexDigit? a
  let b ← hexDigit? b
  let c ← hexDigit? c
  let d ← hexDigit? d
  return ((a * 16 + b) * 16 + c) * 16 + d

/-- What a letter or sign stands for after a backslash. -/
def escaped? : Char → Option Char
  | '"' => some '"'
  | '\\' => some '\\'
  | '/' => some '/'
  | 'b' => some '\x08'
  | 'f' => some '\x0c'
  | 'n' => some '\n'
  | 'r' => some '\r'
  | 't' => some '\t'
  | _ => none

/-- The pieces of a string up to the closing quote, and what follows it. A control character has to
be escaped. -/
def scanString : List Char → Option (List Piece × List Char)
  | [] => none
  | '"' :: rest => some ([], rest)
  | '\\' :: 'u' :: a :: b :: c :: d :: rest => do
    let unit ← unit? a b c d
    let (pieces, rest) ← scanString rest
    return (.ofUnit unit :: pieces, rest)
  | '\\' :: e :: rest => do
    let c ← escaped? e
    let (pieces, rest) ← scanString rest
    return (.char c :: pieces, rest)
  | c :: rest =>
    if c = '\\' ∨ c.toNat < 0x20 then none
    else do
      let (pieces, rest) ← scanString rest
      return (.char c :: pieces, rest)

/-! ## Numbers and words -/

/-- May the character stand in a number? -/
def isNumberChar (c : Char) : Bool :=
  c.isDigit || "+-.eE".toList.contains c

/-- Is this a sequence of digits, and not an empty one? -/
def isDigits (cs : List Char) : Bool :=
  !cs.isEmpty && cs.all Char.isDigit

/-- May this follow the digits of a number: nothing, or an exponent? -/
def isExponent : List Char → Bool
  | [] => true
  | e :: '+' :: cs => (e = 'e' ∨ e = 'E') && isDigits cs
  | e :: '-' :: cs => (e = 'e' ∨ e = 'E') && isDigits cs
  | e :: cs => (e = 'e' ∨ e = 'E') && isDigits cs

/-- May this follow the whole part of a number: a fraction, an exponent, both or nothing? -/
def isFraction : List Char → Bool
  | '.' :: cs => isDigits (cs.takeWhile Char.isDigit) && isExponent (cs.dropWhile Char.isDigit)
  | cs => isExponent cs

/-- Is this a number without a sign? Its whole part is zero or does not begin with zero. -/
def isUnsigned : List Char → Bool
  | [] => false
  | '0' :: cs => isFraction cs
  | c :: cs => c.isDigit && isFraction (cs.dropWhile Char.isDigit)

/-- Is this a number? -/
def isNumber : List Char → Bool
  | '-' :: cs => isUnsigned cs
  | cs => isUnsigned cs

/-- The token that a word stands for. -/
def ofWord? (word : List Char) : Option Token :=
  if word = "null".toList then some .null
  else if word = "true".toList then some (.bool true)
  else if word = "false".toList then some (.bool false)
  else none

/-! ## Taking a text apart -/

/-- Is the character a blank? -/
def isBlank (c : Char) : Bool :=
  c = ' ' || c = '\t' || c = '\n' || c = '\r'

/-- The token that a sign is by itself. -/
def ofSign? : Char → Option Token
  | '[' => some .openBracket
  | ']' => some .closeBracket
  | '\x7b' => some .openBrace
  | '\x7d' => some .closeBrace
  | ',' => some .comma
  | ':' => some .colon
  | _ => none

/-- The number that begins with `c`, and what follows it. -/
def scanNumber (c : Char) (rest : List Char) : Option (Token × List Char) :=
  if isNumber (c :: rest.takeWhile isNumberChar) then
    some (.number (c :: rest.takeWhile isNumberChar), rest.dropWhile isNumberChar)
  else none

/-- The word that begins with `c`, and what follows it. -/
def scanWord (c : Char) (rest : List Char) : Option (Token × List Char) :=
  (ofWord? (c :: rest.takeWhile Char.isAlpha)).map (·, rest.dropWhile Char.isAlpha)

/-- The token that begins with `c`, and what follows it. -/
def scan (c : Char) (rest : List Char) : Option (Token × List Char) :=
  match ofSign? c with
  | some t => some (t, rest)
  | none =>
    if c = '"' then (scanString rest).map fun scanned => (.string scanned.1, scanned.2)
    else if isNumberChar c then scanNumber c rest
    else scanWord c rest

theorem length_of_scanString {cs rest : List Char} {pieces : List Piece}
    (h : scanString cs = some (pieces, rest)) : rest.length ≤ cs.length := by
  fun_induction scanString cs generalizing pieces rest with
  | case1 => cases h
  | case2 r =>
    cases h
    simp
  | case3 a b c d r ih =>
    simp only [bind, Option.bind_eq_some_iff, pure, Option.some.injEq, Prod.mk.injEq] at h
    obtain ⟨_, _, scanned, hs, _, rfl⟩ := h
    have := ih hs
    simp only [List.length_cons]
    omega
  | case4 e r _ ih =>
    simp only [bind, Option.bind_eq_some_iff, pure, Option.some.injEq, Prod.mk.injEq] at h
    obtain ⟨_, _, scanned, hs, _, rfl⟩ := h
    have := ih hs
    simp only [List.length_cons]
    omega
  | case5 => cases h
  | case6 c r _ _ _ _ ih =>
    simp only [bind, Option.bind_eq_some_iff, pure, Option.some.injEq, Prod.mk.injEq] at h
    obtain ⟨scanned, hs, _, rfl⟩ := h
    have := ih hs
    simp only [List.length_cons]
    omega

/-- What follows a token is no longer than what followed its first character. -/
theorem length_of_scan {c : Char} {cs rest : List Char} {t : Token}
    (h : scan c cs = some (t, rest)) : rest.length ≤ cs.length := by
  have hdrop : ∀ p : Char → Bool, (cs.dropWhile p).length ≤ cs.length := fun p =>
    (List.dropWhile_suffix p).length_le
  unfold scan at h
  split at h
  · cases h
    exact Nat.le_refl _
  · split at h
    · simp only [Option.map_eq_some_iff, Prod.mk.injEq] at h
      obtain ⟨scanned, hs, _, rfl⟩ := h
      exact length_of_scanString hs
    · split at h
      · simp only [scanNumber, Option.ite_none_right_eq_some, Option.some.injEq,
          Prod.mk.injEq] at h
        obtain ⟨_, _, rfl⟩ := h
        exact hdrop _
      · simp only [scanWord, Option.map_eq_some_iff, Prod.mk.injEq] at h
        obtain ⟨_, _, _, rfl⟩ := h
        exact hdrop _

/-- The tokens of a text. -/
def tokenize (text : List Char) : Option (List Token) :=
  match text with
  | [] => some []
  | c :: rest =>
    if isBlank c then tokenize rest
    else
      match h : scan c rest with
      | none => none
      | some (t, rest') =>
        have := length_of_scan h
        (tokenize rest').map (t :: ·)
termination_by text.length

end Json

end ContextFree
