/-!
# JSON values

A string is kept as the pieces that it was spelled with, since an escape may name one half of a
surrogate pair and leave the other out. `Piece.text?` joins the halves and refuses one that is left
alone. A number is kept as it was spelled.
-/

namespace ContextFree

namespace Json

/-- What one character or one escape of a string stands for. -/
inductive Piece where
  | char (c : Char)
  /-- A half of a surrogate pair, which only an escape can name. -/
  | half (unit : Nat)
deriving DecidableEq, Repr

end Json

/-- A JSON value. -/
inductive Json where
  | null
  | bool (b : Bool)
  | number (literal : List Char)
  | string (pieces : List Json.Piece)
  | array (items : List Json)
  | object (members : List (List Json.Piece × Json))
deriving Repr

namespace Json

namespace Piece

/-- What a 16-bit unit stands for. -/
def ofUnit (unit : Nat) : Piece :=
  if 0xD800 ≤ unit ∧ unit < 0xE000 then half unit else char (Char.ofNat unit)

/-- The character of a surrogate pair. -/
def join (high low : Nat) : Char :=
  Char.ofNat (0x10000 + (high - 0xD800) * 0x400 + (low - 0xDC00))

/-- The text of a string, unless half of a surrogate pair is left alone. -/
def text? : List Piece → Option (List Char)
  | [] => some []
  | char c :: rest => (text? rest).map (c :: ·)
  | half high :: half low :: rest =>
    if high < 0xDC00 ∧ 0xDC00 ≤ low then (text? rest).map (join high low :: ·) else none
  | half _ :: _ => none

/-- The pieces of a text. -/
def ofText (text : String) : List Piece :=
  text.toList.map char

theorem text?_map_char (cs : List Char) : text? (cs.map char) = some cs := by
  induction cs with
  | nil => rfl
  | cons c cs ih => simp [text?, ih]

@[simp]
theorem text?_ofText (text : String) : text? (ofText text) = some text.toList :=
  text?_map_char text.toList

end Piece

end Json

end ContextFree
