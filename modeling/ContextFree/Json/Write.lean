import ContextFree.Json.Token

/-!
# Writing JSON

A value is written without blanks. In a string, a quote, a backslash and the control characters are
escaped, and everything else stands for itself.
-/

namespace ContextFree

namespace Json

/-! ## Tokens as text -/

/-- A 16-bit unit as an escape. -/
def unitEscape (unit : Nat) : List Char :=
  ['\\', 'u', Nat.digitChar (unit / 0x1000 % 16), Nat.digitChar (unit / 0x100 % 16),
    Nat.digitChar (unit / 0x10 % 16), Nat.digitChar (unit % 16)]

/-- A character of a string as text. -/
def escape (c : Char) : List Char :=
  if c = '"' then ['\\', '"']
  else if c = '\\' then ['\\', '\\']
  else if c = '\x08' then ['\\', 'b']
  else if c = '\x0c' then ['\\', 'f']
  else if c = '\n' then ['\\', 'n']
  else if c = '\r' then ['\\', 'r']
  else if c = '\t' then ['\\', 't']
  else if c.toNat < 0x20 then unitEscape c.toNat
  else [c]

/-- A piece of a string as text. -/
def Piece.write : Piece → List Char
  | .char c => escape c
  | .half unit => unitEscape unit

/-- A token as text. -/
def Token.write : Token → List Char
  | .openBracket => ['[']
  | .closeBracket => [']']
  | .openBrace => ['\x7b']
  | .closeBrace => ['\x7d']
  | .comma => [',']
  | .colon => [':']
  | .null => "null".toList
  | .bool true => "true".toList
  | .bool false => "false".toList
  | .number literal => literal
  | .string pieces => '"' :: pieces.flatMap Piece.write ++ ['"']

/-! ## Values as tokens -/

mutual

/-- The tokens of a value. -/
def tokens : Json → List Token
  | .null => [.null]
  | .bool b => [.bool b]
  | .number literal => [.number literal]
  | .string pieces => [.string pieces]
  | .array items => .openBracket :: itemTokens items ++ [.closeBracket]
  | .object members => .openBrace :: memberTokens members ++ [.closeBrace]

/-- The tokens of the items of an array. -/
def itemTokens : List Json → List Token
  | [] => []
  | [v] => tokens v
  | v :: w :: items => tokens v ++ .comma :: itemTokens (w :: items)

/-- The tokens of the members of an object. -/
def memberTokens : List (List Piece × Json) → List Token
  | [] => []
  | [(key, v)] => .string key :: .colon :: tokens v
  | (key, v) :: m :: members =>
    .string key :: .colon :: tokens v ++ .comma :: memberTokens (m :: members)

end

/-- A value as text. -/
def write (v : Json) : String :=
  String.ofList ((tokens v).flatMap Token.write)

end Json

end ContextFree
