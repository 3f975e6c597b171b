import ContextFree.Json.Token

/-!
# Reading JSON

The tokens of a value are read one by one. What has been read of the arrays and objects around the
current place waits on a stack, so values may be nested to any depth.
-/

namespace ContextFree

namespace Json

/-- An array or an object that is not complete. What it holds so far is in reverse order. -/
inductive Frame where
  | array (done : List Json)
  /-- The member that belongs to `key` is being read. -/
  | object (done : List (List Piece × Json)) (key : List Piece)

/-- What has been read, and what has to come. -/
inductive State where
  /-- A value has to come. -/
  | value (stack : List Frame)
  /-- An array has been opened: its first item or its end has to come. -/
  | firstItem (stack : List Frame)
  /-- An object has been opened: its first key or its end has to come. -/
  | firstKey (stack : List Frame)
  /-- A key has to come after a comma. -/
  | nextKey (stack : List Frame) (done : List (List Piece × Json))
  /-- The colon after a key has to come. -/
  | colon (stack : List Frame) (done : List (List Piece × Json)) (key : List Piece)
  /-- A value has been read. -/
  | done (stack : List Frame) (v : Json)

/-- Reads the first token of a value. -/
def begin (stack : List Frame) : Token → Option State
  | .null => some (.done stack .null)
  | .bool b => some (.done stack (.bool b))
  | .number literal => some (.done stack (.number literal))
  | .string pieces => some (.done stack (.string pieces))
  | .openBracket => some (.firstItem stack)
  | .openBrace => some (.firstKey stack)
  | _ => none

/-- Reads the token after a value. -/
def resume (v : Json) : List Frame → Token → Option State
  | .array done :: stack, .comma => some (.value (.array (v :: done) :: stack))
  | .array done :: stack, .closeBracket => some (.done stack (.array (v :: done).reverse))
  | .object done key :: stack, .comma => some (.nextKey stack ((key, v) :: done))
  | .object done key :: stack, .closeBrace =>
    some (.done stack (.object ((key, v) :: done).reverse))
  | _, _ => none

/-- Reads a token. -/
def step : State → Token → Option State
  | .value stack, t => begin stack t
  | .firstItem stack, .closeBracket => some (.done stack (.array []))
  | .firstItem stack, t => begin (.array [] :: stack) t
  | .firstKey stack, .closeBrace => some (.done stack (.object []))
  | .firstKey stack, .string key => some (.colon stack [] key)
  | .nextKey stack done, .string key => some (.colon stack done key)
  | .colon stack done key, .colon => some (.value (.object done key :: stack))
  | .done stack v, t => resume v stack t
  | _, _ => none

/-- The value that has been read, if it is complete. -/
def State.result? : State → Option Json
  | .done [] v => some v
  | _ => none

/-- The value that the tokens spell. -/
def ofTokens? (tokens : List Token) : Option Json :=
  (tokens.foldlM step (.value [])).bind State.result?

/-- The value that a text spells. -/
def parse? (text : String) : Option Json :=
  (tokenize text.toList).bind ofTokens?

end Json

end ContextFree
