import ContextFree.Json.Value

/-!
# Records as JSON

A record has fields in a given order. It is spelled as an array of exactly its fields, or as an
object with a member for each field: there the order is free and members of other names are passed
over, but no field may be missing or given twice.
-/

namespace ContextFree

namespace Json

/-- The object with the given members. -/
def ofMembers (members : List (String × Json)) : Json :=
  .object (members.map fun m => (Piece.ofText m.1, m.2))

/-- The members of an object by the texts of their keys. -/
def decodeKeys (members : List (List Piece × Json)) : Option (List (List Char × Json)) :=
  members.mapM fun m => (Piece.text? m.1).map (·, m.2)

/-- The one member of a given name. -/
def only? (members : List (List Char × Json)) (key : String) : Option Json :=
  match members.filter (·.1 == key.toList) with
  | [m] => some m.2
  | _ => none

/-- The fields of a record, in the order of their names. -/
def fields? (names : List String) : Json → Option (List Json)
  | .array items => if items.length = names.length then some items else none
  | .object members => (decodeKeys members).bind fun members => names.mapM (only? members)
  | _ => none

end Json

end ContextFree
