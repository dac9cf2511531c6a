import StructuralTypes.Json.Token

namespace StructuralTypes.Json

def maxNesting : Nat := 127

/--
An array or object that is being read: what it holds so far, last first, and for an object the name
of the member that comes next.
-/
inductive Open
  | array (items : List Json)
  | object (members : List (String × Json)) (name : String)

/-- The members with one more, which takes the place of a member of its name. -/
def addMember (members : List (String × Json)) (name : String) (v : Json) :
    List (String × Json) :=
  (name, v) :: members.filter (·.1 ≠ name)

mutual

/-- Reads a value inside the given arrays and objects, innermost first, and all that follows. -/
def value (outer : List Open) : List Token → Option Json
  | .scalar v :: rest => following outer v rest
  | .openArray :: rest =>
    if outer.length < maxNesting then
      match rest with
      | .closeArray :: rest => following outer (.array []) rest
      | rest => value (.array [] :: outer) rest
    else none
  | .openObject :: rest =>
    if outer.length < maxNesting then
      match rest with
      | .closeObject :: rest => following outer (.object []) rest
      | .scalar (.string name) :: .colon :: rest => value (.object [] name :: outer) rest
      | _ => none
    else none
  | _ => none

def following (outer : List Open) (v : Json) : List Token → Option Json
  | [] => if outer.isEmpty then some v else none
  | .comma :: rest =>
    match outer with
    | .array items :: outer => value (.array (v :: items) :: outer) rest
    | .object members name :: outer =>
      match rest with
      | .scalar (.string next) :: .colon :: rest =>
        value (.object (addMember members name v) next :: outer) rest
      | _ => none
    | [] => none
  | .closeArray :: rest =>
    match outer with
    | .array items :: outer => following outer (.array (v :: items).reverse) rest
    | _ => none
  | .closeObject :: rest =>
    match outer with
    | .object members name :: outer =>
      following outer (.object (addMember members name v).reverse) rest
    | _ => none
  | _ => none

end

def ofText? (text : String) : Option Json := do
  value [] (← Token.all [] text.toList)

end StructuralTypes.Json
