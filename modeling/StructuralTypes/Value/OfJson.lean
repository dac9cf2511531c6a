import StructuralTypes.Json.Basic
import StructuralTypes.Value.Basic

namespace StructuralTypes.Value

def ofNumber (n : Json.Number) : Value :=
  match n.toInt64? with
  | some i => .integer i.toInt
  | none =>
    match n.toUInt64? with
    | some u => .integer u.toNat
    | none => n.toFloat?.elim .null .float

mutual

def undated : Json → Value
  | .null => .null
  | .boolean b => .boolean b
  | .number n => ofNumber n
  | .string s => .string s
  | .array items => .array (undatedItems items)
  | .object members => .object (undatedMembers members)

def undatedItems : List Json → List Value
  | [] => []
  | j :: js => undated j :: undatedItems js

def undatedMembers : List (String × Json) → List (String × Value)
  | [] => []
  | (name, j) :: js => (name, undated j) :: undatedMembers js

end

mutual

/-- The value of a document. If dates are wanted, arrays and objects are gone through for strings
that `instant?` reads as timestamps. -/
def ofJson (instant? : String → Option Instant) (dates : Bool) (j : Json) : Value :=
  if !dates then undated j
  else
    match j with
    | .string s =>
      match instant? s with
      | some t => .date t
      | none => .string s
    | .array items => .array (ofItems instant? dates items)
    | .object members => .object (ofMembers instant? dates members)
    | other => undated other

def ofItems (instant? : String → Option Instant) (dates : Bool) : List Json → List Value
  | [] => []
  | j :: js => ofJson instant? dates j :: ofItems instant? dates js

def ofMembers (instant? : String → Option Instant) (dates : Bool) :
    List (String × Json) → List (String × Value)
  | [] => []
  | (name, j) :: js => (name, ofJson instant? dates j) :: ofMembers instant? dates js

end

end StructuralTypes.Value
