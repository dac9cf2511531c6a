import StructuralTypes.Json.Basic
import StructuralTypes.Number.Shortest
import StructuralTypes.Time.Instant

namespace StructuralTypes

/-- The names in an object are distinct, and their order means nothing. -/
inductive Value
  | null
  | boolean (b : Bool)
  | integer (n : Int)
  | float (x : Float)
  | string (s : String)
  | date (t : Instant)
  | array (items : List Value)
  | object (entries : List (String × Value))

namespace Value

mutual

def beq : Value → Value → Bool
  | .null, .null => true
  | .boolean b, .boolean c => b == c
  | .integer m, .integer n => m == n
  | .float x, .float y => x == y
  | .string s, .string t => s == t
  | .date t, .date u => t == u
  | .array vs, .array ws => beqItems vs ws
  | .object es, .object fs => es.length == fs.length && beqEntries es fs
  | _, _ => false

def beqItems : List Value → List Value → Bool
  | [], [] => true
  | v :: vs, w :: ws => beq v w && beqItems vs ws
  | _, _ => false

/-- Whether each of the entries is found among the others, with an equal value. -/
def beqEntries : List (String × Value) → List (String × Value) → Bool
  | [], _ => true
  | (name, v) :: es, fs =>
    (match fs.lookup name with
      | some w => beq v w
      | none => false) && beqEntries es fs

end

instance : BEq Value := ⟨beq⟩

def kind : Value → String
  | .null => "null"
  | .boolean _ => "boolean"
  | .integer _ | .float _ => "number"
  | .string _ => "string"
  | .date _ => "Date"
  | .array _ => "array"
  | .object _ => "object"

/-- A value as messages show it; arrays and objects only by their size. -/
def describe : Value → String
  | .null => "null"
  | .boolean b => if b then "true" else "false"
  | .integer n => toString n
  | .float x => Binary64.text x
  | .string s => Json.quote s
  | .date t => t.text
  | .array items => "array of " ++ toString items.length ++ " element(s)"
  | .object entries => "object with " ++ toString entries.length ++ " key(s)"

def toFloat? : Value → Option Float
  | .integer n => some (Binary64.ofInt n)
  | .float x => some x
  | _ => none

end Value

end StructuralTypes
