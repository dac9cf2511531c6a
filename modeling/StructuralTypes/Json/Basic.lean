import StructuralTypes.Number.Binary64

namespace StructuralTypes

namespace Json

/-- A number of a document. Integers have a sign only where they need one, and floating-point
numbers are finite. -/
inductive Number
  | natural (n : UInt64)
  | negative (n : Int64) (h : n.toInt < 0)
  | float (x : Float) (h : x.isFinite)

namespace Number

def ofInt? (n : Int) : Option Number :=
  if hn : 0 ≤ n ∧ n.toNat < UInt64.size then some (.natural (.ofNatLT n.toNat hn.2))
  else if hn : n < 0 ∧ Int64.minValue.toInt ≤ n then
    have hle : n ≤ Int64.maxValue.toInt := Int.le_trans (Int.le_of_lt hn.1) (by decide)
    some (.negative (.ofIntLE n hn.2 hle) (Int64.toInt_ofIntLE ▸ hn.1))
  else none

/-- The number as an integer with a sign, if it is an integer and 64 bits hold it with its sign. -/
def toInt64? : Number → Option Int64
  | .natural n => if n ≤ Int64.maxValue.toUInt64 then some n.toInt64 else none
  | .negative n _ => some n
  | .float _ _ => none

def toUInt64? : Number → Option UInt64
  | .natural n => some n
  | .negative _ _ | .float _ _ => none

def toFloat? : Number → Option Float
  | .natural n => some (Binary64.ofInt n.toNat)
  | .negative n _ => some (Binary64.ofInt n.toInt)
  | .float x _ => some x

/-- The digits put after the number `n` as far as 64 bits hold the result, and how many they do not
hold. -/
def significand (n : Nat) : List Char → Nat × Nat
  | [] => (n, 0)
  | d :: ds =>
    let more := 10 * n + (d.toNat - '0'.toNat)
    if more < UInt64.size then significand more ds else (n, ds.length + 1)

def powerOfTen (n : Nat) : Float :=
  Binary64.nearest false (Nat.pow 10 n) 1

/-- The product of `x` and a power of ten, rounded at every step; `none` if there is no such power
of double precision to multiply with. -/
def scale (x : Float) (exponent : Int) : Option Float :=
  if 0 ≤ exponent ∧ exponent ≤ 308 then some (x * powerOfTen exponent.toNat)
  else if -308 ≤ exponent ∧ exponent < 0 then some (x / powerOfTen (-exponent).toNat)
  else if x == 0 then some x
  else if 0 ≤ exponent then none
  else scale (x / powerOfTen 308) (exponent + 308)
termination_by (-exponent).toNat

/-- The floating-point number of the digits before and after a point and a power of ten. Digits that
64 bits do not hold do not count, and it is not always the nearest one. -/
def ofDigits? (negative : Bool) (whole places : List Char) (power : Int) : Option Number := do
  let (n, dropped) := significand 0 whole
  let (n, skipped) := significand n places
  let size ← scale (Binary64.ofInt n) (power + dropped + skipped - places.length)
  let x := if negative then -size else size
  if h : x.isFinite then return .float x h else none

end Number

end Json

inductive Json
  | null
  | boolean (b : Bool)
  | number (n : Json.Number)
  | string (s : String)
  | array (items : List Json)
  | object (members : List (String × Json))

namespace Json

def quoteChar (c : Char) : String :=
  if c = '\x22' then "\\\""
  else if c = '\\' then "\\\\"
  else if c = '\x08' then "\\b"
  else if c = '\x0c' then "\\f"
  else if c = '\n' then "\\n"
  else if c = '\r' then "\\r"
  else if c = '\t' then "\\t"
  else if c < ' ' then
    "\\u00" ++ String.ofList [Nat.digitChar (c.toNat / 16), Nat.digitChar (c.toNat % 16)]
  else c.toString

def quote (s : String) : String :=
  "\"" ++ String.join (s.toList.map quoteChar) ++ "\""

end Json

end StructuralTypes
