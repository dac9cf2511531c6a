namespace StructuralTypes

/-- The number `coefficient / 10 ^ scale`, written with `scale` decimal places: `1.50` and `1.5` are
printed apart, but are the same number. -/
structure Decimal where
  coefficient : Int
  scale : Nat
  coefficient_lt : coefficient.natAbs < 1 <<< 96
  scale_le : scale ≤ 28
deriving DecidableEq

namespace Decimal

/-- The decimal with these digits before and after the point, if it is exact. -/
def ofDigits (whole fraction : List Char) : Option Decimal :=
  let value := Nat.ofDigitChars 10 (whole ++ fraction) 0
  if h : value < 1 <<< 96 ∧ fraction.length ≤ 28 then
    some ⟨value, fraction.length, by simpa using h.1, h.2⟩
  else none

def unit (d : Decimal) : Nat :=
  Nat.pow 10 d.scale

def same (d e : Decimal) : Bool :=
  d.coefficient * e.unit == e.coefficient * d.unit

def ofInt? (n : Int) : Option Decimal :=
  if h : n.natAbs < 1 <<< 96 then some ⟨n, 0, h, Nat.zero_le 28⟩ else none

/-- Whether the decimal is the integer `n`, where `ofInt?` gives it as a decimal if it can. -/
def isIntBy (ofInt? : Int → Option Decimal) (same : Decimal → Decimal → Bool) (d : Decimal)
    (n : Int) : Bool :=
  match ofInt? n with
  | some e => same e d
  | none => false

def isInt : Decimal → Int → Bool :=
  isIntBy ofInt? same

def digits (d : Decimal) : List Char :=
  let shown := Nat.toDigits 10 d.coefficient.natAbs
  List.replicate (d.scale + 1 - shown.length) '0' ++ shown

def text (d : Decimal) : String :=
  let whole := d.digits.take (d.digits.length - d.scale)
  let fraction := d.digits.drop (d.digits.length - d.scale)
  (if d.coefficient < 0 then "-" else "") ++ String.ofList whole ++
    (if fraction.isEmpty then "" else "." ++ String.ofList fraction)

end Decimal

end StructuralTypes
