import StructuralTypes.Number.Binary64

namespace StructuralTypes.Binary64

/--
Of the multiples of `10 ^ place` that round to `mantissa * 2 ^ exponent`, how many times
`10 ^ place` the nearest one is; of two equally near ones it is the greater. Half of the distance to
the neighbours is the bound; it belongs to the numbers with an even mantissa. Below a power of two
the neighbour is half as far.
-/
def onGrid? (mantissa : Nat) (exponent : Int) (place : Int) : Option Nat :=
  -- in quarters of the unit of the mantissa
  let below := if mantissa = 1 <<< 52 ∧ -1074 < exponent then 1 else 2
  let quarter := Nat.pow 10 (-place).toNat <<< (exponent - 2).toNat
  let step := Nat.pow 10 place.toNat <<< (2 - exponent).toNat
  let value := 4 * mantissa * quarter
  let inside (x : Nat) : Bool :=
    let low := (4 * mantissa - below) * quarter
    let high := (4 * mantissa + 2) * quarter
    (low < x && x < high) || (mantissa % 2 = 0 && (x = low || x = high))
  let down := value / step
  let up := down + 1
  if down ≠ 0 ∧ inside (down * step) then
    if inside (up * step) ∧ up * step - value ≤ value - down * step then some up else some down
  else if inside (up * step) then some up
  else none

/-- The shortest decimal that rounds to a positive number, as an integer and a power of ten. -/
def shortest (mantissa : Nat) (exponent : Int) : Nat × Int :=
  let size := mantissa.log2 + 1 + exponent
  -- a place above the first digit: 0.30102 < log₁₀ 2 < 0.30103
  let top := if 0 ≤ size then size * 30103 / 100000 + 1 else size * 30102 / 100000 + 1
  let places : List Int := (List.range 24).map fun (k : Nat) => top - k
  let found := places.findSome? fun place => (onGrid? mantissa exponent place).map (·, place)
  match found with
  | some (n, place) => if n % 10 = 0 then (n / 10, place + 1) else (n, place)
  | none => (0, 0)

def positional (n : Nat) (place : Int) : String :=
  let shown := Nat.toDigits 10 n
  if 0 ≤ place then String.ofList (shown ++ List.replicate place.toNat '0')
  else
    let places := (-place).toNat
    let padded := List.replicate (places + 1 - shown.length) '0' ++ shown
    String.ofList (padded.take (padded.length - places)) ++ "." ++
      String.ofList (padded.drop (padded.length - places))

def text (x : Float) : String :=
  match parts x with
  | .nan => "NaN"
  | .infinite negative => if negative then "-inf" else "inf"
  | .finite negative mantissa exponent =>
    let size := if mantissa = 0 then "0" else
      let (n, place) := shortest mantissa exponent
      positional n place
    (if negative then "-" else "") ++ size

end StructuralTypes.Binary64
