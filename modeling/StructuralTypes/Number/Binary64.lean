namespace StructuralTypes.Binary64

/-- The finite number `± mantissa * 2 ^ exponent`, or one of the others. -/
inductive Parts
  | nan
  | infinite (negative : Bool)
  | finite (negative : Bool) (mantissa : Nat) (exponent : Int)

def parts (x : Float) : Parts :=
  let bits := x.toBits.toNat
  let negative := bits >>> 63 == 1
  let field : Nat := bits >>> 52 % 2048
  let fraction := bits % 1 <<< 52
  if field = 2047 then if fraction = 0 then .infinite negative else .nan
  else if field = 0 then .finite negative fraction (-1074)
  else .finite negative (fraction + 1 <<< 52) (field - 1075)

/-- The integer nearest to `num / den`; of two equally near ones the even one. -/
def roundDiv (num den : Nat) : Nat :=
  let q := num / den
  let r := num % den
  if 2 * r < den ∨ (2 * r = den ∧ q % 2 = 0) then q else q + 1

/-- The greatest `e` with `2 ^ e ≤ num / den`, for positive `num` and `den`. -/
def logRatio (num den : Nat) : Int :=
  let e : Int := num.log2 - den.log2
  if den <<< e.toNat ≤ num <<< (-e).toNat then e else e - 1

/-- The bits of the number nearest to `num / den`; from half a step above the last one, infinity. -/
def nearestBits (num den : Nat) : Nat :=
  if num = 0 then 0
  else
    let exponent := max (logRatio num den - 52) (-1074)
    let mantissa := roundDiv (num <<< (-exponent).toNat) (den <<< exponent.toNat)
    min ((exponent + 1074).toNat <<< 52 + mantissa) (2047 <<< 52)

def nearest (negative : Bool) (num den : Nat) : Float :=
  Float.ofBits (UInt64.ofNat (nearestBits num den + if negative then 1 <<< 63 else 0))

def ofInt (n : Int) : Float :=
  nearest (n < 0) n.natAbs 1

end StructuralTypes.Binary64
