import StructuralTypes.Check.Mismatch
import StructuralTypes.TypeExpr.Layout
import StructuralTypes.Value.Basic

namespace StructuralTypes

structure Options where
  /-- The numbers 0 and 1 also count as `false` and `true`. -/
  casualBoolean : Bool

abbrev Verdict := Except Mismatch Unit

namespace Decimal

/--
The double precision number that stands for a decimal: its whole part and its fraction are converted
apart, and their sum is rounded to the places of the decimal.
-/
def toFloat (d : Decimal) : Float :=
  let size := d.coefficient.natAbs
  let whole := Binary64.nearest false (size / d.unit) 1
  let scale := Binary64.nearest false d.unit 1
  let part := Binary64.nearest false (size % d.unit) 1 / scale
  let sum := if size % d.unit = 0 then whole else ((whole + part) * scale).round / scale
  if d.coefficient < 0 then -sum else sum

/-- Whether a value is the number: an integer exactly, a floating-point number after conversion. -/
def isValue (d : Decimal) : Value → Bool
  | .integer n => d.isInt n
  | .float x => d.toFloat == x
  | _ => false

end Decimal

namespace Value

def truth? (o : Options) : Value → Option Bool
  | .boolean b => some b
  | v =>
    if o.casualBoolean then do
      let x ← v.toFloat?
      if x == 0 then some false else if x == 1 then some true else none
    else none

end Value

namespace Leaf

def accepts (o : Options) : Leaf → Value → Bool
  | .string, .string _ => .true
  | .number, .integer _ | .number, .float _ => .true
  | .date, .date _ => .true
  | .null, .null => .true
  | .boolean, v => (v.truth? o).isSome
  | .true, v => v.truth? o == some .true
  | .false, v => v.truth? o == some .false
  | .text s, .string t | .word s, .string t => s == t
  | .numeral d, v => d.isValue v
  | _, _ => .false

def isKind : Leaf → Bool
  | .string | .number | .boolean | .date => .true
  | _ => .false

def check (o : Options) (l : Leaf) (v : Value) : Verdict :=
  if l.accepts o v then .ok ()
  else if l.isKind then .error (.wrongKind l.render v.kind)
  else .error (.wrongValue l.render v.describe)

end Leaf

end StructuralTypes
