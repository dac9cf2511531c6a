import StructuralTypes.Reading.Error
import StructuralTypes.TypeExpr.Chain

namespace StructuralTypes

/-- The most levels of nesting in a type expression that is normalized. -/
def maxLevels : Nat := 256

/-- The most intersections of alternatives that normalizing one expression makes. -/
def maxAlternatives : Nat := 4096

abbrev Distributing := StateT Nat (Except ReadError)

namespace TypeExpr

def spend (n : Nat) : Distributing Unit := do
  let made ← get
  if made + n ≤ maxAlternatives then set (made + n)
  else throw (.tooManyAlternatives maxAlternatives)

def descend : Nat → Distributing Nat
  | 0 => throw (.tooDeep maxLevels)
  | n + 1 => return n

def unionOf : List TypeExpr → Option TypeExpr
  | [] => none
  | t :: ts => some (ts.foldl .or t)

/-- Intersects every alternative of `l` with every alternative of `r`, in this order. -/
def distribute (meet : TypeExpr → TypeExpr → Distributing TypeExpr) (l r : TypeExpr) :
    Distributing TypeExpr :=
  match l.alternatives, r.alternatives with
  | [_], [_] => meet l r
  | ls, rs => do
    spend (ls.length * rs.length)
    let products ← ls.flatMap (fun a => rs.map (a, ·)) |>.mapM fun (a, b) => meet a b
    return (unionOf products).getD (.and l r)

/-- Intersects two types that are no unions: two objects are merged. -/
def meetAlternatives
    (merge : List (Field TypeExpr) → List (Field TypeExpr) → Distributing (List (Field TypeExpr)))
    (l r : TypeExpr) : Distributing TypeExpr :=
  match l.fields?, r.fields? with
  | some fs, some gs => .object <$> merge fs gs
  | _, _ => return .and l r

/-- Merges the field `g` into the field of its name, or puts it after all others. -/
def mergeField (meet : TypeExpr → TypeExpr → Distributing TypeExpr) (g : Field TypeExpr) :
    List (Field TypeExpr) → Distributing (List (Field TypeExpr))
  | [] => return [g]
  | f :: fs =>
    if f.name = g.name then do
      return ⟨f.name, f.optional && g.optional, ← meet f.type g.type⟩ :: fs
    else return f :: (← mergeField meet g fs)

def mergeFields (meet : TypeExpr → TypeExpr → Distributing TypeExpr)
    (fs gs : List (Field TypeExpr)) : Distributing (List (Field TypeExpr)) :=
  gs.foldlM (fun merged g => mergeField meet g merged) fs

/-- The intersection of two types in normal form, with so many levels left for merged objects. -/
def meet : Nat → TypeExpr → TypeExpr → Distributing TypeExpr
  | 0 => distribute (meetAlternatives fun _ _ => throw (.tooDeep maxLevels))
  | n + 1 => distribute (meetAlternatives (mergeFields (meet n)))

mutual

def normalizeWithin (levels : Nat) : TypeExpr → Distributing TypeExpr
  | .leaf l => return .leaf l
  | .object fields => do return .object (← normalizeFields (← descend levels) fields)
  | .array item => do return .array (← normalizeWithin (← descend levels) item)
  | .and l r => do meet levels (← normalizeWithin levels l) (← normalizeWithin levels r)
  | .or l r => do return .or (← normalizeWithin levels l) (← normalizeWithin levels r)
  | .group content => do return .group (← normalizeWithin (← descend levels) content)

def normalizeFields (levels : Nat) : List (Field TypeExpr) → Distributing (List (Field TypeExpr))
  | [] => return []
  | f :: fs => do
    let type ← normalizeWithin levels f.type
    return { f with type } :: (← normalizeFields levels fs)

end

/-- The normal form of a type expression, seen through parentheses: an intersection with a union
becomes the union of the intersections with its alternatives, and one of two objects becomes one
object, with the intersection of both types for a field that both declare. -/
def normalize (t : TypeExpr) : Except ReadError TypeExpr :=
  (normalizeWithin maxLevels t.regroup).run' 0

end TypeExpr

end StructuralTypes
