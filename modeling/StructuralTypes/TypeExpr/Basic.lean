import StructuralTypes.Number.Decimal

namespace StructuralTypes

inductive Leaf
  | string
  | number
  | boolean
  | date
  | true
  | false
  | null
  | text (value : String)
  | numeral (value : Decimal)
  | word (name : String)

structure Field (α : Type) where
  name : String
  optional : Bool
  type : α

/-- A type expression; `group` is a pair of parentheses. -/
inductive TypeExpr
  | leaf (l : Leaf)
  | object (fields : List (Field TypeExpr))
  | array (item : TypeExpr)
  | and (left right : TypeExpr)
  | or (left right : TypeExpr)
  | group (content : TypeExpr)

inductive Connective
  | and
  | or
deriving DecidableEq

namespace Connective

def symbol : Connective → String
  | .and => "&"
  | .or => "|"

def join : Connective → TypeExpr → TypeExpr → TypeExpr
  | .and => .and
  | .or => .or

@[simp]
theorem join_and : join .and = .and := rfl

@[simp]
theorem join_or : join .or = .or := rfl

end Connective

namespace Leaf

/-- The leaf a word stands for: a keyword, or the string spelled like it. -/
def ofWord : String → Leaf
  | "string" => .string
  | "number" => .number
  | "boolean" => .boolean
  | "Date" => .date
  | "true" => .true
  | "false" => .false
  | "null" => .null
  | name => .word name

def beq : Leaf → Leaf → Bool
  | .string, .string | .number, .number | .boolean, .boolean | .date, .date => .true
  | .true, .true | .false, .false | .null, .null => .true
  | .text s, .text t => s == t
  | .numeral d, .numeral e => d.same e
  | .word s, .word t => s == t
  | _, _ => .false

instance : BEq Leaf := ⟨beq⟩

end Leaf

namespace TypeExpr

mutual

def beq : TypeExpr → TypeExpr → Bool
  | .leaf k, .leaf l => k == l
  | .object fs, .object gs => beqFields fs gs
  | .array t, .array u => beq t u
  | .and l r, .and l' r' => beq l l' && beq r r'
  | .or l r, .or l' r' => beq l l' && beq r r'
  | .group t, .group u => beq t u
  | _, _ => false

def beqFields : List (Field TypeExpr) → List (Field TypeExpr) → Bool
  | [], [] => true
  | f :: fs, g :: gs =>
    f.name == g.name && f.optional == g.optional && beq f.type g.type && beqFields fs gs
  | _, _ => false

end

instance : BEq TypeExpr := ⟨beq⟩

def ungrouped : TypeExpr → TypeExpr
  | .group t => t.ungrouped
  | t => t

/-- The fields of an object, seen through parentheses. -/
def fields? (t : TypeExpr) : Option (List (Field TypeExpr)) :=
  match t.ungrouped with
  | .object fields => some fields
  | _ => none

def union? (t : TypeExpr) : Option (TypeExpr × TypeExpr) :=
  match t.ungrouped with
  | .or l r => some (l, r)
  | _ => none

/-- The alternatives of a union, from left to right, seen through parentheses. -/
def alternatives : TypeExpr → List TypeExpr
  | .or l r => l.alternatives ++ r.alternatives
  | .group t => if t.union?.isSome then t.alternatives else [.group t]
  | t => [t]

end TypeExpr

end StructuralTypes
