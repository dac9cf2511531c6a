import StructuralTypes.Reading.Lexeme

namespace StructuralTypes

inductive Layout
  | compact
  | pretty
deriving DecidableEq

def Layout.gap : Layout → Nat → String
  | .compact, _ => " "
  | .pretty, level => "\n" ++ String.ofList (List.replicate (2 * level) ' ')

def Leaf.render : Leaf → String
  | .string => "string"
  | .number => "number"
  | .boolean => "boolean"
  | .date => "Date"
  | .true => "true"
  | .false => "false"
  | .null => "null"
  | .text value => Quoted.write value
  | .numeral value => value.text
  | .word name => name

namespace TypeExpr

def renderKey (name : String) : String :=
  if name ≠ "" ∧ name.toList.all Lexeme.isKeyChar then name else Quoted.write name

/-- Parentheses around a union, which an operand of `&` needs. -/
def parenthesized (operand : TypeExpr) (shown : String) : String :=
  match operand with
  | .or .. => "(" ++ shown ++ ")"
  | _ => shown

mutual

/-- The text of an expression that stands inside `level` objects. -/
def render (layout : Layout) (level : Nat) : TypeExpr → String
  | .leaf l => l.render
  | .object [] => "\x7b\x7d"
  | .object (f :: fs) =>
    "\x7b" ++ renderField layout (level + 1) f ++ renderFields layout (level + 1) fs ++
      layout.gap level ++ "\x7d"
  | .array item => "Array<" ++ render layout level item ++ ">"
  | .and l r =>
    parenthesized l (render layout level l) ++ " & " ++ parenthesized r (render layout level r)
  | .or l r => render layout level l ++ " | " ++ render layout level r
  | .group content => "(" ++ render layout level content ++ ")"

def renderField (layout : Layout) (level : Nat) : Field TypeExpr → String
  | ⟨name, optional, type⟩ =>
    layout.gap level ++ renderKey name ++ (if optional then "?: " else ": ") ++
      render layout level type

def renderFields (layout : Layout) (level : Nat) : List (Field TypeExpr) → String
  | [] => ""
  | f :: fs => "," ++ renderField layout level f ++ renderFields layout level fs

end

def text (layout : Layout) (t : TypeExpr) : String :=
  t.render layout 0

end TypeExpr

end StructuralTypes
