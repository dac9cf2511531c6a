import StructuralTypes.Reading.Error

namespace StructuralTypes

inductive Term
  | operand (t : TypeExpr)
  | connective (op : Connective)
  | openGroup
  | closeGroup

namespace Term

def endsOperand : Term → Bool
  | .operand _ | .closeGroup => true
  | _ => false

/-- How many parentheses are open after the term, if `n` are open before it. -/
def openAfter (n : Nat) : Term → Nat
  | .openGroup => n + 1
  | .closeGroup => n - 1
  | _ => n

/-- Joins the operands beside each `op`, from the left; `done` holds the terms so far, last
first. -/
def joinAll (op : Connective) (done : List Term) : List Term → Except ReadError (List Term)
  | [] => .ok done.reverse
  | .connective found :: rest =>
    if found = op then
      match done, rest with
      | .operand l :: done, .operand r :: rest =>
        joinAll op (.operand (op.join l r) :: done) rest
      | .operand _ :: _, _ => .error (.missingOperand op .right)
      | _, _ => .error (.missingOperand op .left)
    else joinAll op (.connective found :: done) rest
  | t :: rest => joinAll op (t :: done) rest

def reduce (terms : List Term) : Except ReadError TypeExpr := do
  match ← joinAll .or [] (← joinAll .and [] terms) with
  | [.operand t] => return t
  | _ => throw .incompleteLogic

/--
Puts one operand in the place of every pair of parentheses. `done` holds the terms since the
innermost open parenthesis, last first, and `outer` those before each open one.
-/
def resolveGroups (outer : List (List Term)) (done : List Term) :
    List Term → Except ReadError (List Term)
  | [] => if outer.isEmpty then .ok done.reverse else .error .unmatchedOpen
  | .openGroup :: rest => resolveGroups (done :: outer) [] rest
  | .closeGroup :: rest =>
    match outer with
    | [] => .error .unmatchedClose
    | before :: outer => do
      let content ← reduce done.reverse
      resolveGroups outer (.operand (.group content) :: before) rest
  | t :: rest => resolveGroups outer (t :: done) rest

def grouped (terms : List Term) : Except ReadError (List Term) :=
  resolveGroups [] [] terms

def resolve (terms : List Term) : Except ReadError TypeExpr := do
  reduce (← grouped terms)

end Term

end StructuralTypes
