import StructuralTypes.Check.Leaf
import StructuralTypes.Reading.Expression

namespace StructuralTypes

namespace Verdict

def failures : Verdict → Option Failures
  | .ok _ => none
  | .error e => some ⟨e, []⟩

def items (check : Value → Verdict) (index : Nat) : List Value → Verdict
  | [] => .ok ()
  | v :: vs => do
    (check v).mapError (.atIndex index)
    items check (index + 1) vs

def least? : List String → Option String
  | [] => none
  | name :: names => some (names.foldl (fun s t => if t < s then t else s) name)

/-- Refuses the least of the names that no field declares. -/
def closed (fields : List (Field TypeExpr)) (entries : List (String × Value)) : Verdict :=
  match least? ((entries.map Prod.fst).filter fun name => !fields.any (·.name == name)) with
  | some name => .error (.extraField name)
  | none => .ok ()

end Verdict

namespace TypeExpr

/-- The verdict on an expression whose alternatives fail like this, or of which one matches. -/
def verdict (t : TypeExpr) : Option Failures → Verdict
  | none => .ok ()
  | some failures =>
    match t with
    | .or .. => .error (.noAlternative (t.text .compact) failures.toList)
    | _ => .error failures.first

def wrongKind (t : TypeExpr) (v : Value) : Verdict :=
  .error (.wrongKind (t.text .compact) v.kind)

mutual

/-- What is wrong with every alternative of an expression; nothing if one of them matches. -/
def failures (o : Options) : TypeExpr → Value → Option Failures
  | .leaf l, v => (l.check o v).failures
  | .object fields, v =>
    match v with
    | .object entries => Verdict.failures do
      checkFields o fields entries
      Verdict.closed fields entries
    | v => (wrongKind (.object fields) v).failures
  | .array item, v =>
    match v with
    | .array items => (Verdict.items (fun v => item.verdict (failures o item v)) 0 items).failures
    | v => (wrongKind (.array item) v).failures
  | .and l r, v => Verdict.failures do
    l.verdict (failures o l v)
    r.verdict (failures o r v)
  | .or l r, v => do return (← failures o l v) ++ (← failures o r v)
  | .group content, v => (content.verdict (failures o content v)).failures

def checkFields (o : Options) : List (Field TypeExpr) → List (String × Value) → Verdict
  | [], _ => .ok ()
  | f :: fs, entries => do
    match entries.lookup f.name with
    | some v => (f.type.verdict (failures o f.type v)).mapError (.inField f.name)
    | none => if f.optional then .ok () else .error (.missingField f.name)
    checkFields o fs entries

end

def check (o : Options) (t : TypeExpr) (v : Value) : Verdict :=
  t.verdict (t.failures o v)

end TypeExpr

inductive CheckError
  | read (e : ReadError)
  | mismatch (m : Mismatch)

namespace CheckError

def message : CheckError → String
  | .read e => "invalid type: " ++ e.message
  | .mismatch m => "value does not match: " ++ m.message

end CheckError

def checkText (o : Options) (text : String) (v : Value) : Except CheckError Unit := do
  let t ← (TypeExpr.compile text).mapError .read
  (t.check o v).mapError .mismatch

end StructuralTypes
