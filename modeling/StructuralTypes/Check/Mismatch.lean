namespace StructuralTypes

inductive Mismatch
  | wrongKind (expected found : String)
  | wrongValue (expected found : String)
  | missingField (name : String)
  | extraField (name : String)
  | inField (name : String) (cause : Mismatch)
  | atIndex (index : Nat) (cause : Mismatch)
  | noAlternative (expected : String) (causes : List Mismatch)

namespace Mismatch

mutual

def message : Mismatch → String
  | .wrongKind expected found => "expected " ++ expected ++ ", got " ++ found
  | .wrongValue expected found => "expected value " ++ expected ++ ", got " ++ found
  | .missingField name => "missing required field '" ++ name ++ "'"
  | .extraField name => "unexpected extra field '" ++ name ++ "'"
  | .inField name cause => "in field '" ++ name ++ "': " ++ cause.message
  | .atIndex index cause => "at index " ++ toString index ++ ": " ++ cause.message
  | .noAlternative expected causes =>
    "no branch of " ++ expected ++ " matched: " ++ " | ".intercalate (messages causes)

def messages : List Mismatch → List String
  | [] => []
  | m :: ms => ("(" ++ m.message ++ ")") :: messages ms

end

end Mismatch

/-- What is wrong with each alternative of a type, in order. -/
structure Failures where
  first : Mismatch
  others : List Mismatch

namespace Failures

def toList (f : Failures) : List Mismatch :=
  f.first :: f.others

instance : Append Failures := ⟨fun f g => ⟨f.first, f.others ++ g.toList⟩⟩

end Failures

end StructuralTypes
