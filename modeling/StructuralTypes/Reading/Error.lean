import StructuralTypes.TypeExpr.Basic

namespace StructuralTypes

inductive Side
  | left
  | right
deriving DecidableEq

inductive ReadError
  | emptyType
  | expectedWord (rest : String)
  | expectedDigits (rest : String)
  | expectedChar (expected : Char) (rest : String)
  | unclosedText (quote : Char) (rest : String)
  | unclosedObject (rest : String)
  | unmatchedClose
  | unmatchedOpen
  | missingOperand (op : Connective) (side : Side)
  | incompleteLogic
  | trailing (rest : String)
  | unknownChar (found : Char) (rest : String)
  | inexactNumber (literal : String)
  | repeatedField (name : String)
  | tooDeep (limit : Nat)
  | tooManyAlternatives (limit : Nat)
deriving DecidableEq

namespace ReadError

def rest? : ReadError → Option String
  | .expectedWord rest | .expectedDigits rest | .expectedChar _ rest | .unclosedText _ rest
  | .unclosedObject rest | .trailing rest | .unknownChar _ rest => some rest
  | _ => none

def excerpt (rest : String) : String :=
  match rest.toList with
  | [] => "end of input"
  | cs => "'" ++ String.ofList (cs.take 24) ++ (if cs.length ≤ 24 then "'" else "...'")

def message : ReadError → String
  | .emptyType => "empty type"
  | .expectedWord rest => "expected word, found " ++ excerpt rest
  | .expectedDigits rest => "expected digits, found " ++ excerpt rest
  | .expectedChar c rest => "expected '" ++ c.toString ++ "', found " ++ excerpt rest
  | .unclosedText quote rest =>
    "unterminated string, missing closing " ++ quote.toString ++ " in " ++ excerpt rest
  | .unclosedObject rest => "unterminated object type, missing '\x7d' for " ++ excerpt rest
  | .unmatchedClose => "')' without matching '('"
  | .unmatchedOpen => "'(' without matching ')'"
  | .missingOperand op .left => "missing left-hand operand for '" ++ op.symbol ++ "'"
  | .missingOperand op .right => "missing right-hand operand for '" ++ op.symbol ++ "'"
  | .incompleteLogic => "incomplete logic expression"
  | .trailing rest => "unexpected trailing input " ++ excerpt rest
  | .unknownChar found rest =>
    "unrecognized character '" ++ found.toString ++ "' at " ++ excerpt rest
  | .inexactNumber literal => "invalid number literal '" ++ literal ++ "'"
  | .repeatedField name => "duplicate field '" ++ name ++ "' in object type"
  | .tooDeep limit => "type is nested deeper than " ++ toString limit ++ " levels"
  | .tooManyAlternatives limit => "type expands to more than " ++ toString limit ++ " alternatives"

end ReadError

end StructuralTypes
