import StructuralTypes.Check.Verdict
import StructuralTypes.Command.Arguments
import StructuralTypes.Json.Reader
import StructuralTypes.Manual
import StructuralTypes.Value.OfJson

namespace StructuralTypes.Command

inductive Failure
  | read (e : ReadError)
  | mismatch (m : Mismatch)
  | badJson
  | noInput
  | unknownTopic (name : String)

def Failure.message : Failure → String
  | .read e => "Parse error: " ++ e.message
  | .mismatch m => "Validation failed: " ++ m.message
  | .badJson => "Invalid JSON: "
  | .noInput => "No input provided. Use --input or pipe JSON to stdin."
  | .unknownTopic name =>
    "Unknown category: '" ++ name ++ "'\nRun 'shape docs' to see available categories."

inductive Finding
  | matched
  | normalForm (text : String)

def Finding.text : Finding → String
  | .matched => "valid"
  | .normalForm text => text

def Request.run (r : Request) : Except Failure Finding := do
  let t ← (TypeExpr.compile r.type).mapError .read
  if r.syntaxOnly then return .normalForm (t.text (if r.pretty then .pretty else .compact))
  let some input := r.input | throw .noInput
  let some json := Json.ofText? input | throw .badJson
  let v := Value.ofJson Instant.ofText? r.parseDates json
  (t.check ⟨r.casualBoolean⟩ v).mapError .mismatch
  return .matched

def topicPage (name : String) : Except Failure String :=
  match Manual.Topic.ofName? name with
  | some topic => .ok topic.text
  | none => .error (.unknownTopic name)

structure Outcome where
  exitCode : Nat
  output : String
  errors : String

def Outcome.ofResult : Except Failure String → Outcome
  | .ok output => ⟨0, output, ""⟩
  | .error e => ⟨1, "", e.message ++ "\n"⟩

def Invocation.needsInput : Invocation → Bool
  | .check r => r.input.isNone && !r.syntaxOnly
  | _ => false

def Invocation.run (piped : Option String) : Invocation → Outcome
  | .check r => .ofResult do
    let finding ← { r with input := r.input <|> piped }.run
    return finding.text ++ "\n"
  | .overview => .ofResult (.ok Manual.overview)
  | .topic name => .ofResult (topicPage name)
  | .tutorial => .ofResult (.ok Manual.tutorial)
  | .version => .ofResult (.ok "shape 0.2.0\n")

def usage : Outcome :=
  ⟨2, "", "usage: shape (check TYPE [OPTIONS] | docs | doc TOPIC | onboard)\n"⟩

end StructuralTypes.Command
