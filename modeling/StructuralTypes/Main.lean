import StructuralTypes.Command.Run

namespace StructuralTypes.Command

def pipedInput : IO (Option String) := do
  let stdin ← IO.getStdin
  if ← stdin.isTty then return none
  return some (← stdin.readToEnd)

def Outcome.report (outcome : Outcome) : IO UInt32 := do
  IO.print outcome.output
  IO.eprint outcome.errors
  return outcome.exitCode.toUInt32

end StructuralTypes.Command

open StructuralTypes.Command in
def main (args : List String) : IO UInt32 := do
  match Invocation.ofArguments? args with
  | none => usage.report
  | some invocation =>
    let piped ← if invocation.needsInput then pipedInput else pure none
    (invocation.run piped).report
