namespace StructuralTypes.Command

structure Request where
  type : String
  input : Option String
  casualBoolean : Bool
  parseDates : Bool
  syntaxOnly : Bool
  pretty : Bool

inductive Invocation
  | check (r : Request)
  | overview
  | topic (name : String)
  | tutorial
  | version

inductive Switch
  | casualBoolean
  | parseDates
  | syntaxOnly
  | pretty
deriving DecidableEq

inductive Setting
  | type (text : String)
  | input (text : String)
  | switch (s : Switch)

namespace Setting

def type? : Setting → Option String
  | .type text => some text
  | _ => none

def input? : Setting → Option String
  | .input text => some text
  | _ => none

def switch? : Setting → Option Switch
  | .switch s => some s
  | _ => none

/-- The options of an argument with two dashes, and whether the last one lacks its value. -/
def long (text : List Char) : Option (List Setting × Bool) :=
  match String.ofList (text.takeWhile (· ≠ '=')), text.dropWhile (· ≠ '=') with
  | "input", [] => some ([], true)
  | "input", _ :: value => some ([.input (.ofList value)], false)
  | "casual-boolean", [] => some ([.switch .casualBoolean], false)
  | "parse-dates", [] => some ([.switch .parseDates], false)
  | "syntax-only", [] => some ([.switch .syntaxOnly], false)
  | "pretty", [] => some ([.switch .pretty], false)
  | _, _ => none

def short : List Char → Option (List Setting × Bool)
  | [] => some ([], false)
  | 'p' :: rest => (short rest).map fun (settings, lacks) => (.switch .pretty :: settings, lacks)
  | ['i'] => some ([], true)
  | 'i' :: '=' :: value => some ([.input (.ofList value)], false)
  | 'i' :: value => some ([.input (.ofList value)], false)
  | _ => none

end Setting

def isOption (arg : String) : Bool :=
  match arg.toList with
  | '-' :: _ :: _ => true
  | _ => false

def settings : List String → Option (List Setting)
  | [] => some []
  | "--" :: rest => some (rest.map .type)
  | arg :: rest => do
    let (found, lacks) ← match arg.toList with
      | '-' :: '-' :: name => Setting.long name
      | '-' :: c :: cs => Setting.short (c :: cs)
      | _ => some ([.type arg], false)
    if lacks then
      match rest with
      | value :: rest =>
        guard !isOption value
        return found ++ .input value :: (← settings rest)
      | [] => none
    else return found ++ (← settings rest)

def request? (settings : List Setting) : Option Request := do
  let [type] := settings.filterMap Setting.type? | none
  let inputs := settings.filterMap Setting.input?
  let switches := settings.filterMap Setting.switch?
  guard (inputs.length ≤ 1 ∧ switches.Nodup)
  return {
    type
    input := inputs.head?
    casualBoolean := switches.contains .casualBoolean
    parseDates := switches.contains .parseDates
    syntaxOnly := switches.contains .syntaxOnly
    pretty := switches.contains .pretty }

def operands : List String → Option (List String)
  | [] => some []
  | "--" :: rest => some rest
  | arg :: rest => if isOption arg then none else (operands rest).map (arg :: ·)

/-- What the command is asked for; `none` if the arguments make no sense. -/
def Invocation.ofArguments? : List String → Option Invocation
  | "check" :: rest => do return .check (← request? (← settings rest))
  | "docs" :: rest => do
    guard (← operands rest).isEmpty
    return .overview
  | "doc" :: rest => do
    let [name] ← operands rest | none
    return .topic name
  | "onboard" :: rest => do
    guard (← operands rest).isEmpty
    return .tutorial
  | arg :: _ => if arg = "--version" ∨ arg.startsWith "-V" then some .version else none
  | [] => none

end StructuralTypes.Command
