import StructuralTypes.Json.Basic

namespace StructuralTypes.Json

inductive Token
  | openArray
  | closeArray
  | openObject
  | closeObject
  | comma
  | colon
  | scalar (v : Json)

namespace Token

def hexDigit? (c : Char) : Option Nat :=
  if c.isDigit then some (c.toNat - '0'.toNat)
  else if 'a' ≤ c ∧ c ≤ 'f' then some (c.toNat - 'a'.toNat + 10)
  else if 'A' ≤ c ∧ c ≤ 'F' then some (c.toNat - 'A'.toNat + 10)
  else none

def hexNumber? (a b c d : Char) : Option Nat := do
  return (((← hexDigit? a) * 16 + (← hexDigit? b)) * 16 + (← hexDigit? c)) * 16 + (← hexDigit? d)

def isHighSurrogate (n : Nat) : Bool :=
  0xd800 ≤ n && n < 0xdc00

def isLowSurrogate (n : Nat) : Bool :=
  0xdc00 ≤ n && n < 0xe000

def escaped? : Char → Option Char
  | '\x22' => some '\x22'
  | '\\' => some '\\'
  | '/' => some '/'
  | 'b' => some '\x08'
  | 'f' => some '\x0c'
  | 'n' => some '\n'
  | 'r' => some '\r'
  | 't' => some '\t'
  | _ => none

/--
The rest of a string and its closing quote. `done` holds the characters so far, last first, and
`high` the first half of a pair of surrogates whose second half must come next.
-/
def string (high : Option Nat) (done : List Char) : List Char → Option (String × List Char)
  | [] => none
  | '\\' :: 'u' :: a :: b :: c :: d :: rest => do
    let n ← hexNumber? a b c d
    match high with
    | some h =>
      if isLowSurrogate n then
        string none (.ofNat (0x10000 + (h - 0xd800) * 0x400 + (n - 0xdc00)) :: done) rest
      else none
    | none =>
      if isHighSurrogate n then string (some n) done rest
      else if isLowSurrogate n then none
      else string none (.ofNat n :: done) rest
  | '\\' :: e :: rest =>
    if high.isSome then none
    else do string none ((← escaped? e) :: done) rest
  | c :: rest =>
    if high.isSome then none
    else if c = '\x22' then some (.ofList done.reverse, rest)
    else if c < ' ' ∨ c = '\\' then none
    else string none (c :: done) rest

def digits (text : List Char) : Option (List Char × List Char) :=
  match text.takeWhile Char.isDigit with
  | [] => none
  | ds => some (ds, text.dropWhile Char.isDigit)

def exponent (text : List Char) : Option (Option Int × List Char) :=
  match text with
  | [] => some (none, [])
  | e :: after =>
    if e = 'e' ∨ e = 'E' then do
      let (negative, after) := match after with
        | '+' :: after => (false, after)
        | '-' :: after => (true, after)
        | after => (false, after)
      let (ds, rest) ← digits after
      let size := Nat.ofDigitChars 10 ds 0
      return (some (if negative then -size else size), rest)
    else some (none, text)

def fraction : List Char → Option (List Char × List Char)
  | '.' :: text => digits text
  | text => some ([], text)

/-- The integer of 64 bits that the digits and the sign make. Minus zero is none. -/
def integer? (negative : Bool) (whole : List Char) : Option Number :=
  let n := Nat.ofDigitChars 10 whole 0
  if negative then if n = 0 then none else Number.ofInt? (-n) else Number.ofInt? n

def number (negative : Bool) (text : List Char) : Option (Json × List Char) := do
  let (whole, text) ← digits text
  guard (whole.head? ≠ some '0' ∨ whole.length = 1)
  let (places, text) ← fraction text
  let (power, text) ← exponent text
  if places.isEmpty ∧ power.isNone then
    if let some n := integer? negative whole then return (.number n, text)
  return (.number (← Number.ofDigits? negative whole places (power.getD 0)), text)

def first : List Char → Option (Token × List Char)
  | '[' :: rest => some (.openArray, rest)
  | ']' :: rest => some (.closeArray, rest)
  | '\x7b' :: rest => some (.openObject, rest)
  | '\x7d' :: rest => some (.closeObject, rest)
  | ',' :: rest => some (.comma, rest)
  | ':' :: rest => some (.colon, rest)
  | 't' :: 'r' :: 'u' :: 'e' :: rest => some (.scalar (.boolean true), rest)
  | 'f' :: 'a' :: 'l' :: 's' :: 'e' :: rest => some (.scalar (.boolean false), rest)
  | 'n' :: 'u' :: 'l' :: 'l' :: rest => some (.scalar .null, rest)
  | '\x22' :: text => (string none [] text).map fun (s, rest) => (.scalar (.string s), rest)
  | '-' :: text => (number true text).map fun (v, rest) => (.scalar v, rest)
  | text => (number false text).map fun (v, rest) => (.scalar v, rest)

def isSpace (c : Char) : Bool :=
  c == ' ' || c == '\n' || c == '\t' || c == '\r'

def all (done : List Token) (text : List Char) : Option (List Token) :=
  match text.dropWhile isSpace with
  | [] => some done.reverse
  | c :: cs =>
    match first (c :: cs) with
    | none => none
    | some (t, rest) => if rest.length < text.length then all (t :: done) rest else none
termination_by text.length

end Token

end StructuralTypes.Json
