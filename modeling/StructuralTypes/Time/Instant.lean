import StructuralTypes.Time.Calendar

namespace StructuralTypes

/--
So many seconds after the start of 1970 in UTC, and nanoseconds after that. In a leap second the
nanoseconds go on counting from the second before, up to two billion.
-/
structure Instant where
  second : Int
  nanosecond : Nat
deriving DecidableEq

namespace Instant

def padded (width n : Nat) : String :=
  let digits := Nat.toDigits 10 n
  String.ofList (List.replicate (width - digits.length) '0' ++ digits)

def yearText (year : Int) : String :=
  if year < 0 then "-" ++ padded 4 year.natAbs
  else if year ≤ 9999 then padded 4 year.natAbs
  else "+" ++ padded 4 year.natAbs

/-- The part of a second, in as many groups of three digits as it needs. -/
def fractionText (nanosecond : Nat) : String :=
  if nanosecond = 0 then ""
  else if nanosecond % 1000000 = 0 then "." ++ padded 3 (nanosecond / 1000000)
  else if nanosecond % 1000 = 0 then "." ++ padded 6 (nanosecond / 1000)
  else "." ++ padded 9 nanosecond

def text (t : Instant) : String :=
  let date := Calendar.Day.ofNumber (t.second / 86400)
  let time := (t.second % 86400).toNat
  let leap := if t.nanosecond < 1000000000 then 0 else 1
  yearText date.year ++ "-" ++ padded 2 date.month ++ "-" ++ padded 2 date.day ++ "T" ++
    padded 2 (time / 3600) ++ ":" ++ padded 2 (time / 60 % 60) ++ ":" ++
    padded 2 (time % 60 + leap) ++ fractionText (t.nanosecond % 1000000000) ++ "+00:00"

def number (width : Nat) (text : List Char) : Option (Nat × List Char) :=
  let digits := text.take width
  if digits.length = width ∧ digits.all Char.isDigit then
    some (Nat.ofDigitChars 10 digits 0, text.drop width)
  else none

def char (c : Char) : List Char → Option (List Char)
  | d :: rest => if d = c then some rest else none
  | [] => none

/-- The nanoseconds of an optional fraction; digits after the ninth do not count. -/
def fraction : List Char → Option (Nat × List Char)
  | '.' :: text =>
    match text.takeWhile Char.isDigit with
    | [] => none
    | digits =>
      let nine := (digits ++ List.replicate 9 '0').take 9
      some (Nat.ofDigitChars 10 nine 0, text.dropWhile Char.isDigit)
  | text => some (0, text)

def offset : List Char → Option (Int × List Char)
  | [] => none
  | sign :: text =>
    if sign = 'Z' ∨ sign = 'z' then some (0, text)
    else if sign = '+' ∨ sign = '-' ∨ sign = '\u2212' then do
      let (hour, text) ← number 2 text
      let (minute, text) ← number 2 (← char ':' text)
      guard (hour ≤ 23 ∧ minute ≤ 59)
      let size := hour * 3600 + minute * 60
      return (if sign = '+' then size else -size, text)
    else none

def date (text : List Char) : Option (Calendar.Day × List Char) := do
  let (year, text) ← number 4 text
  let (month, text) ← number 2 (← char '-' text)
  let (day, text) ← number 2 (← char '-' text)
  let d : Calendar.Day := ⟨year, month, day⟩
  guard d.isValid
  return (d, text)

/-- The second of the day, at most 59 in its minute, and the nanoseconds after it. -/
def time (text : List Char) : Option ((Nat × Nat) × List Char) := do
  let (hour, text) ← number 2 text
  let (minute, text) ← number 2 (← char ':' text)
  let (second, text) ← number 2 (← char ':' text)
  guard (hour ≤ 23 ∧ minute ≤ 59 ∧ second ≤ 60)
  let (nanosecond, text) ← fraction text
  let minutes := hour * 3600 + minute * 60
  if second = 60 then return ((minutes + 59, nanosecond + 1000000000), text)
  else return ((minutes + second, nanosecond), text)

def ofText? (text : String) : Option Instant := do
  let (day, rest) ← date text.toList
  let separator :: rest := rest | none
  guard (separator ∈ ['T', 't', ' '])
  let ((second, nanosecond), rest) ← time rest
  let (ahead, rest) ← offset rest
  guard rest.isEmpty
  return ⟨day.number * 86400 + second - ahead, nanosecond⟩

end Instant

end StructuralTypes
