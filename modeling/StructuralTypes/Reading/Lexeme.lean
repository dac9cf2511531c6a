import StructuralTypes.Reading.Error
import StructuralTypes.Text.Quoted

namespace StructuralTypes.Lexeme

abbrev Reader (α : Type) := List Char → Except ReadError (α × List Char)

def isWordChar (c : Char) : Bool :=
  c.isAlpha || c == '_'

def isKeyChar (c : Char) : Bool :=
  c.isAlphanum || c == '_'

/-- The longest run of `p` in front, which must not be empty. -/
def run (p : Char → Bool) (missing : String → ReadError) : Reader String := fun text =>
  match text.takeWhile p with
  | [] => .error (missing (.ofList text))
  | c :: cs => .ok (.ofList (c :: cs), text.dropWhile p)

def word : Reader String :=
  run isWordChar .expectedWord

def digits : Reader String :=
  run Char.isDigit .expectedDigits

/-- The digits after a point, if the text starts with a point and a digit. -/
def fraction : List Char → List Char × List Char
  | '.' :: d :: rest =>
    if d.isDigit then ((d :: rest).takeWhile Char.isDigit, (d :: rest).dropWhile Char.isDigit)
    else ([], '.' :: d :: rest)
  | text => ([], text)

/-- Digits, with a fraction if one follows; `ofDigits` gives their number if it is exact. -/
def numberBy (ofDigits : List Char → List Char → Option Decimal) : Reader Decimal := fun text =>
  match text.takeWhile Char.isDigit with
  | [] => .error (.expectedDigits (.ofList text))
  | whole =>
    let (places, rest) := fraction (text.dropWhile Char.isDigit)
    match ofDigits whole places with
    | some d => .ok (d, rest)
    | none =>
      let point := if places.isEmpty then [] else ['.']
      .error (.inexactNumber (.ofList (whole ++ point ++ places)))

def number : Reader Decimal :=
  numberBy Decimal.ofDigits

def quoted : Reader String
  | [] => .error (.expectedChar '\x27' "")
  | q :: body =>
    if Quoted.isQuote q then
      match Quoted.read q body with
      | some (text, rest) => .ok (.ofList text, rest)
      | none => .error (.unclosedText q (.ofList (q :: body)))
    else .error (.expectedChar '\x27' (.ofList (q :: body)))

def key : Reader String
  | [] => .error (.expectedWord "")
  | c :: rest =>
    if Quoted.isQuote c then quoted (c :: rest) else run isKeyChar .expectedWord (c :: rest)

theorem length_lt_of_run {p : Char → Bool} {missing : String → ReadError} {text rest : List Char}
    {s : String} (h : run p missing text = .ok (s, rest)) : rest.length < text.length := by
  have hsplit := congrArg List.length (List.takeWhile_append_dropWhile (p := p) (l := text))
  simp only [run] at h
  split at h
  · cases h
  · next c cs hc =>
    cases h
    simp only [hc, List.length_append, List.length_cons] at hsplit
    omega

theorem length_fraction_le (text : List Char) : (fraction text).2.length ≤ text.length := by
  fun_cases fraction text with
  | case1 d rest _ =>
    exact Nat.le_succ_of_le (List.dropWhile_sublist Char.isDigit).length_le
  | case2 => simp
  | case3 => simp

theorem length_lt_of_number {text rest : List Char} {d : Decimal}
    (h : number text = .ok (d, rest)) : rest.length < text.length := by
  have hsplit := congrArg List.length
    (List.takeWhile_append_dropWhile (p := Char.isDigit) (l := text))
  have hle := length_fraction_le (text.dropWhile Char.isDigit)
  simp only [number, numberBy] at h
  split at h
  · cases h
  · next hne =>
    split at h
    · cases h
      have := List.length_pos_iff.2 (fun hnil => hne hnil)
      simp only [List.length_append] at hsplit
      omega
    · cases h

theorem length_lt_of_quoted {text rest : List Char} {s : String}
    (h : quoted text = .ok (s, rest)) : rest.length < text.length := by
  cases text with
  | nil => cases h
  | cons q body =>
    simp only [quoted] at h
    split at h
    · split at h
      · next hread =>
        cases h
        exact Nat.lt_succ_of_lt (Quoted.length_read_lt hread)
      · cases h
    · cases h

theorem length_lt_of_key {text rest : List Char} {s : String}
    (h : key text = .ok (s, rest)) : rest.length < text.length := by
  cases text with
  | nil => cases h
  | cons c cs =>
    simp only [key] at h
    split at h
    · exact length_lt_of_quoted h
    · exact length_lt_of_run h

end StructuralTypes.Lexeme
