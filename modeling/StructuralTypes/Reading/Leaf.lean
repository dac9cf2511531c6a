import StructuralTypes.Reading.Cursor

namespace StructuralTypes

namespace Reading

def colon (start : String) : Reading Unit := do
  skipBlank
  if (← get).rest.isEmpty then throw (.unclosedObject start) else expect ':'

def fieldHead (start : String) : Reading (String × Bool) := do
  let name ← lexeme Lexeme.key
  skipBlank
  let optional ← eat '?'
  colon start
  return (name, optional)

def separator : Reading Unit := do
  skipBlank
  unless ← eat ',' do
    discard <| eat ';'

def field (start : String) (type : Step TypeExpr) : Reading (Field TypeExpr) := do
  let (name, optional) ← fieldHead start
  let t ← type.run
  separator
  return ⟨name, optional, t⟩

theorem consumes_colon (start : String) : Consumes (colon start) := by
  refine consumes_skipBlank.bind fun _ => consumes_get.bind fun c => ?_
  split
  · exact (shortens_throw _).consumes
  · exact consumes_expect ':'

theorem shortens_fieldHead (start : String) : Shortens (fieldHead start) := by
  refine (shortens_lexeme Lexeme.length_lt_of_key).bind fun _ => ?_
  refine consumes_skipBlank.bind fun _ => (consumes_eat '?').bind fun _ => ?_
  exact (consumes_colon start).bind fun _ => consumes_pure _

theorem consumes_separator : Consumes separator := by
  refine consumes_skipBlank.bind fun _ => (consumes_eat ',').bind fun b => ?_
  cases b
  · exact (consumes_eat ';').bind fun _ => consumes_pure ()
  · exact consumes_pure ()

theorem shortens_field (start : String) (type : Step TypeExpr) : Shortens (field start type) :=
  (shortens_fieldHead start).bind fun _ => type.shortens.consumes.bind fun _ =>
    consumes_separator.bind fun _ => consumes_pure _

/-- The fields of an object and its closing brace; `done` holds the fields so far, last first. -/
def fields (start : String) (type : Step TypeExpr) (done : List (Field TypeExpr)) (c : Cursor) :
    EStateM.Result ReadError Cursor (List (Field TypeExpr)) :=
  match c.skipBlank.rest with
  | [] => .error (.unclosedObject start) c.skipBlank
  | '\x7d' :: rest => .ok done.reverse { c with rest }
  | _ =>
    match _read : field start type c.skipBlank with
    | .error e d => .error e d
    | .ok f d =>
      if done.any (·.name == f.name) then .error (.repeatedField f.name) d
      else fields start type (f :: done) d
termination_by c.rest.length
decreasing_by
  exact Nat.lt_of_lt_of_le (shortens_field start type _ _ _ _read) c.length_skipBlank_le

theorem length_lt_of_fields {start : String} {type : Step TypeExpr}
    {done fs : List (Field TypeExpr)} {c d : Cursor} (h : fields start type done c = .ok fs d) :
    d.rest.length < c.rest.length := by
  fun_induction fields start type done c with
  | case1 => cases h
  | case2 done c rest hc =>
    cases h
    exact Cursor.length_lt_of_skipBlank hc
  | case3 => cases h
  | case4 => cases h
  | case5 done c f e hf _ _ _ ih =>
    have := shortens_field start type _ _ _ hf
    have := c.length_skipBlank_le
    have := ih h
    omega

def array (type : Step TypeExpr) : Reading TypeExpr := do
  expect '<'
  let item ← type.run
  expect '>'
  return .array item

def wordLeaf (type : Step TypeExpr) : Reading TypeExpr := do
  let name ← lexeme Lexeme.word
  if name = "Array" then array type else return .leaf (.ofWord name)

def atom (type : Step TypeExpr) (first : Char) : Reading TypeExpr :=
  if Quoted.isQuote first then do
    return .leaf (.text (← lexeme Lexeme.quoted))
  else if first.isDigit then do
    return .leaf (.numeral (← lexeme Lexeme.number))
  else if Lexeme.isWordChar first then wordLeaf type
  else do
    throw (.unknownChar first (.ofList (← get).rest))

def leaf (type : Step TypeExpr) : Reading TypeExpr := fun c₀ =>
  let c := c₀.skipBlank
  match c.rest with
  | [] => .error .emptyType c
  | '\x7b' :: rest =>
    match fields (.ofList c.rest) type [] { c with rest } with
    | .ok fs d => .ok (.object fs) d
    | .error e d => .error e d
  | first :: _ => atom type first c

theorem shortens_array (type : Step TypeExpr) : Shortens (array type) :=
  (consumes_expect '<').bind_shortens fun _ => type.shortens.bind fun _ =>
    (consumes_expect '>').bind fun _ => consumes_pure _

theorem shortens_wordLeaf (type : Step TypeExpr) : Shortens (wordLeaf type) := by
  refine (shortens_lexeme Lexeme.length_lt_of_run).bind fun name => ?_
  split
  · exact (shortens_array type).consumes
  · exact consumes_pure _

theorem shortens_atom (type : Step TypeExpr) (first : Char) : Shortens (atom type first) := by
  unfold atom
  split
  · exact (shortens_lexeme Lexeme.length_lt_of_quoted).bind fun _ => consumes_pure _
  · split
    · exact (shortens_lexeme Lexeme.length_lt_of_number).bind fun _ => consumes_pure _
    · split
      · exact shortens_wordLeaf type
      · exact consumes_get.bind_shortens fun _ => shortens_throw _

theorem shortens_leaf (type : Step TypeExpr) : Shortens (leaf type) := by
  intro c d t h
  simp only [leaf] at h
  split at h
  · cases h
  · next rest hc =>
    split at h
    · next hf =>
      cases h
      exact Nat.lt_trans (length_lt_of_fields hf) (Cursor.length_lt_of_skipBlank hc)
    · cases h
  · exact Nat.lt_of_lt_of_le (shortens_atom type _ _ _ _ h) c.length_skipBlank_le

end Reading

end StructuralTypes
