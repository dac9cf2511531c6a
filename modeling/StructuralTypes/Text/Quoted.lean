namespace StructuralTypes.Quoted

def isQuote (c : Char) : Bool :=
  c == '\x27' || c == '\x22'

/-- Reads a body and its closing `quote`; gives the text meant and what follows the quote. -/
def read (quote : Char) : List Char → Option (List Char × List Char)
  | [] => none
  | '\\' :: c :: rest => (read quote rest).map fun (text, after) => (c :: text, after)
  | ['\\'] => none
  | c :: rest =>
    if c = quote then some ([], rest)
    else (read quote rest).map fun (text, after) => (c :: text, after)

def escape : List Char → List Char
  | [] => []
  | c :: rest =>
    if c = '\x22' ∨ c = '\\' then '\\' :: c :: escape rest else c :: escape rest

def write (text : String) : String :=
  "\"" ++ String.ofList (escape text.toList) ++ "\""

theorem length_read_lt {quote : Char} {body text after : List Char}
    (h : read quote body = some (text, after)) : after.length < body.length := by
  fun_induction read quote body generalizing text after with
  | case1 => simp at h
  | case2 c rest ih =>
    obtain ⟨⟨u, v⟩, hu, hv⟩ := Option.map_eq_some_iff.1 h
    simp only [Prod.mk.injEq] at hv
    have := ih hu
    simp only [List.length_cons, ← hv.2]
    omega
  | case3 => simp at h
  | case4 c rest => simp_all
  | case5 c rest _ _ _ ih =>
    obtain ⟨⟨u, v⟩, hu, hv⟩ := Option.map_eq_some_iff.1 h
    simp only [Prod.mk.injEq] at hv
    have := ih hu
    simp only [List.length_cons, ← hv.2]
    omega

end StructuralTypes.Quoted
