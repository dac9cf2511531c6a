import StructuralTypes.Reading.Lexeme

namespace StructuralTypes

/-- The characters with the Unicode property `White_Space`. -/
def isBlank (c : Char) : Bool :=
  ('\u0009' ≤ c && c ≤ '\u000d') || c == '\u0020' || c == '\u0085' || c == '\u00a0' ||
    c == '\u1680' || ('\u2000' ≤ c && c ≤ '\u200a') || c == '\u2028' || c == '\u2029' ||
    c == '\u202f' || c == '\u205f' || c == '\u3000'

def skipBlank (text : List Char) : List Char :=
  text.dropWhile isBlank

theorem length_skipBlank_le (text : List Char) : (skipBlank text).length ≤ text.length :=
  (List.dropWhile_sublist isBlank).length_le

/-- The text not read yet, and how many levels of nesting are open. -/
structure Cursor where
  rest : List Char
  depth : Nat
deriving DecidableEq

abbrev Reading := EStateM ReadError Cursor

namespace Cursor

def start (text : String) : Cursor :=
  ⟨text.toList, 0⟩

def remaining (c : Cursor) : String :=
  .ofList (StructuralTypes.skipBlank c.rest)

def skipBlank (c : Cursor) : Cursor :=
  { c with rest := StructuralTypes.skipBlank c.rest }

theorem length_skipBlank_le (c : Cursor) : c.skipBlank.rest.length ≤ c.rest.length :=
  StructuralTypes.length_skipBlank_le c.rest

theorem length_lt_of_skipBlank {c : Cursor} {ch : Char} {rest : List Char}
    (h : c.skipBlank.rest = ch :: rest) : rest.length < c.rest.length := by
  have := c.length_skipBlank_le
  rwa [h] at this

end Cursor

namespace Reading

def skipBlank : Reading Unit :=
  modify Cursor.skipBlank

/-- Reads one piece of text; a failure reads nothing. -/
def lexeme (read : Lexeme.Reader α) : Reading α := fun c =>
  match read c.rest with
  | .ok (a, rest) => .ok a { c with rest }
  | .error e => .error e c

def eat (ch : Char) : Reading Bool := fun c =>
  match c.rest with
  | [] => .ok false c
  | d :: rest => if d = ch then .ok true { c with rest } else .ok false c

def expect (ch : Char) : Reading Unit := do
  skipBlank
  unless ← eat ch do
    throw (.expectedChar ch (.ofList (← get).rest))

/-- The step never puts text back. -/
def Consumes (r : Reading α) : Prop :=
  ∀ c d a, r c = .ok a d → d.rest.length ≤ c.rest.length

def Shortens (r : Reading α) : Prop :=
  ∀ c d a, r c = .ok a d → d.rest.length < c.rest.length

theorem bind_eq_ok {x : Reading α} {f : α → Reading β} {c e : Cursor} {b : β} :
    (x >>= f) c = .ok b e ↔ ∃ a d, x c = .ok a d ∧ f a d = .ok b e := by
  change EStateM.bind x f c = .ok b e ↔ _
  unfold EStateM.bind
  cases x c <;> simp [and_assoc]

theorem Consumes.bind {x : Reading α} {f : α → Reading β} (hx : Consumes x)
    (hf : ∀ a, Consumes (f a)) : Consumes (x >>= f) := by
  intro c e b h
  obtain ⟨a, d, ha, hb⟩ := bind_eq_ok.1 h
  exact Nat.le_trans (hf a _ _ _ hb) (hx _ _ _ ha)

theorem Shortens.bind {x : Reading α} {f : α → Reading β} (hx : Shortens x)
    (hf : ∀ a, Consumes (f a)) : Shortens (x >>= f) := by
  intro c e b h
  obtain ⟨a, d, ha, hb⟩ := bind_eq_ok.1 h
  exact Nat.lt_of_le_of_lt (hf a _ _ _ hb) (hx _ _ _ ha)

theorem Consumes.bind_shortens {x : Reading α} {f : α → Reading β} (hx : Consumes x)
    (hf : ∀ a, Shortens (f a)) : Shortens (x >>= f) := by
  intro c e b h
  obtain ⟨a, d, ha, hb⟩ := bind_eq_ok.1 h
  exact Nat.lt_of_lt_of_le (hf a _ _ _ hb) (hx _ _ _ ha)

theorem Shortens.consumes {x : Reading α} (hx : Shortens x) : Consumes x :=
  fun _ _ _ h => Nat.le_of_lt (hx _ _ _ h)

theorem consumes_pure (a : α) : Consumes (pure a) := by
  intro c d b h
  cases h
  exact Nat.le_refl _

theorem consumes_get : Consumes get := by
  intro c d b h
  cases h
  exact Nat.le_refl _

theorem shortens_throw (e : ReadError) : Shortens (throw e : Reading α) := by
  intro c d b h
  cases h

theorem consumes_skipBlank : Consumes skipBlank := by
  intro c d a h
  cases h
  exact c.length_skipBlank_le

theorem shortens_lexeme {read : Lexeme.Reader α}
    (hread : ∀ {text rest a}, read text = .ok (a, rest) → rest.length < text.length) :
    Shortens (lexeme read) := by
  intro c d a h
  simp only [lexeme] at h
  split at h
  · next hr =>
    cases h
    exact hread hr
  · cases h

theorem consumes_eat (ch : Char) : Consumes (eat ch) := by
  intro c d a h
  simp only [eat] at h
  split at h
  · cases h
    exact Nat.le_refl _
  · next hc =>
    split at h <;> cases h <;> simp [hc]

theorem consumes_expect (ch : Char) : Consumes (expect ch) := by
  refine consumes_skipBlank.bind fun _ => (consumes_eat ch).bind fun b => ?_
  cases b
  · exact consumes_get.bind fun c => (shortens_throw _).consumes
  · exact consumes_pure ()

end Reading

structure Step (α : Type) where
  run : Reading α
  shortens : run.Shortens

end StructuralTypes
