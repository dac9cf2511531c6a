import StructuralTypes.Reading.Leaf
import StructuralTypes.Reading.Term
import StructuralTypes.TypeExpr.Normal

namespace StructuralTypes

/-- The most levels of nesting in a text. -/
def maxDepth : Nat := 128

namespace Reading

/-- Whether the text that starts with `ch` cannot go on after `done`, the terms so far. -/
def stops (done : List Term) (ch : Char) : Bool :=
  match done with
  | [] => false
  | last :: _ => last.endsOperand || ch ∈ ['\x7d', '>', ',', ';']

/--
The next term, if there is one, after the terms `done`, last first. A parenthesis opens a level, and
one that closes gives it back if any of the `opened` ones is left.
-/
def term (leaf : Step TypeExpr) (opened : Nat) (done : List Term) :
    Reading (Option Term) := fun c₀ =>
  let c := c₀.skipBlank
  match c.rest with
  | [] => .ok none c
  | '(' :: rest =>
    if c.depth < maxDepth then .ok (some .openGroup) ⟨rest, c.depth + 1⟩
    else .error (.tooDeep maxDepth) { c with depth := c.depth + 1 }
  | ')' :: rest => .ok (some .closeGroup) ⟨rest, if opened = 0 then c.depth else c.depth - 1⟩
  | '&' :: rest => .ok (some (.connective .and)) { c with rest }
  | '|' :: rest => .ok (some (.connective .or)) { c with rest }
  | ch :: _ =>
    if stops done ch then .ok none c
    else match leaf.run c with
      | .error e d => .error e d
      | .ok t d => .ok (some (.operand t)) d

theorem length_lt_of_term {leaf : Step TypeExpr} {opened : Nat} {done : List Term} {t : Term}
    {c d : Cursor} (h : term leaf opened done c = .ok (some t) d) :
    d.rest.length < c.rest.length := by
  simp only [term] at h
  split at h
  · cases h
  · next hc =>
    split at h <;> cases h
    exact Cursor.length_lt_of_skipBlank hc
  · next hc =>
    cases h
    exact Cursor.length_lt_of_skipBlank hc
  · next hc =>
    cases h
    exact Cursor.length_lt_of_skipBlank hc
  · next hc =>
    cases h
    exact Cursor.length_lt_of_skipBlank hc
  · split at h
    · cases h
    · split at h
      · cases h
      · next hl =>
        cases h
        exact Nat.lt_of_lt_of_le (leaf.shortens _ _ _ hl) c.length_skipBlank_le

theorem length_le_of_term {leaf : Step TypeExpr} {opened : Nat} {done : List Term} {c d : Cursor}
    (h : term leaf opened done c = .ok none d) : d.rest.length ≤ c.rest.length := by
  simp only [term] at h
  split at h
  · cases h
    exact c.length_skipBlank_le
  · split at h <;> cases h
  · cases h
  · cases h
  · cases h
  · split at h
    · cases h
      exact c.length_skipBlank_le
    · split at h <;> cases h

/--
The terms that come next. `done` holds the terms so far, last first, and `opened` counts the
parentheses among them that are still open; at the end their levels are given back.
-/
def terms (leaf : Step TypeExpr) (opened : Nat) (done : List Term) (c : Cursor) :
    EStateM.Result ReadError Cursor (List Term) :=
  match _read : term leaf opened done c with
  | .error e d => .error e d
  | .ok none d => .ok done.reverse { d with depth := d.depth - opened }
  | .ok (some t) d => terms leaf (t.openAfter opened) (t :: done) d
termination_by c.rest.length
decreasing_by exact length_lt_of_term _read

/-- Every term uses up some text. -/
theorem length_add_length_le_of_terms {leaf : Step TypeExpr} {opened : Nat} {done ts : List Term}
    {c d : Cursor} (h : terms leaf opened done c = .ok ts d) :
    d.rest.length + ts.length ≤ c.rest.length + done.length := by
  fun_induction terms leaf opened done c with
  | case1 => cases h
  | case2 _ _ _ _ hread =>
    cases h
    rw [List.length_reverse]
    exact Nat.add_le_add_right (length_le_of_term hread) _
  | case3 _ _ _ _ _ hread ih =>
    have := length_lt_of_term hread
    have := ih h
    rw [List.length_cons] at this
    omega

def expression (leaf : Step TypeExpr) : Reading TypeExpr := fun c =>
  if c.depth < maxDepth then
    match terms leaf 0 [] { c with depth := c.depth + 1 } with
    | .error e d => .error e d
    | .ok [] d => .error .emptyType d
    | .ok ts d =>
      match Term.resolve ts with
      | .error e => .error e d
      | .ok t => .ok t { d with depth := d.depth - 1 }
  else .error (.tooDeep maxDepth) { c with depth := c.depth + 1 }

theorem shortens_expression (leaf : Step TypeExpr) : Shortens (expression leaf) := by
  intro c d t h
  simp only [expression] at h
  split at h
  · split at h
    · cases h
    · cases h
    · next ts e hne hts =>
      have hle := length_add_length_le_of_terms hts
      have := List.length_pos_iff.2 hne
      split at h
      · cases h
      · cases h
        simp only [List.length_nil] at hle
        exact Nat.lt_of_lt_of_le (Nat.lt_add_of_pos_right this) hle
  · cases h

/-- Reads an expression with at most `n` levels of nesting: its own, and one more for each open
parenthesis, array item and field type. A failure leaves the levels open that it was in. -/
def typeWithin : Nat → Step TypeExpr
  | 0 => ⟨fun c => .error (.tooDeep maxDepth) { c with depth := c.depth + 1 }, by
      intro c d t h
      cases h⟩
  | n + 1 =>
    let inner : Step TypeExpr := ⟨leaf (typeWithin n), shortens_leaf _⟩
    ⟨expression inner, shortens_expression inner⟩

def type : Reading TypeExpr :=
  (typeWithin maxDepth).run

def single : Reading TypeExpr :=
  leaf (typeWithin maxDepth)

end Reading

namespace TypeExpr

/-- The longest type expression at the front of the text, and the text after it. -/
def parse (text : String) : Except ReadError (TypeExpr × String) :=
  match Reading.type (.start text) with
  | .ok t c => .ok (t, c.remaining)
  | .error e _ => .error e

def compile (text : String) : Except ReadError TypeExpr := do
  let (t, rest) ← parse text
  if rest.isEmpty then normalize t else throw (.trailing rest)

end TypeExpr

end StructuralTypes
