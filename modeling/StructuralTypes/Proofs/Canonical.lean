import StructuralTypes.Proofs.Subterm
import StructuralTypes.TypeExpr.Layout

namespace StructuralTypes

namespace Leaf

def keywords : List String :=
  ["string", "number", "boolean", "Date", "true", "false", "null"]

/-- The leaf is read back from its text: a bare word is a word but no keyword and not `Array`, and a
number has no sign. -/
def Printable : Leaf → Prop
  | .word name => name ≠ "" ∧ (∀ c ∈ name.toList, Lexeme.isWordChar c) ∧ name ∉ keywords ∧
    name ≠ "Array"
  | .numeral value => 0 ≤ value.coefficient
  | _ => True

theorem ofWord_of_not_mem {name : String} (h : name ∉ keywords) : ofWord name = .word name := by
  simp only [keywords, List.mem_cons, List.not_mem_nil, or_false, not_or] at h
  unfold ofWord
  split <;> simp_all

theorem printable_ofWord {name : String} (hne : name ≠ "")
    (hword : ∀ c ∈ name.toList, Lexeme.isWordChar c) (harray : name ≠ "Array") :
    (ofWord name).Printable := by
  by_cases h : name ∈ keywords
  · simp only [keywords, List.mem_cons, List.not_mem_nil, or_false] at h
    rcases h with rfl | rfl | rfl | rfl | rfl | rfl | rfl <;> trivial
  · rw [ofWord_of_not_mem h]
    exact ⟨hne, hword, h, harray⟩

end Leaf

namespace TypeExpr

def PrintableLeaves (t : TypeExpr) : Prop :=
  t.Everywhere fun u => ∀ l, u = .leaf l → l.Printable

def Printable (t : TypeExpr) : Prop :=
  t.DistinctNames ∧ t.PrintableLeaves

def closed : TypeExpr → TypeExpr
  | .or l r => .group (.or l r)
  | t => t

mutual

/-- The expression with parentheses around each union among the operands of `&`. -/
def parenthesize : TypeExpr → TypeExpr
  | .leaf l => .leaf l
  | .object fields => .object (parenthesizeFields fields)
  | .array item => .array item.parenthesize
  | .and l r => .and l.parenthesize.closed r.parenthesize.closed
  | .or l r => .or l.parenthesize r.parenthesize
  | .group content => .group content.parenthesize

def parenthesizeFields : List (Field TypeExpr) → List (Field TypeExpr)
  | [] => []
  | f :: fs => { f with type := f.type.parenthesize } :: parenthesizeFields fs

end

/-- What the text of the expression is read as. -/
def canonical (t : TypeExpr) : TypeExpr :=
  t.parenthesize.regroup

section

variable {l r t : TypeExpr} {fields : List (Field TypeExpr)}

@[simp]
theorem printableLeaves_leaf {k : Leaf} : (leaf k).PrintableLeaves ↔ k.Printable := by
  simp [PrintableLeaves]

@[simp]
theorem printableLeaves_object :
    (object fields).PrintableLeaves ↔ ∀ f ∈ fields, f.type.PrintableLeaves := by
  simp [PrintableLeaves]

@[simp]
theorem printableLeaves_array : (array t).PrintableLeaves ↔ t.PrintableLeaves := by
  simp [PrintableLeaves]

@[simp]
theorem printableLeaves_and :
    (and l r).PrintableLeaves ↔ l.PrintableLeaves ∧ r.PrintableLeaves := by
  simp [PrintableLeaves]

@[simp]
theorem printableLeaves_or :
    (or l r).PrintableLeaves ↔ l.PrintableLeaves ∧ r.PrintableLeaves := by
  simp [PrintableLeaves]

@[simp]
theorem printableLeaves_group : (group t).PrintableLeaves ↔ t.PrintableLeaves := by
  simp [PrintableLeaves]

theorem parenthesizeFields_eq_map :
    parenthesizeFields fields = fields.map fun f => { f with type := f.type.parenthesize } := by
  induction fields with
  | nil => rfl
  | cons f fields ih => rw [parenthesizeFields, ih, List.map_cons]

theorem distinctNames_closed : t.closed.DistinctNames ↔ t.DistinctNames := by
  cases t <;> simp [closed]

theorem distinctNames_parenthesize : t.parenthesize.DistinctNames ↔ t.DistinctNames := by
  induction t with
  | leaf k => rfl
  | object fields ih =>
    simp only [parenthesize, parenthesizeFields_eq_map, distinctNames_object, List.map_map,
      Function.comp_def, List.forall_mem_map]
    exact and_congr_right fun _ => forall₂_congr ih
  | array item ih => simpa [parenthesize] using ih
  | and l r ihl ihr => simp [parenthesize, distinctNames_closed, ihl, ihr]
  | or l r ihl ihr => simp [parenthesize, ihl, ihr]
  | group content ih => simpa [parenthesize] using ih

theorem distinctNames_canonical : t.canonical.DistinctNames ↔ t.DistinctNames :=
  distinctNames_regroup.trans distinctNames_parenthesize

theorem parenthesize_closed : t.closed.parenthesize = t.parenthesize.closed := by
  cases t <;> rfl

@[simp]
theorem canonical_leaf {k : Leaf} : (leaf k).canonical = .leaf k := rfl

@[simp]
theorem canonical_object : (object fields).canonical =
    .object (fields.map fun f => { f with type := f.type.canonical }) := by
  rw [canonical, parenthesize, regroup, regroupFields_eq_map, parenthesizeFields_eq_map,
    List.map_map]
  rfl

@[simp]
theorem canonical_array : (array t).canonical = .array t.canonical := rfl

@[simp]
theorem canonical_and :
    (and l r).canonical = joinChain .and l.closed.canonical r.closed.canonical := by
  rw [canonical, parenthesize, regroup, ← parenthesize_closed, ← parenthesize_closed]
  rfl

@[simp]
theorem canonical_or : (or l r).canonical = joinChain .or l.canonical r.canonical := rfl

@[simp]
theorem canonical_group : (group t).canonical = .group t.canonical := rfl

end

end TypeExpr

end StructuralTypes
