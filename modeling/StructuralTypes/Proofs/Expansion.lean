import Mathlib.Algebra.BigOperators.Ring.List
import StructuralTypes.Proofs.Budget

namespace StructuralTypes

namespace TypeExpr

open Distributing

variable {k : Nat} {l r m t u n : TypeExpr} {fs gs hs : List (Field TypeExpr)}

mutual

/-- In how many ways one alternative of every union can be chosen. -/
def expansions : TypeExpr → Nat
  | .leaf _ => 1
  | .object fields => fieldExpansions fields
  | .array item => item.expansions
  | .and l r => l.expansions * r.expansions
  | .or l r => l.expansions + r.expansions
  | .group content => content.expansions

def fieldExpansions : List (Field TypeExpr) → Nat
  | [] => 1
  | f :: fs => f.type.expansions * fieldExpansions fs

end

theorem fieldExpansions_of_fields? (h : t.fields? = some fs) :
    fieldExpansions fs = t.expansions := by
  induction t with
  | object fields =>
    cases h
    rfl
  | group content ih => exact ih h
  | _ => cases h

theorem MergesField.fieldExpansions_eq {g : Field TypeExpr}
    (h : MergesField (fun l r m => m.expansions = l.expansions * r.expansions) g fs hs) :
    fieldExpansions hs = fieldExpansions fs * g.type.expansions := by
  induction h with
  | last => exact Nat.mul_comm _ _
  | here hname ht => rw [fieldExpansions, fieldExpansions, ht, Nat.mul_right_comm]
  | there hname h ih => rw [fieldExpansions, fieldExpansions, ih, Nat.mul_assoc]

theorem Merges.fieldExpansions_eq
    (h : Merges (fun l r m => m.expansions = l.expansions * r.expansions) fs gs hs) :
    fieldExpansions hs = fieldExpansions fs * fieldExpansions gs := by
  induction h with
  | nil => rw [fieldExpansions, Nat.mul_one]
  | cons hg h ih => rw [ih, hg.fieldExpansions_eq, fieldExpansions, Nat.mul_assoc]

theorem sum_expansions_alternatives (t : TypeExpr) :
    (t.alternatives.map expansions).sum = t.expansions := by
  fun_induction alternatives t with
  | case1 l r ihl ihr => rw [List.map_append, List.sum_append, ihl, ihr, expansions]
  | case2 t ht ih => exact ih
  | case3 t ht => exact List.sum_singleton
  | case4 t hor hgroup => exact List.sum_singleton

/-- A measure that adds up over `|` adds up over the types of a union. -/
theorem sum_map_of_unionOf {μ : TypeExpr → Nat} (hor : ∀ l r, μ (.or l r) = μ l + μ r)
    {ms : List TypeExpr} (hm : unionOf ms = some m) : (ms.map μ).sum = μ m := by
  cases ms with
  | nil => cases hm
  | cons t ts =>
    rw [unionOf, Option.some_inj] at hm
    subst hm
    induction ts generalizing t with
    | nil => exact List.sum_singleton
    | cons u ts ih =>
      rw [List.foldl_cons, ← ih]
      simp only [List.map_cons, List.sum_cons, hor, Nat.add_assoc]

theorem sum_expansions_alternativePairs :
    ((alternativePairs l r).map fun p => p.1.expansions * p.2.expansions).sum =
      l.expansions * r.expansions := by
  rw [← sum_expansions_alternatives l, ← sum_expansions_alternatives r, alternativePairs]
  induction l.alternatives with
  | nil => simp
  | cons a as ih =>
    rw [List.flatMap_cons, List.map_append, List.sum_append, ih, List.map_cons, List.sum_cons,
      Nat.add_mul, List.map_map]
    exact congrArg (· + _) (List.sum_map_mul_left r.alternatives expansions a.expansions)

theorem meetClosed_expansions :
    MeetClosed fun l r m => m.expansions = l.expansions * r.expansions := by
  refine ⟨fun _ _ _ => rfl, fun hl hr h => ?_, fun {l r ms m} hms hm => ?_⟩
  · rw [expansions, h.fieldExpansions_eq, fieldExpansions_of_fields? hl,
      fieldExpansions_of_fields? hr]
  · have hproducts : ms.map expansions =
        (alternativePairs l r).map fun p => p.1.expansions * p.2.expansions := by
      rw [← List.forall₂_eq_eq_eq, List.forall₂_map_left_iff, List.forall₂_map_right_iff]
      exact hms.flip
    have hsum : (ms.map expansions).sum = m.expansions := sum_map_of_unionOf (fun _ _ => rfl) hm
    rw [← hsum, hproducts, sum_expansions_alternativePairs]

theorem expansions_of_normalizeWithin (h : Gives (normalizeWithin k t) u) :
    u.expansions = t.expansions := by
  refine normalizeWithin_induction (q := fun t u => u.expansions = t.expansions) ?_ ?_ ?_ ?_ ?_ ?_ h
  · exact fun _ => rfl
  · intro fs gs hfg
    rw [expansions, expansions]
    induction hfg with
    | nil => rfl
    | cons hf _ ih => rw [fieldExpansions, fieldExpansions, hf.2.2, ih]
  · exact fun _ _ hu => hu
  · intro k l r l' r' m hl hr hm
    rw [meetClosed_expansions.of_gives hm, hl, hr, expansions]
  · intro l r l' r' hl hr
    rw [expansions, expansions, hl, hr]
  · exact fun _ _ hu => hu

theorem add_lt_mul {a b c d : Nat} (hac : a < c) (hbd : b < d) : a + b < c * d := by
  have := Nat.mul_le_mul hac hbd
  rw [Nat.succ_mul, Nat.mul_succ] at this
  omega

theorem unions_lt_expansions : t.unions < t.expansions := by
  induction t with
  | leaf l => exact Nat.one_pos
  | object fields ih =>
    rw [unions, expansions]
    induction fields with
    | nil => exact Nat.one_pos
    | cons f fs ihs =>
      rw [List.forall_mem_cons] at ih
      exact add_lt_mul ih.1 (ihs ih.2)
  | array item ih => exact ih
  | and l r ihl ihr => exact add_lt_mul ihl ihr
  | or l r ihl ihr =>
    rw [unions, expansions]
    omega
  | group content ih => exact ih

theorem expansions_le : t.expansions ≤ 2 ^ t.unions := by
  induction t with
  | leaf l => exact Nat.le_refl _
  | object fields ih =>
    rw [unions, expansions]
    induction fields with
    | nil => exact Nat.le_refl _
    | cons f fs ihs =>
      rw [List.forall_mem_cons] at ih
      rw [fieldUnions, fieldExpansions, Nat.pow_add]
      exact Nat.mul_le_mul ih.1 (ihs ih.2)
  | array item ih => exact ih
  | and l r ihl ihr =>
    rw [unions, expansions, Nat.pow_add]
    exact Nat.mul_le_mul ihl ihr
  | or l r ihl ihr =>
    have hpow {k : Nat} (hk : k ≤ l.unions + r.unions) : 2 ^ k ≤ 2 ^ (l.unions + r.unions) :=
      Nat.pow_le_pow_right (by decide) hk
    have hl := hpow (Nat.le_add_right l.unions r.unions)
    have hr := hpow (Nat.le_add_left r.unions l.unions)
    rw [unions, expansions, Nat.pow_succ]
    omega
  | group content ih => exact ih

theorem expansions_eq_one (h : t.unions = 0) : t.expansions = 1 := by
  have hle : t.expansions ≤ 2 ^ t.unions := expansions_le
  have hlt : t.unions < t.expansions := unions_lt_expansions
  rw [h] at hle hlt
  omega

/-- The unions of a normal form are at most exponentially many. -/
theorem unions_lt_of_normalize (h : normalize t = .ok n) : n.unions < 2 ^ t.unions :=
  calc n.unions
    _ < n.expansions := unions_lt_expansions
    _ = t.regroup.expansions := expansions_of_normalizeWithin (gives_of_normalize h)
    _ ≤ 2 ^ t.regroup.unions := expansions_le
    _ = 2 ^ t.unions := by rw [unions_regroup]

end TypeExpr

end StructuralTypes
