import StructuralTypes.Proofs.FlatIntersection
import StructuralTypes.Proofs.Recompile

namespace StructuralTypes

namespace TypeExpr

open Distributing

variable {d k made : Nat} {t n : TypeExpr}

/-- The budget bounds every single union of a normal form, and all of them together if no union is
inside an object or array that is intersected. Otherwise there is only an exponential bound. -/
theorem unions_bounds_of_normalize (h : normalize t = .ok n) :
    (∀ u ∈ n.subterms, u.alternatives.length ≤ t.unions + maxAlternatives + 1) ∧
      (t.FlatIntersections → n.unions ≤ t.unions + maxAlternatives) ∧
      n.unions < 2 ^ t.unions :=
  ⟨atMost_of_normalize h, unions_le_of_normalize h, unions_lt_of_normalize h⟩

/-- Below, `(string | null) & (number | boolean)` has two unions, and its normal form has three. -/
theorem unions_bounds_of_four_products :
    let t := and (.or (.leaf .string) (.leaf .null)) (.or (.leaf .number) (.leaf .boolean))
    let n := or (.or (.or (.and (.leaf .string) (.leaf .number))
      (.and (.leaf .string) (.leaf .boolean))) (.and (.leaf .null) (.leaf .number)))
      (.and (.leaf .null) (.leaf .boolean))
    normalize t = .ok n ∧ t.FlatIntersections ∧ t.unions = 2 ∧ n.unions = 3 ∧
      (∀ u ∈ n.subterms, u.alternatives.length ≤ t.unions + maxAlternatives + 1) ∧
      n.unions ≤ t.unions + maxAlternatives ∧ n.unions < 2 ^ t.unions := by
  intro t n
  have hnorm : normalize t = .ok n := rfl
  have hflat : t.FlatIntersections := by simp [t, Flat]
  obtain ⟨hsingle, htotal, hexponential⟩ := unions_bounds_of_normalize hnorm
  exact ⟨hnorm, hflat, rfl, rfl, hsingle, htotal hflat, hexponential⟩

def fork : TypeExpr :=
  .group (.or (.object [⟨"b", false, .leaf .null⟩]) (.object [⟨"c", false, .leaf .null⟩]))

/-- Each level is `{ a: … } & ({ b: null } | { c: null })` around the level below. -/
def layered : Nat → TypeExpr
  | 0 => .leaf .null
  | d + 1 => .and (.object [⟨"a", false, layered d⟩]) fork

def spread : Nat → TypeExpr
  | 0 => .leaf .null
  | d + 1 => .or (.object [⟨"a", false, spread d⟩, ⟨"b", false, .leaf .null⟩])
      (.object [⟨"a", false, spread d⟩, ⟨"c", false, .leaf .null⟩])

theorem unions_layered : (layered d).unions = d := by
  induction d with
  | zero => rfl
  | succ d ih => simp [layered, fork, unions, fieldUnions, ih]

theorem unions_spread : (spread d).unions + 1 = 2 ^ d := by
  induction d with
  | zero => rfl
  | succ d ih =>
    simp only [spread, unions, fieldUnions]
    rw [Nat.pow_succ, ← ih]
    omega

theorem canonical_layered : (layered d).canonical = layered d := by
  induction d with
  | zero => rfl
  | succ d ih => simp [layered, fork, closed, ih, joinChain, chain]

theorem printable_layered : (layered d).Printable := by
  induction d with
  | zero => simp [layered, Printable, Leaf.Printable]
  | succ d ih => simpa [layered, fork, Printable, Leaf.Printable] using ih

theorem levels_layered_le : (layered d).levels 0 ≤ d + 2 := by
  induction d with
  | zero => simp [layered, levels]
  | succ d ih =>
    simp only [layered, fork, levels, fieldLevels]
    omega

theorem bind_eq_of_eq {α β : Type} {x : Distributing α} {f : α → Distributing β} {a : α}
    {after : Nat} (h : x made = .ok (a, after)) : (x >>= f) made = f a after := by
  change (x made >>= fun p => f p.1 p.2) = _
  rw [h]
  rfl

theorem normalizeWithin_object_singleton {name : String} {u : TypeExpr} {after : Nat}
    (h : normalizeWithin k t made = .ok (u, after)) :
    normalizeWithin (k + 1) (.object [⟨name, false, t⟩]) made =
      .ok (.object [⟨name, false, u⟩], after) := by
  have hfields : normalizeFields k [⟨name, false, t⟩] made = .ok ([⟨name, false, u⟩], after) := by
    rw [normalizeFields, bind_eq_of_eq h]
    rfl
  rw [normalizeWithin, descend, pure_bind, bind_eq_of_eq hfields]
  rfl

theorem normalizeWithin_fork : normalizeWithin (k + 2) fork = pure fork := rfl

theorem meet_fork (h : made + 2 ≤ maxAlternatives) :
    meet (k + 1) (.object [⟨"a", false, t⟩]) fork made =
      .ok (.or (.object [⟨"a", false, t⟩, ⟨"b", false, .leaf .null⟩])
        (.object [⟨"a", false, t⟩, ⟨"c", false, .leaf .null⟩]), made + 2) := by
  have hspend : spend 2 made = .ok ((), made + 2) := by rw [spend_apply, if_pos h]
  exact (bind_eq_of_eq hspend).trans rfl

/-- Each level makes two intersections of alternatives, however large the field it copies. -/
theorem normalizeWithin_layered (hd : d < k) (hmade : made + 2 * d ≤ maxAlternatives) :
    normalizeWithin k (layered d) made = .ok (spread d, made + 2 * d) := by
  induction d generalizing k with
  | zero => rfl
  | succ d ih =>
    obtain ⟨k, rfl⟩ : ∃ j, k = j + 2 := ⟨k - 2, by omega⟩
    have hlower := ih (k := k + 1) (by omega) (by omega)
    have hspent : made + 2 * d + 2 ≤ maxAlternatives := hmade
    rw [layered, normalizeWithin, bind_eq_of_eq (normalizeWithin_object_singleton hlower),
      normalizeWithin_fork, pure_bind]
    exact meet_fork hspent

theorem regroup_layered : (layered d).regroup = layered d := by
  induction d with
  | zero => rfl
  | succ d ih =>
    simp [layered, fork, regroup, regroupFields, ih, joinChain, chain]

theorem normalize_layered (hd : d < maxLevels) : normalize (layered d) = .ok (spread d) := by
  have hmade : 0 + 2 * d ≤ maxAlternatives := by
    simp only [maxLevels, maxAlternatives] at *
    omega
  rw [normalize, StateT.run', regroup_layered, normalizeWithin_layered hd hmade]
  rfl

/-- The exponential bound is attained by what a short text is compiled to. -/
theorem compile_text_layered (hd : d < 126) (layout : Layout) :
    compile ((layered d).text layout) = .ok (spread d) := by
  have hlevels : 1 + (layered d).canonical.levels 0 ≤ maxDepth := by
    have := levels_layered_le (d := d)
    rw [canonical_layered, maxDepth]
    omega
  have hread := parse_text printable_layered hlevels layout
  rw [canonical_layered] at hread
  rw [compile_of_parse hread]
  exact normalize_layered (by rw [maxLevels]; omega)

/-- Thirteen levels have 13 unions, and their normal form has 8191. -/
theorem unions_thirteen_layers :
    compile ((layered 13).text .compact) = .ok (spread 13) ∧
      normalize (layered 13) = .ok (spread 13) ∧
      ¬ (spread 13).unions ≤ (layered 13).unions + maxAlternatives := by
  refine ⟨compile_text_layered (by decide) .compact, normalize_layered (by decide), ?_⟩
  have := unions_spread (d := 13)
  rw [unions_layered, maxAlternatives]
  omega

end TypeExpr

end StructuralTypes
