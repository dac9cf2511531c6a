import StructuralTypes.Proofs.Subterm

namespace StructuralTypes.TypeExpr

@[simp]
theorem union?_group {t : TypeExpr} : (group t).union? = t.union? := rfl

theorem union?_eq_none {t : TypeExpr} (hor : ∀ l r, t ≠ .or l r) (hgroup : ∀ u, t ≠ .group u) :
    t.union? = none := by
  cases t with
  | or l r => exact absurd rfl (hor l r)
  | group u => exact absurd rfl (hgroup u)
  | _ => rfl

theorem union?_eq_none_of_mem_alternatives {t a : TypeExpr} (h : a ∈ t.alternatives) :
    a.union? = none := by
  fun_induction alternatives t with
  | case1 l r ihl ihr => exact (List.mem_append.1 h).elim ihl ihr
  | case2 t ht ih => exact ih h
  | case3 t ht =>
    rw [List.mem_singleton.1 h]
    simpa using ht
  | case4 t hor hgroup =>
    rw [List.mem_singleton.1 h]
    exact union?_eq_none hor hgroup

theorem alternatives_ne_nil (t : TypeExpr) : t.alternatives ≠ [] := by
  fun_induction alternatives t with
  | case1 l r ihl _ => exact List.append_ne_nil_of_left_ne_nil ihl _
  | case2 t ht ih => exact ih
  | case3 => simp
  | case4 => simp

theorem union?_eq_none_of_alternatives {t a : TypeExpr} (h : t.alternatives = [a]) :
    t.union? = none := by
  fun_induction alternatives t with
  | case1 l r _ _ =>
    have hlen := congrArg List.length h
    have := List.length_pos_iff.2 (alternatives_ne_nil l)
    have := List.length_pos_iff.2 (alternatives_ne_nil r)
    simp only [List.length_append, List.length_singleton] at hlen
    omega
  | case2 t ht ih => exact ih h
  | case3 t ht => simpa using ht
  | case4 t hor hgroup => exact union?_eq_none hor hgroup

theorem alternatives_of_union? {t : TypeExpr} (h : t.union? = none) : t.alternatives = [t] := by
  fun_induction alternatives t with
  | case1 l r => cases h
  | case2 t ht =>
    rw [union?_group] at h
    simp [h] at ht
  | case3 => rfl
  | case4 => rfl

def alternativePairs (l r : TypeExpr) : List (TypeExpr × TypeExpr) :=
  l.alternatives.flatMap fun a => r.alternatives.map (a, ·)

theorem mem_alternativePairs {l r : TypeExpr} {p : TypeExpr × TypeExpr} :
    p ∈ alternativePairs l r ↔ p.1 ∈ l.alternatives ∧ p.2 ∈ r.alternatives := by
  simp only [alternativePairs, List.mem_flatMap, List.mem_map]
  constructor
  · rintro ⟨a, ha, b, hb, rfl⟩
    exact ⟨ha, hb⟩
  · exact fun h => ⟨p.1, h.1, p.2, h.2, rfl⟩

theorem everywhere_of_mem_alternatives {p : TypeExpr → Prop} {t a : TypeExpr}
    (ha : a ∈ t.alternatives) (h : t.Everywhere p) : a.Everywhere p := by
  fun_induction alternatives t with
  | case1 l r ihl ihr =>
    rw [everywhere_or] at h
    exact (List.mem_append.1 ha).elim (ihl · h.2.1) (ihr · h.2.2)
  | case2 t ht ih => exact ih ha (everywhere_group.1 h).2
  | case3 => exact List.mem_singleton.1 ha ▸ h
  | case4 => exact List.mem_singleton.1 ha ▸ h

end StructuralTypes.TypeExpr
