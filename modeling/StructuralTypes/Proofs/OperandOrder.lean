import Mathlib.Data.List.Perm.Basic
import StructuralTypes.Proofs.NormalCheck

namespace StructuralTypes.TypeExpr

variable {o : Options} {a b c t u : TypeExpr} {ts us ws : List TypeExpr} {v : Value}

theorem exists_append_of_perm (h : (ts ++ t :: us).Perm ws) : ∃ xs ys, ws = xs ++ t :: ys ∧
    ∀ zs, (ts ++ (zs ++ us)).Perm (xs ++ (zs ++ ys)) := by
  have hmem : t ∈ ws := h.subset (List.mem_append_right ts List.mem_cons_self)
  obtain ⟨xs, ys, rfl⟩ := List.append_of_mem hmem
  have hothers : (ts ++ us).Perm (xs ++ ys) :=
    ((List.perm_middle.symm.trans h).trans List.perm_middle).cons_inv
  refine ⟨xs, ys, rfl, fun zs => ?_⟩
  calc List.Perm (ts ++ (zs ++ us)) (zs ++ (ts ++ us)) := List.perm_append_comm_assoc ..
    List.Perm _ (zs ++ (xs ++ ys)) := hothers.append_left zs
    List.Perm _ (xs ++ (zs ++ ys)) := List.perm_append_comm_assoc ..

/-- The order of the types that are intersected does not matter. -/
theorem AcceptsAll.perm (h : AcceptsAll o ts v) (hperm : ts.Perm us) : AcceptsAll o us v := by
  induction h generalizing us with
  | @group _ _ t _ h ih =>
    obtain ⟨xs, ys, rfl, hrest⟩ := exists_append_of_perm hperm
    exact .group (ih (hrest [t]))
  | @and _ _ l r _ h ih =>
    obtain ⟨xs, ys, rfl, hrest⟩ := exists_append_of_perm hperm
    exact .and (ih (hrest [l, r]))
  | @orLeft _ _ l r _ h ih =>
    obtain ⟨xs, ys, rfl, hrest⟩ := exists_append_of_perm hperm
    exact .orLeft (ih (hrest [l]))
  | @orRight _ _ l r _ h ih =>
    obtain ⟨xs, ys, rfl, hrest⟩ := exists_append_of_perm hperm
    exact .orRight (ih (hrest [r]))
  | leaf h =>
    rw [← List.singleton_perm.1 hperm]
    exact .leaf h
  | array h =>
    rw [← List.singleton_perm.1 hperm]
    exact .array h
  | @objects shapes entries closed absent present ih =>
    have hobject : ∀ t ∈ us, t.isObject := by
      intro t ht
      obtain ⟨fields, -, rfl⟩ := List.mem_map.1 (hperm.symm.subset ht)
      rfl
    obtain ⟨shapes', rfl⟩ := exists_shapes hobject
    have hshapes : shapes.Perm shapes' :=
      (List.map_perm_map_iff fun _ _ => TypeExpr.object.inj).1 hperm
    have hmem (fields : List (Field TypeExpr)) : fields ∈ shapes' ↔ fields ∈ shapes :=
      hshapes.symm.mem_iff
    refine .objects ?_ ?_ fun fields hfields f hf w hw => ?_
    · simpa only [hmem] using closed
    · simpa only [hmem] using absent
    · refine ih fields ((hmem fields).1 hfields) f hf w hw ?_
      exact (hshapes.flatten.filter _).map _
  | apart settled mixed h ih =>
    have hmem (t : TypeExpr) : t ∈ us ↔ t ∈ _ := hperm.symm.mem_iff
    refine .apart ?_ ?_ ?_
    · simpa only [hmem] using settled
    · simpa only [hmem] using mixed
    · simpa only [hmem] using h

theorem acceptsAll_perm (h : ts.Perm us) : AcceptsAll o ts v ↔ AcceptsAll o us v :=
  ⟨fun hv => hv.perm h, fun hv => hv.perm h.symm⟩

theorem equivalent_and_comm : Equivalent o (.and a b) (.and b a) := by
  intro ts us v
  rw [acceptsAll_and, acceptsAll_and]
  exact acceptsAll_perm ((List.Perm.swap b a us).append_left ts)

theorem equivalent_or_comm : Equivalent o (.or a b) (.or b a) := by
  intro ts us v
  rw [acceptsAll_or, acceptsAll_or, or_comm]

theorem equivalent_and_or : Equivalent o (.and a (.or b c)) (.or (.and a b) (.and a c)) := by
  intro ts us v
  have hinner : AcceptsAll o ((ts ++ [a]) ++ .or b c :: us) v ↔ _ := acceptsAll_or
  simp only [acceptsAll_and, acceptsAll_or, List.append_assoc, List.singleton_append] at hinner ⊢
  exact hinner

mutual

def withoutGroups : TypeExpr → TypeExpr
  | .leaf l => .leaf l
  | .object fields => .object (withoutGroupsFields fields)
  | .array item => .array item.withoutGroups
  | .and l r => .and l.withoutGroups r.withoutGroups
  | .or l r => .or l.withoutGroups r.withoutGroups
  | .group content => content.withoutGroups

def withoutGroupsFields : List (Field TypeExpr) → List (Field TypeExpr)
  | [] => []
  | f :: fs => { f with type := f.type.withoutGroups } :: withoutGroupsFields fs

end

theorem withoutGroupsFields_eq_map (fields : List (Field TypeExpr)) :
    withoutGroupsFields fields = fields.map fun f => { f with type := f.type.withoutGroups } := by
  induction fields with
  | nil => rfl
  | cons f fields ih => rw [withoutGroupsFields, ih, List.map_cons]

theorem distinctNames_withoutGroups : t.withoutGroups.DistinctNames ↔ t.DistinctNames := by
  induction t with
  | leaf l => rfl
  | object fields ih =>
    simp only [withoutGroups, withoutGroupsFields_eq_map, distinctNames_object, List.map_map,
      Function.comp_def, List.forall_mem_map]
    exact and_congr_right fun _ => forall₂_congr ih
  | array item ih => simpa [withoutGroups] using ih
  | and l r ihl ihr => simp [withoutGroups, ihl, ihr]
  | or l r ihl ihr => simp [withoutGroups, ihl, ihr]
  | group content ih => simpa [withoutGroups] using ih

theorem equivalent_withoutGroups : Equivalent o t t.withoutGroups := by
  induction t with
  | leaf l => exact .refl _
  | object fields ih =>
    rw [withoutGroups, withoutGroupsFields_eq_map]
    refine equivalent_object (.of_forall₂ ?_)
    rw [List.forall₂_map_right_iff, List.forall₂_same]
    exact fun f hf => ⟨rfl, rfl, ih f hf⟩
  | array item ih => exact ih.array
  | and l r ihl ihr => exact ihl.and ihr
  | or l r ihl ihr => exact ihl.or ihr
  | group content ih => exact equivalent_group.trans ih

theorem equivalent_and_assoc_group :
    Equivalent o (.and (.group (.and a b)) c) (.and a (.group (.and b c))) := by
  have hleft : Equivalent o (.and (.group (.and a b)) c) _ := equivalent_group.and (.refl c)
  have hright : Equivalent o (.and a (.group (.and b c))) _ :=
    (Equivalent.refl a).and equivalent_group
  exact (hleft.trans equivalent_and_assoc).trans hright.symm

theorem equivalent_and_or_group :
    Equivalent o (.and a (.group (.or b c))) (.or (.group (.and a b)) (.group (.and a c))) := by
  have hleft : Equivalent o (.and a (.group (.or b c))) _ :=
    (Equivalent.refl a).and equivalent_group
  have hright : Equivalent o (.or (.group (.and a b)) (.group (.and a c))) _ :=
    equivalent_group.or equivalent_group
  exact (hleft.trans equivalent_and_or).trans hright.symm

/-- Whenever both types have a normal form, the two normal forms accept the same values. -/
def AcceptAlike (t u : TypeExpr) : Prop :=
  ∀ m n, normalize t = .ok m → normalize u = .ok n →
    ∀ o v, m.check o v = .ok () ↔ n.check o v = .ok ()

theorem acceptAlike_of_equivalent (ht : t.DistinctNames) (hu : u.DistinctNames)
    (h : ∀ o, Equivalent o t u) : AcceptAlike t u := by
  intro m n hm hn o v
  have hmt : Equivalent o m t := (equivalent_of_normalize hm ht).symm
  have hun : Equivalent o u n := equivalent_of_normalize hn hu
  exact check_eq_ok_congr (isNormal_of_normalize hm) (distinctNames_of_normalize hm ht)
    (isNormal_of_normalize hn) (distinctNames_of_normalize hn hu) (hmt.trans ((h o).trans hun))

/-- Intersections and unions commute, intersections associate and distribute over unions, and
parentheses change nothing, as far as acceptance goes. -/
theorem acceptAlike_laws (ha : a.DistinctNames) (hb : b.DistinctNames) (hc : c.DistinctNames) :
    AcceptAlike (.and a b) (.and b a) ∧
      AcceptAlike (.and (.group (.and a b)) c) (.and a (.group (.and b c))) ∧
      AcceptAlike (.or a b) (.or b a) ∧
      AcceptAlike (.and a (.group (.or b c))) (.or (.group (.and a b)) (.group (.and a c))) ∧
      AcceptAlike (.and a (.or b c)) (.or (.and a b) (.and a c)) ∧
      AcceptAlike c c.withoutGroups := by
  refine ⟨acceptAlike_of_equivalent ?_ ?_ fun _ => equivalent_and_comm,
    acceptAlike_of_equivalent ?_ ?_ fun _ => equivalent_and_assoc_group,
    acceptAlike_of_equivalent ?_ ?_ fun _ => equivalent_or_comm,
    acceptAlike_of_equivalent ?_ ?_ fun _ => equivalent_and_or_group,
    acceptAlike_of_equivalent ?_ ?_ fun _ => equivalent_and_or,
    acceptAlike_of_equivalent ?_ ?_ fun _ => equivalent_withoutGroups⟩
  all_goals simp [ha, hb, hc, distinctNames_withoutGroups]

/-- Below, the two ways to group `{ x: string } & ({ x?: k, y?: number } | null) & { y?: (number) }`
have different normal forms, which both take `{ x: "k" }`. -/
theorem acceptAlike_grouped_chains :
    let a := object [⟨"x", false, .leaf .string⟩]
    let b := group (.or (.object [⟨"x", true, .leaf (.word "k")⟩, ⟨"y", true, .leaf .number⟩])
      (.leaf .null))
    let c := object [⟨"y", true, .group (.leaf .number)⟩]
    let o := object [⟨"x", false, .and (.leaf .string) (.leaf (.word "k"))⟩,
      ⟨"y", true, .and (.leaf .number) (.group (.leaf .number))⟩]
    let m := or o (.and (.and a (.leaf .null)) c)
    let n := or o (.and a (.and (.leaf .null) c))
    a.DistinctNames ∧ b.DistinctNames ∧ c.DistinctNames ∧
      normalize (.and (.group (.and a b)) c) = .ok m ∧
      normalize (.and a (.group (.and b c))) = .ok n ∧
      (∀ o v, m.check o v = .ok () ↔ n.check o v = .ok ()) ∧
      m.check ⟨false⟩ (.object [("x", .string "k")]) = .ok () := by
  intro a b c o m n
  have ha : a.DistinctNames := by simp [a]
  have hb : b.DistinctNames := by simp [b]
  have hc : c.DistinctNames := by simp [c]
  have hm : normalize (.and (.group (.and a b)) c) = .ok m := rfl
  have hn : normalize (.and a (.group (.and b c))) = .ok n := rfl
  exact ⟨ha, hb, hc, hm, hn, (acceptAlike_laws ha hb hc).2.1 m n hm hn, rfl⟩

end StructuralTypes.TypeExpr
