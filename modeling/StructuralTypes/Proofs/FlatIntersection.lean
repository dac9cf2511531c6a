import StructuralTypes.Proofs.Expansion

namespace StructuralTypes

namespace TypeExpr

open Distributing

variable {l r m t u n : TypeExpr} {fs gs hs : List (Field TypeExpr)}

def Flat : TypeExpr → Prop
  | .leaf _ => True
  | .object fields => fieldUnions fields = 0
  | .array item => item.unions = 0
  | .and l r | .or l r => l.Flat ∧ r.Flat
  | .group content => content.Flat

/-- No object or array that is an operand of an intersection has a union inside. -/
def FlatIntersections (t : TypeExpr) : Prop :=
  t.Everywhere fun u => ∀ l r, u = .and l r → u.Flat

theorem length_alternatives_of_union? (h : t.union? = none) : t.alternatives.length = 1 := by
  rw [alternatives_of_union? h, List.length_singleton]

theorem length_alternatives_group : (group t).alternatives.length = t.alternatives.length := by
  rw [alternatives]
  split
  · rfl
  · next hnone =>
    rw [Bool.not_eq_true, Option.isSome_eq_false_iff, Option.isNone_iff_eq_none] at hnone
    rw [length_alternatives_of_union? hnone, List.length_singleton]

theorem union?_of_fields? (h : t.fields? = some fs) : t.union? = none := by
  induction t with
  | group content ih => exact ih h
  | or l r => cases h
  | _ => rfl

theorem length_alternatives_unionOf {ms : List TypeExpr} (hm : unionOf ms = some m)
    (hms : ∀ t ∈ ms, t.alternatives.length = 1) : m.alternatives.length = ms.length := by
  have hsum : (ms.map fun t => t.alternatives.length).sum = m.alternatives.length :=
    sum_map_of_unionOf (fun l r => List.length_append) hm
  rw [← hsum, List.map_congr_left hms]
  simp

/-- An intersection has an alternative for each pair of alternatives of its sides. -/
theorem meetClosed_length_alternatives : MeetClosed fun l r m =>
    m.alternatives.length = l.alternatives.length * r.alternatives.length := by
  refine ⟨fun hl hr _ => ?_, fun hl hr _ => ?_, fun {l r ms m} hms hm => ?_⟩
  · rw [length_alternatives_of_union? hl, length_alternatives_of_union? hr]
    rfl
  · rw [length_alternatives_of_union? (union?_of_fields? hl),
      length_alternatives_of_union? (union?_of_fields? hr)]
    rfl
  · have hone : ∀ m ∈ ms, m.alternatives.length = 1 := forall_mem_of_forall₂ hms fun q hq m hm => by
      have hq := mem_alternativePairs.1 hq
      rw [hm, length_alternatives_of_union? (union?_eq_none_of_mem_alternatives hq.1),
        length_alternatives_of_union? (union?_eq_none_of_mem_alternatives hq.2)]
    rw [length_alternatives_unionOf hm hone, ← hms.length_eq, length_alternativePairs]

/-- The normal form of a flat type has an alternative for every choice. -/
theorem length_alternatives_of_normalizeWithin {k : Nat} (h : Gives (normalizeWithin k t) u) :
    t.Flat → u.alternatives.length = t.expansions := by
  refine normalizeWithin_induction
    (q := fun t u => t.Flat → u.alternatives.length = t.expansions) ?_ ?_ ?_ ?_ ?_ ?_ h
  · exact fun _ _ => rfl
  · exact fun fs gs _ hflat => (expansions_eq_one (t := .object fs) hflat).symm
  · exact fun t u _ hflat => (expansions_eq_one (t := .array t) hflat).symm
  · intro k l r l' r' m hl hr hm hflat
    rw [meetClosed_length_alternatives.of_gives hm, hl hflat.1, hr hflat.2, expansions]
  · intro l r l' r' hl hr hflat
    rw [alternatives, List.length_append, hl hflat.1, hr hflat.2, expansions]
  · exact fun t u hu hflat => length_alternatives_group.trans (hu hflat)

theorem makes_unions_of_flat (n : Nat) (h : t.Flat) :
    Makes (normalizeWithin n t) fun k u => u.unions ≤ t.unions + k := by
  refine (makes_normalizeWithin n t).gives.imp fun k u ⟨hgives, hu⟩ => ?_
  suffices hlt : u.unions < t.unions + k + 1 from Nat.le_of_lt_succ hlt
  calc u.unions
    _ < u.expansions := unions_lt_expansions
    _ = t.expansions := expansions_of_normalizeWithin hgives
    _ = u.alternatives.length := (length_alternatives_of_normalizeWithin hgives h).symm
    _ ≤ t.unions + k + 1 := hu.length_alternatives_le

theorem fieldUnions_eq_zero : fieldUnions fs = 0 ↔ ∀ f ∈ fs, f.type.unions = 0 := by
  induction fs with
  | nil => simp [fieldUnions]
  | cons f fs ih => rw [fieldUnions, Nat.add_eq_zero_iff, ih, List.forall_mem_cons]

theorem flat_of_unions (h : t.unions = 0) : t.Flat := by
  induction t with
  | leaf l => trivial
  | object fields => exact h
  | array item => exact h
  | and l r ihl ihr =>
    rw [unions, Nat.add_eq_zero_iff] at h
    exact ⟨ihl h.1, ihr h.2⟩
  | or l r => simp [unions] at h
  | group content ih => exact ih h

@[simp]
theorem flatIntersections_leaf {k : Leaf} : (leaf k).FlatIntersections := by
  simp [FlatIntersections]

@[simp]
theorem flatIntersections_object :
    (object fs).FlatIntersections ↔ ∀ f ∈ fs, f.type.FlatIntersections := by
  simp [FlatIntersections]

@[simp]
theorem flatIntersections_array : (array t).FlatIntersections ↔ t.FlatIntersections := by
  simp [FlatIntersections]

@[simp]
theorem flatIntersections_and : (and l r).FlatIntersections ↔
    (and l r).Flat ∧ l.FlatIntersections ∧ r.FlatIntersections := by
  simp [FlatIntersections]

@[simp]
theorem flatIntersections_or :
    (or l r).FlatIntersections ↔ l.FlatIntersections ∧ r.FlatIntersections := by
  simp [FlatIntersections]

@[simp]
theorem flatIntersections_group : (group t).FlatIntersections ↔ t.FlatIntersections := by
  simp [FlatIntersections]

theorem flatIntersections_of_flat (h : t.Flat) : t.FlatIntersections := by
  induction t with
  | leaf l => simp
  | object fields ih =>
    have hfields := fieldUnions_eq_zero.1 h
    exact flatIntersections_object.2 fun f hf => ih f hf (flat_of_unions (hfields f hf))
  | array item ih => exact flatIntersections_array.2 (ih (flat_of_unions h))
  | and l r ihl ihr => exact flatIntersections_and.2 ⟨h, ihl h.1, ihr h.2⟩
  | or l r ihl ihr => exact flatIntersections_or.2 ⟨ihl h.1, ihr h.2⟩
  | group content ih => exact flatIntersections_group.2 (ih h)

theorem makes_fieldUnions {n : Nat} (h : ∀ f ∈ fs, Makes (normalizeWithin n f.type) fun k u =>
    u.unions ≤ f.type.unions + k) :
    Makes (normalizeFields n fs) fun k gs => fieldUnions gs ≤ fieldUnions fs + k := by
  induction fs with
  | nil => exact makes_pure (Nat.zero_le _)
  | cons f fs ih =>
    rw [List.forall_mem_cons] at h
    rw [normalizeFields]
    refine h.1.bind fun j t ht => (ih h.2).bind fun k gs hgs => makes_pure ?_
    simp only [fieldUnions]
    omega

/-- Every union of the normal form is one of the type or is made by the budget. -/
theorem makes_unions (n : Nat) (h : t.FlatIntersections) :
    Makes (normalizeWithin n t) fun k u => u.unions ≤ t.unions + k := by
  induction t generalizing n with
  | leaf l => exact makes_pure (Nat.le_refl _)
  | object fields ih =>
    rw [flatIntersections_object] at h
    refine (makes_descend n).bind fun k levels hk => ?_
    refine (makes_fieldUnions fun f hf => ih f hf levels (h f hf)).bind fun j gs hgs => ?_
    refine makes_pure ?_
    rw [unions, unions]
    omega
  | array item ih =>
    rw [flatIntersections_array] at h
    refine (makes_descend n).bind fun k levels hk => (ih levels h).bind fun j u hu => makes_pure ?_
    rw [unions, unions]
    omega
  | and l r => exact makes_unions_of_flat n (flatIntersections_and.1 h).1
  | or l r ihl ihr =>
    rw [flatIntersections_or] at h
    refine (ihl n h.1).bind fun i l' hl => (ihr n h.2).bind fun j r' hr => makes_pure ?_
    rw [unions, unions]
    omega
  | group content ih =>
    rw [flatIntersections_group] at h
    refine (makes_descend n).bind fun k levels hk => (ih levels h).bind fun j u hu => makes_pure ?_
    rw [unions, unions]
    omega

theorem flat_regroup : t.regroup.Flat ↔ t.Flat := by
  induction t with
  | leaf l => rfl
  | object fields =>
    have hunions : (object fields).regroup.unions = (object fields).unions := unions_regroup
    exact Eq.congr_left hunions
  | array item => exact Eq.congr_left unions_regroup
  | and l r ihl ihr =>
    rw [regroup, joinChain_iff .and (p := Flat) fun _ _ => Iff.rfl, ihl, ihr]
    rfl
  | or l r ihl ihr =>
    rw [regroup, joinChain_iff .or (p := Flat) fun _ _ => Iff.rfl, ihl, ihr]
    rfl
  | group content ih => exact ih

theorem flatIntersections_regroup (h : t.FlatIntersections) : t.regroup.FlatIntersections := by
  induction t with
  | leaf l => exact h
  | object fields ih =>
    rw [regroup, regroupFields_eq_map, flatIntersections_object, List.forall_mem_map]
    exact fun f hf => ih f hf (flatIntersections_object.1 h f hf)
  | array item ih => exact flatIntersections_array.2 (ih (flatIntersections_array.1 h))
  | and l r => exact flatIntersections_of_flat (flat_regroup.2 (flatIntersections_and.1 h).1)
  | or l r ihl ihr =>
    rw [flatIntersections_or] at h
    rw [regroup, joinChain_iff .or (p := FlatIntersections) fun _ _ => flatIntersections_or]
    exact ⟨ihl h.1, ihr h.2⟩
  | group content ih => exact flatIntersections_group.2 (ih (flatIntersections_group.1 h))

theorem unions_le_of_normalize (h : normalize t = .ok n) (ht : t.FlatIntersections) :
    n.unions ≤ t.unions + maxAlternatives := by
  have hmakes := makes_unions maxLevels (flatIntersections_regroup ht)
  obtain ⟨k, hk, hn⟩ := Makes.of_normalize hmakes h
  rw [unions_regroup] at hn
  omega

end TypeExpr

end StructuralTypes
