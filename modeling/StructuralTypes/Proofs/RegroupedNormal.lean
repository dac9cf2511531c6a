import StructuralTypes.Proofs.Grouping
import StructuralTypes.Proofs.NormalCheck

namespace StructuralTypes.TypeExpr

/-- The types are the operands of a chain of `&` in the expression, from its first to its last. -/
inductive HasChain : TypeExpr → List TypeExpr → Prop
  | whole {l r} : HasChain (.and l r) ((TypeExpr.and l r).chain .and)
  | operand {l r u ts} (hu : u ∈ (TypeExpr.and l r).chain .and) (h : HasChain u ts) :
    HasChain (.and l r) ts
  | alternative {l r u ts} (hu : u ∈ (TypeExpr.or l r).chain .or) (h : HasChain u ts) :
    HasChain (.or l r) ts
  | item {t ts} (h : HasChain t ts) : HasChain (.array t) ts
  | field {f fields ts} (hf : f ∈ fields) (h : HasChain f.type ts) : HasChain (.object fields) ts
  | group {t ts} (h : HasChain t ts) : HasChain (.group t) ts

def StartWithObjects : List TypeExpr → Prop
  | a :: b :: _ => a.fields? ≠ none ∧ b.fields? ≠ none
  | _ => False

variable {a b l n r t : TypeExpr} {ts : List TypeExpr} {fields : List (Field TypeExpr)}
  {p : List TypeExpr → Prop}

theorem forall_hasChain_object : (∀ ts, HasChain (.object fields) ts → p ts) ↔
    ∀ f ∈ fields, ∀ ts, HasChain f.type ts → p ts := by
  refine ⟨fun h f hf ts hts => h ts (.field hf hts), fun h ts hts => ?_⟩
  cases hts with
  | field hf hts => exact h _ hf ts hts

theorem forall_hasChain_array : (∀ ts, HasChain (.array t) ts → p ts) ↔
    ∀ ts, HasChain t ts → p ts := by
  refine ⟨fun h ts hts => h ts (.item hts), fun h ts hts => ?_⟩
  cases hts with
  | item hts => exact h ts hts

theorem forall_hasChain_and : (∀ ts, HasChain (.and l r) ts → p ts) ↔
    p ((and l r).chain .and) ∧ ∀ u ∈ (and l r).chain .and, ∀ ts, HasChain u ts → p ts := by
  constructor
  · exact fun h => ⟨h _ .whole, fun u hu ts hts => h ts (.operand hu hts)⟩
  · rintro ⟨hwhole, hoperands⟩ ts hts
    cases hts with
    | whole => exact hwhole
    | operand hu hts => exact hoperands _ hu ts hts

theorem forall_hasChain_or : (∀ ts, HasChain (.or l r) ts → p ts) ↔
    ∀ u ∈ (or l r).chain .or, ∀ ts, HasChain u ts → p ts := by
  refine ⟨fun h u hu ts hts => h ts (.alternative hu hts), fun h ts hts => ?_⟩
  cases hts with
  | alternative hu hts => exact h _ hu ts hts

theorem forall_hasChain_group : (∀ ts, HasChain (.group t) ts → p ts) ↔
    ∀ ts, HasChain t ts → p ts := by
  refine ⟨fun h ts hts => h ts (.group hts), fun h ts hts => ?_⟩
  cases hts with
  | group hts => exact h ts hts

theorem exists_regroup_join (op : Connective) (l r : TypeExpr) :
    ∃ l' r', (op.join l r).regroup = op.join l' r' := by
  rw [regroup_join]
  exact exists_joinChain_eq op l.regroup r.regroup

theorem ungrouped_regroup : t.regroup.ungrouped = t.ungrouped.regroup := by
  induction t with
  | and l r =>
    obtain ⟨l', r', h⟩ : ∃ l' r', (and l r).regroup = .and l' r' := exists_regroup_join .and l r
    rw [h]
    exact h.symm
  | or l r =>
    obtain ⟨l', r', h⟩ : ∃ l' r', (or l r).regroup = .or l' r' := exists_regroup_join .or l r
    rw [h]
    exact h.symm
  | group content ih => exact ih
  | _ => rfl

theorem fields?_regroup : t.regroup.fields? = none ↔ t.fields? = none := by
  unfold fields?
  rw [ungrouped_regroup]
  cases t.ungrouped with
  | and l r =>
    obtain ⟨l', r', h⟩ : ∃ l' r', (and l r).regroup = .and l' r' := exists_regroup_join .and l r
    rw [h]
  | or l r =>
    obtain ⟨l', r', h⟩ : ∃ l' r', (or l r).regroup = .or l' r' := exists_regroup_join .or l r
    rw [h]
  | object fields => exact iff_of_false nofun nofun
  | _ => rfl

theorem union?_regroup : t.regroup.union? = none ↔ t.union? = none := by
  unfold union?
  rw [ungrouped_regroup]
  cases t.ungrouped with
  | and l r =>
    obtain ⟨l', r', h⟩ : ∃ l' r', (and l r).regroup = .and l' r' := exists_regroup_join .and l r
    rw [h]
  | or l r =>
    obtain ⟨l', r', h⟩ : ∃ l' r', (or l r).regroup = .or l' r' := exists_regroup_join .or l r
    rw [h]
    exact iff_of_false nofun nofun
  | _ => rfl

theorem union?_of_mem_chain (h : t.IsNormal) (hunion : t.union? = none) :
    ∀ u ∈ t.chain .and, u.union? = none := by
  induction t using chain_induct .and with
  | join l r ihl ihr =>
    rw [Connective.join_and, isNormal_and] at h
    rw [chain_join, List.forall_mem_append]
    exact ⟨ihl h.2.1 h.1.1, ihr h.2.2 h.1.2.1⟩
  | operand t ht =>
    rw [ht, List.forall_mem_singleton]
    exact hunion

/-- Operands that follow an intersection are intersected without being merged. -/
theorem isNormal_foldl_and (hl : l.union? = none) (hfields : l.fields? = none)
    (hts : ∀ t ∈ ts, t.union? = none) :
    (ts.foldl and l).IsNormal ↔ l.IsNormal ∧ ∀ t ∈ ts, t.IsNormal := by
  induction ts generalizing l with
  | nil => simp
  | cons t ts ih =>
    rw [List.forall_mem_cons] at hts
    rw [List.foldl_cons, ih rfl rfl hts.2, isNormal_and, List.forall_mem_cons]
    simp only [hl, hts.1, hfields, true_or, and_true, true_and, and_assoc]

theorem isNormal_chain (h : ∀ t ∈ a :: b :: ts, t.union? = none) :
    ((b :: ts).foldl and a).IsNormal ↔
      (a.fields? = none ∨ b.fields? = none) ∧ ∀ t ∈ a :: b :: ts, t.IsNormal := by
  simp only [List.forall_mem_cons] at h
  rw [List.foldl_cons, isNormal_foldl_and rfl rfl h.2.2, isNormal_and]
  simp only [h.1, h.2.1, true_and, List.forall_mem_cons, and_assoc]

theorem not_startWithObjects_iff : ¬ StartWithObjects (a :: b :: ts) ↔
    a.regroup.fields? = none ∨ b.regroup.fields? = none := by
  rw [StartWithObjects, not_and_or, not_not, not_not, fields?_regroup, fields?_regroup]

/-- A normal form stays one when its chains are grouped from the left, unless a chain of `&` in it
begins with two objects. -/
theorem isNormal_regroup_iff (h : n.IsNormal) :
    n.regroup.IsNormal ↔ ∀ ts, HasChain n ts → ¬ StartWithObjects ts := by
  induction n using chainInduct with
  | leaf k => exact iff_of_true h fun ts hts => by cases hts
  | object fields ih =>
    rw [isNormal_object] at h
    rw [regroup, regroupFields_eq_map, isNormal_object, List.forall_mem_map,
      forall_hasChain_object]
    exact forall₂_congr fun f hf => ih f hf (h f hf)
  | array item ih =>
    rw [regroup, isNormal_array, forall_hasChain_array]
    exact ih (isNormal_array.1 h)
  | and l r ih =>
    have hnormal : ∀ u ∈ (and l r).chain .and, u.IsNormal :=
      fun u hu => everywhere_of_mem_chain hu h
    have hunion := union?_of_mem_chain h rfl
    rw [forall_hasChain_and]
    obtain ⟨a, b, ts, hchain⟩ : ∃ a b ts, (and l r).chain .and = a :: b :: ts :=
      exists_chain_join .and l r
    rw [hchain] at hnormal hunion ih ⊢
    have hregrouped : ∀ t ∈ (a :: b :: ts).map regroup, t.union? = none := by
      rw [List.forall_mem_map]
      exact fun u hu => union?_regroup.2 (hunion u hu)
    rw [regroup_eq_foldl hchain, not_startWithObjects_iff]
    refine (isNormal_chain hregrouped).trans (and_congr_right fun _ => ?_)
    exact List.forall_mem_map.trans (forall₂_congr fun u hu => ih u hu (hnormal u hu))
  | or l r ih =>
    have hnormal : ∀ u ∈ (or l r).chain .or, u.IsNormal :=
      fun u hu => everywhere_of_mem_chain hu h
    rw [forall_hasChain_or]
    obtain ⟨a, b, ts, hchain⟩ : ∃ a b ts, (or l r).chain .or = a :: b :: ts :=
      exists_chain_join .or l r
    rw [hchain] at hnormal ih ⊢
    rw [regroup_eq_foldl hchain, Connective.join_or,
      foldl_iff (p := IsNormal) fun _ _ => isNormal_or, ← List.forall_mem_cons, ← List.map_cons]
    exact List.forall_mem_map.trans (forall₂_congr fun u hu => ih u hu (hnormal u hu))
  | group content ih =>
    rw [regroup, isNormal_group, forall_hasChain_group]
    exact ih (isNormal_group.1 h)

end StructuralTypes.TypeExpr
