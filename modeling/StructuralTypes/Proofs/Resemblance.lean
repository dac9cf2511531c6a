import StructuralTypes.Proofs.Explanation

namespace StructuralTypes

/-- Values that `r` relates, one checked under `o` and one under `o'`, look alike to types with
leaves in `p`. -/
structure Resemblance (o o' : Options) (p : Leaf → Prop) (r : Value → Value → Prop) : Prop where
  kind : ∀ {v w}, r v w → v.kind = w.kind
  leaf : ∀ {v w k}, r v w → p k → k.check o v = k.check o' w
  items : ∀ {vs ws}, r (.array vs) (.array ws) → List.Forall₂ r vs ws
  entries : ∀ {es fs}, r (.object es) (.object fs) →
    ∀ name, Option.Rel r (es.lookup name) (fs.lookup name)

variable {o o' : Options} {p : Leaf → Prop} {r : Value → Value → Prop} {t : TypeExpr} {v w : Value}
  {vs ws : List Value} {es fs : List (String × Value)} {fields : List (Field TypeExpr)}

theorem Value.exists_array_of_kind (h : (array vs).kind = w.kind) : ∃ ws, w = .array ws := by
  cases w with
  | array ws => exact ⟨ws, rfl⟩
  | _ => simp [kind] at h

theorem Value.exists_object_of_kind (h : (object es).kind = w.kind) : ∃ fs, w = .object fs := by
  cases w with
  | object fs => exact ⟨fs, rfl⟩
  | _ => simp [kind] at h

namespace Verdict

theorem items_congr {check check' : Value → Verdict} {index : Nat}
    (h : List.Forall₂ (fun v w => check v = check' w) vs ws) :
    items check index vs = items check' index ws := by
  induction h generalizing index with
  | nil => rfl
  | cons hvw _ ih => rw [items, items, hvw, ih]

/-- The least name depends only on which names there are. -/
theorem least?_congr {names others : List String} (h : ∀ name, name ∈ names ↔ name ∈ others) :
    least? names = least? others := by
  ext name
  simp only [least?_eq_some, h]

theorem closed_congr_entries (h : ∀ name, name ∈ es.map Prod.fst ↔ name ∈ fs.map Prod.fst) :
    closed fields es = closed fields fs := by
  have hleast : least? ((es.map Prod.fst).filter fun name => !fields.any (·.name == name)) =
      least? ((fs.map Prod.fst).filter fun name => !fields.any (·.name == name)) :=
    least?_congr fun name => by simp only [List.mem_filter, h]
  rw [closed, closed, hleast]

end Verdict

namespace Resemblance

open TypeExpr

theorem checkFields_eq (h : Resemblance o o' p r)
    (hfields : ∀ f ∈ fields, ∀ v w, r v w → f.type.check o v = f.type.check o' w)
    (hr : r (.object es) (.object fs)) : checkFields o fields es = checkFields o' fields fs := by
  induction fields with
  | nil => rfl
  | cons f fields ih =>
    rw [List.forall_mem_cons] at hfields
    rw [checkFields, checkFields, ih hfields.2]
    have hname := h.entries hr f.name
    generalize es.lookup f.name = x at hname ⊢
    generalize fs.lookup f.name = y at hname ⊢
    cases hname with
    | none => rfl
    | some hvw =>
      have hcheck := hfields.1 _ _ hvw
      unfold check at hcheck
      simp only [hcheck]

theorem mem_names_iff (h : Resemblance o o' p r) (hr : r (.object es) (.object fs))
    (name : String) : name ∈ es.map Prod.fst ↔ name ∈ fs.map Prod.fst := by
  rw [← lookup_isSome_iff, ← lookup_isSome_iff]
  have hname := h.entries hr name
  generalize es.lookup name = x at hname ⊢
  generalize fs.lookup name = y at hname ⊢
  cases hname <;> rfl

/-- Values that look alike fail alike. -/
theorem failures_eq (h : Resemblance o o' p r) (ht : t.Everywhere fun u => ∀ k, u = .leaf k → p k)
    (hr : r v w) : t.failures o v = t.failures o' w := by
  induction t generalizing v w with
  | leaf k =>
    have hk : p k := (everywhere_leaf.1 ht) k rfl
    rw [failures, failures, h.leaf hr hk]
  | object fields ih =>
    have hfields := (everywhere_object.1 ht).2
    rw [TypeExpr.failures_eq (by simp), TypeExpr.failures_eq (by simp)]
    by_cases hv : ∃ es, v = .object es
    · obtain ⟨es, rfl⟩ := hv
      obtain ⟨fs, rfl⟩ := Value.exists_object_of_kind (h.kind hr)
      have hcheck : checkFields o fields es = checkFields o' fields fs :=
        h.checkFields_eq (fun f hf v w hvw => by rw [check, check, ih f hf (hfields f hf) hvw]) hr
      rw [check_object, check_object, hcheck, Verdict.closed_congr_entries (h.mem_names_iff hr)]
    · have hw : ¬ ∃ fs, w = .object fs := by
        rintro ⟨fs, rfl⟩
        exact hv (Value.exists_object_of_kind (h.kind hr).symm)
      rw [check_object_of_ne (not_exists.1 hv), check_object_of_ne (not_exists.1 hw), wrongKind,
        wrongKind, h.kind hr]
  | array item ih =>
    have hitem := (everywhere_array.1 ht).2
    rw [TypeExpr.failures_eq (by simp), TypeExpr.failures_eq (by simp)]
    by_cases hv : ∃ vs, v = .array vs
    · obtain ⟨vs, rfl⟩ := hv
      obtain ⟨ws, rfl⟩ := Value.exists_array_of_kind (h.kind hr)
      have hcheck : List.Forall₂ (fun v w => item.check o v = item.check o' w) vs ws :=
        (h.items hr).imp fun v w hvw => by rw [check, check, ih hitem hvw]
      rw [check_array, check_array, Verdict.items_congr hcheck]
    · have hw : ¬ ∃ ws, w = .array ws := by
        rintro ⟨ws, rfl⟩
        exact hv (Value.exists_array_of_kind (h.kind hr).symm)
      rw [check_array_of_ne (not_exists.1 hv), check_array_of_ne (not_exists.1 hw), wrongKind,
        wrongKind, h.kind hr]
  | and l r ihl ihr =>
    have hsides := (everywhere_and.1 ht).2
    simp only [failures, ihl hsides.1 hr, ihr hsides.2 hr]
  | or l r ihl ihr =>
    have hsides := (everywhere_or.1 ht).2
    simp only [failures, ihl hsides.1 hr, ihr hsides.2 hr]
  | group content ih => simp only [failures, ih (everywhere_group.1 ht).2 hr]

theorem check_eq (h : Resemblance o o' p r) (ht : t.Everywhere fun u => ∀ k, u = .leaf k → p k)
    (hr : r v w) : t.check o v = t.check o' w := by
  rw [check, check, h.failures_eq ht hr]

end Resemblance

end StructuralTypes
