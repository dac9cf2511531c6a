import StructuralTypes.Check.Verdict
import StructuralTypes.Proofs.Subterm

namespace StructuralTypes

theorem lookup_isSome_iff {α : Type} {entries : List (String × α)} {name : String} :
    (entries.lookup name).isSome ↔ name ∈ entries.map Prod.fst := by
  rw [List.lookup_isSome_iff, List.mem_map]
  simp only [beq_iff_eq, @eq_comm _ name]

namespace Verdict

theorem seq_eq_ok {x y : Verdict} : (do x; y) = .ok () ↔ x = .ok () ∧ y = .ok () := by
  cases x <;> simp [bind, Except.bind]

theorem mapError_eq_ok {x : Verdict} {f : Mismatch → Mismatch} :
    x.mapError f = .ok () ↔ x = .ok () := by
  cases x with
  | error e =>
    change Except.error (f e) = .ok () ↔ _
    simp
  | ok a => exact Iff.rfl

theorem items_eq_ok {check : Value → Verdict} {index : Nat} {vs : List Value} :
    items check index vs = .ok () ↔ ∀ v ∈ vs, check v = .ok () := by
  induction vs generalizing index with
  | nil => simp [items]
  | cons v vs ih => rw [items, seq_eq_ok, mapError_eq_ok, ih, List.forall_mem_cons]

theorem closed_eq_ok {fields : List (Field TypeExpr)} {entries : List (String × Value)} :
    closed fields entries = .ok () ↔ ∀ e ∈ entries, ∃ f ∈ fields, f.name = e.1 := by
  have hleast (names : List String) : least? names = none ↔ names = [] := by
    cases names <;> simp [least?]
  have hclosed : closed fields entries = .ok () ↔ least? ((entries.map Prod.fst).filter fun name =>
      !fields.any (·.name == name)) = none := by
    unfold closed
    split
    · next h => simp only [h, reduceCtorEq]
    · next h => simp only [h]
  rw [hclosed, hleast]
  simp [List.filter_eq_nil_iff]

end Verdict

namespace TypeExpr

variable {o : Options} {v : Value} {t l r : TypeExpr}

theorem verdict_failures (h : ∀ l r, t ≠ .or l r) (w : Verdict) : t.verdict w.failures = w := by
  cases t with
  | or l r => exact absurd rfl (h l r)
  | _ => cases w <;> rfl

theorem check_of_failures {w : Verdict} (h : ∀ l r, t ≠ .or l r)
    (hw : t.failures o v = w.failures) : t.check o v = w := by
  rw [check, hw, verdict_failures h]

theorem failures_eq (h : ∀ l r, t ≠ .or l r) : t.failures o v = (t.check o v).failures := by
  obtain ⟨w, hw⟩ : ∃ w : Verdict, t.failures o v = w.failures := by
    cases t with
    | or l r => exact absurd rfl (h l r)
    | _ => cases v <;> simp only [failures] <;> exact ⟨_, rfl⟩
  rw [check_of_failures h hw, hw]

theorem check_leaf {k : Leaf} : (leaf k).check o v = k.check o v :=
  check_of_failures (by simp) rfl

theorem check_object {fields : List (Field TypeExpr)} {entries : List (String × Value)} :
    (object fields).check o (.object entries) =
      (do checkFields o fields entries; Verdict.closed fields entries) :=
  check_of_failures (by simp) rfl

theorem check_object_of_ne {fields : List (Field TypeExpr)} (h : ∀ entries, v ≠ .object entries) :
    (object fields).check o v = wrongKind (.object fields) v :=
  check_of_failures (by simp) (by rw [failures]; exact h)

theorem check_array {vs : List Value} :
    (array t).check o (.array vs) = Verdict.items (t.check o) 0 vs :=
  check_of_failures (by simp) rfl

theorem check_array_of_ne (h : ∀ vs, v ≠ .array vs) :
    (array t).check o v = wrongKind (.array t) v :=
  check_of_failures (by simp) (by rw [failures]; exact h)

/-- The second side is checked only where the first matches. -/
theorem check_and : (and l r).check o v = (do l.check o v; r.check o v) :=
  check_of_failures (by simp) rfl

theorem check_group : (group t).check o v = t.check o v :=
  check_of_failures (by simp) rfl

theorem check_eq_ok_iff : t.check o v = .ok () ↔ t.failures o v = none := by
  unfold check verdict
  cases t.failures o v with
  | none => simp
  | some failures => cases t <;> simp

theorem check_leaf_eq_ok {k : Leaf} : (leaf k).check o v = .ok () ↔ k.accepts o v := by
  rw [check_leaf, Leaf.check]
  split
  · next h => simp [h]
  · next h => split <;> simp [h]

theorem checkFields_eq_ok {fields : List (Field TypeExpr)} {entries : List (String × Value)} :
    checkFields o fields entries = .ok () ↔ ∀ f ∈ fields, match entries.lookup f.name with
      | some v => f.type.check o v = .ok ()
      | none => f.optional := by
  induction fields with
  | nil => simp [checkFields]
  | cons f fields ih =>
    rw [checkFields, List.forall_mem_cons, ← ih]
    cases entries.lookup f.name with
    | none => cases f.optional <;> simp [bind, Except.bind]
    | some v => exact Verdict.seq_eq_ok.trans (and_congr_left fun _ => Verdict.mapError_eq_ok)

theorem check_object_eq_ok {fields : List (Field TypeExpr)} :
    (object fields).check o v = .ok () ↔ ∃ entries, v = .object entries ∧
      (∀ f ∈ fields, match entries.lookup f.name with
        | some v => f.type.check o v = .ok ()
        | none => f.optional) ∧ ∀ e ∈ entries, ∃ f ∈ fields, f.name = e.1 := by
  cases v with
  | object entries =>
    simp [check_object, Verdict.seq_eq_ok, checkFields_eq_ok, Verdict.closed_eq_ok]
  | _ => simp [check_object_of_ne, wrongKind]

theorem check_array_eq_ok : (array t).check o v = .ok () ↔
    ∃ vs, v = .array vs ∧ ∀ w ∈ vs, t.check o w = .ok () := by
  cases v with
  | array items => simp [check_array, Verdict.items_eq_ok]
  | _ => simp [check_array_of_ne, wrongKind]

theorem check_and_eq_ok :
    (and l r).check o v = .ok () ↔ l.check o v = .ok () ∧ r.check o v = .ok () := by
  rw [check_and, Verdict.seq_eq_ok]

theorem check_or_eq_ok :
    (or l r).check o v = .ok () ↔ l.check o v = .ok () ∨ r.check o v = .ok () := by
  simp only [check_eq_ok_iff, failures]
  cases l.failures o v <;> cases r.failures o v <;> simp

theorem check_group_eq_ok : (group t).check o v = .ok () ↔ t.check o v = .ok () := by
  rw [check_group]

end TypeExpr

end StructuralTypes
