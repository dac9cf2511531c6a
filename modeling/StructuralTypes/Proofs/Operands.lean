import Mathlib.Data.List.Forall2
import StructuralTypes.Proofs.Acceptance
import StructuralTypes.Proofs.Grouping

namespace StructuralTypes

namespace Verdict

variable {α : Type} {check : α → Verdict} {x y : Verdict} {e : Mismatch}

theorem seq_eq_error :
    (do x; y : Verdict) = .error e ↔ x = .error e ∨ x = .ok () ∧ y = .error e := by
  cases x <;> simp [bind, Except.bind]

theorem mapError_eq_error {f : Mismatch → Mismatch} :
    x.mapError f = .error e ↔ ∃ cause, x = .error cause ∧ e = f cause := by
  cases x with
  | error cause =>
    change Except.error (f cause) = .error e ↔ _
    simp [eq_comm]
  | ok a =>
    change Except.ok a = .error e ↔ _
    simp

theorem forM_eq_ok {as : List α} : forM as check = .ok () ↔ ∀ a ∈ as, check a = .ok () := by
  induction as with
  | nil => simp [pure, Except.pure]
  | cons a as ih =>
    rw [List.forM_cons, seq_eq_ok, ih, List.forall_mem_cons]

/-- Of several checks the first that fails is the verdict. -/
theorem forM_eq_error {as : List α} : forM as check = .error e ↔ ∃ before a after,
    as = before ++ a :: after ∧ (∀ b ∈ before, check b = .ok ()) ∧ check a = .error e := by
  induction as with
  | nil => simp [pure, Except.pure]
  | cons a as ih =>
    rw [List.forM_cons, seq_eq_error, ih]
    constructor
    · rintro (h | ⟨h, before, b, after, rfl, hbefore, hb⟩)
      · exact ⟨[], a, as, rfl, by simp, h⟩
      · exact ⟨a :: before, b, after, rfl, List.forall_mem_cons.2 ⟨h, hbefore⟩, hb⟩
    · rintro ⟨before, b, after, heq, hbefore, hb⟩
      cases before with
      | nil =>
        cases heq
        exact .inl hb
      | cons c before =>
        cases heq
        rw [List.forall_mem_cons] at hbefore
        exact .inr ⟨hbefore.1, before, b, after, rfl, hbefore.2, hb⟩

theorem items_eq_forM {check : Value → Verdict} {vs : List Value} {index : Nat} :
    items check index vs =
      forM (vs.zipIdx index) fun (w, i) => (check w).mapError (.atIndex i) := by
  induction vs generalizing index with
  | nil => rfl
  | cons w vs ih => rw [items, ih, List.zipIdx_cons, List.forM_cons]

theorem items_eq_error {check : Value → Verdict} {vs : List Value} :
    items check 0 vs = .error e ↔ ∃ before w after cause, vs = before ++ w :: after ∧
      (∀ u ∈ before, check u = .ok ()) ∧ check w = .error cause ∧
      e = .atIndex before.length cause := by
  rw [items_eq_forM, forM_eq_error]
  constructor
  · rintro ⟨_, ⟨w, i⟩, after, hsplit, hbefore, hw⟩
    obtain ⟨before, rest, rfl, rfl, hrest⟩ := List.zipIdx_eq_append_iff.1 hsplit
    obtain ⟨w', after, rfl, heq, -⟩ := List.zipIdx_eq_cons_iff.1 hrest.symm
    cases heq
    obtain ⟨cause, hcause, rfl⟩ := mapError_eq_error.1 hw
    refine ⟨before, w, after, cause, rfl, fun u hu => ?_, hcause, by rw [Nat.zero_add]⟩
    obtain ⟨i, hi, rfl⟩ := List.getElem_of_mem hu
    exact mapError_eq_ok.1 (hbefore (before[i], i) (List.mem_zipIdx_iff_getElem?.2 (by simp [hi])))
  · rintro ⟨before, w, after, cause, rfl, hbefore, hw, rfl⟩
    refine ⟨before.zipIdx, (w, before.length), after.zipIdx (before.length + 1), ?_, ?_, ?_⟩
    · rw [List.zipIdx_append, List.zipIdx_cons, Nat.zero_add]
    · rintro ⟨u, k⟩ hu
      exact mapError_eq_ok.2 (hbefore u (List.fst_mem_of_mem_zipIdx hu))
    · exact mapError_eq_error.2 ⟨cause, hw, rfl⟩

end Verdict

namespace TypeExpr

variable {o : Options} {v : Value} {t l r : TypeExpr} {e : Mismatch}

/-- The operands of a chain of `&` are checked in turn. -/
theorem check_eq_forM : t.check o v = forM (t.chain .and) fun u => u.check o v := by
  induction t using chain_induct .and with
  | join l r ihl ihr => rw [chain_join, Connective.join_and, check_and, ihl, ihr, List.forM_append]
  | operand t ht =>
    rw [ht, List.forM_cons, List.forM_nil]
    cases t.check o v <;> rfl

theorem check_eq_ok_iff_alternatives :
    t.check o v = .ok () ↔ ∃ u ∈ t.chain .or, u.check o v = .ok () := by
  induction t using chain_induct .or with
  | join l r ihl ihr =>
    rw [chain_join, Connective.join_or, check_or_eq_ok, ihl, ihr]
    simp only [List.mem_append, or_and_right, exists_or]
  | operand t ht => simp [ht]

/-- What is wrong with each alternative is said in the order of the alternatives. -/
theorem forall₂_of_failures {fs : Failures} (h : t.failures o v = some fs) :
    List.Forall₂ (fun u cause => u.check o v = .error cause) (t.chain .or) fs.toList := by
  induction t using chain_induct .or generalizing fs with
  | join l r ihl ihr =>
    rw [Connective.join_or, failures] at h
    obtain ⟨f, hf, h⟩ := Option.bind_eq_some_iff.1 h
    obtain ⟨g, hg, h⟩ := Option.bind_eq_some_iff.1 h
    cases h
    rw [chain_join]
    exact List.rel_append (ihl hf) (ihr hg)
  | operand t ht =>
    rw [ht]
    rw [failures_eq fun _ _ => ne_join_of_chain ht] at h
    cases hcheck : t.check o v with
    | ok => simp [hcheck, Verdict.failures] at h
    | error cause =>
      rw [hcheck] at h
      cases h
      exact .cons hcheck .nil

theorem check_or_eq_error : (or l r).check o v = .error e ↔ ∃ causes,
    e = .noAlternative ((or l r).text .compact) causes ∧
      List.Forall₂ (fun u cause => u.check o v = .error cause) ((or l r).chain .or) causes := by
  rw [check]
  cases h : (or l r).failures o v with
  | none =>
    constructor
    · intro herror
      cases herror
    · rintro ⟨causes, -, hcauses⟩
      obtain ⟨u, hu, hok⟩ := check_eq_ok_iff_alternatives.1 (check_eq_ok_iff.2 h)
      obtain ⟨i, hi, rfl⟩ := List.getElem_of_mem hu
      cases hok.symm.trans (hcauses.get hi (hcauses.length_eq ▸ hi))
  | some fs =>
    have hfs := forall₂_of_failures h
    constructor
    · intro herror
      cases herror
      exact ⟨fs.toList, rfl, hfs⟩
    · rintro ⟨causes, rfl, hcauses⟩
      have hunique : Relator.RightUnique fun (u : TypeExpr) cause => u.check o v = .error cause :=
        fun _ _ _ h h' => Except.error.inj (h.symm.trans h')
      rw [hunique.forall₂ hcauses hfs]
      rfl

end TypeExpr
end StructuralTypes
