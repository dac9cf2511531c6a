import StructuralTypes.Proofs.Distributing

namespace StructuralTypes

namespace Distributing

variable {α β : Type} {x : Distributing α} {f : α → Distributing β} {a b : α}

/-- From a smaller count the computation gives the same result, and ends with a count no greater. -/
def Steady (x : Distributing α) : Prop :=
  ∀ made a after, x made = .ok (a, after) →
    ∀ made' ≤ made, ∃ after' ≤ after, x made' = .ok (a, after')

theorem steady_pure (a : α) : Steady (pure a) := by
  intro made b after h made' hle
  cases h
  exact ⟨made', hle, rfl⟩

theorem steady_throw (e : ReadError) : Steady (throw e : Distributing α) := by
  intro made a after h
  cases h

theorem Steady.bind (hx : Steady x) (hf : ∀ a, Steady (f a)) : Steady (x >>= f) := by
  intro made b after h made' hle
  change (x made >>= fun p => f p.1 p.2) = _ at h
  cases hmade : x made with
  | error e => simp [hmade, Bind.bind, Except.bind] at h
  | ok p =>
    rw [hmade] at h
    obtain ⟨between, hbetween, hx'⟩ := hx made p.1 p.2 hmade made' hle
    obtain ⟨after', hafter, hf'⟩ := hf p.1 p.2 b after h between hbetween
    refine ⟨after', hafter, ?_⟩
    change (x made' >>= fun p => f p.1 p.2) = _
    rw [hx']
    exact hf'

theorem Steady.map {g : α → β} (hx : Steady x) : Steady (g <$> x) := by
  rw [← bind_pure_comp]
  exact hx.bind fun a => steady_pure (g a)

theorem steady_mapM (h : ∀ a, Steady (f a)) (as : List α) : Steady (as.mapM f) := by
  induction as with
  | nil => exact steady_pure []
  | cons a as ih =>
    rw [List.mapM_cons]
    exact (h a).bind fun b => ih.bind fun bs => steady_pure _

theorem steady_foldlM {g : β → α → Distributing β} (h : ∀ b a, Steady (g b a)) (as : List α)
    (b : β) : Steady (as.foldlM g b) := by
  induction as generalizing b with
  | nil => exact steady_pure b
  | cons a as ih =>
    rw [List.foldlM_cons]
    exact (h b a).bind ih

/-- What the computation may give is what it gives with nothing made before. -/
theorem Steady.gives_iff (hx : Steady x) : Gives x a ↔ x.run' 0 = .ok a := by
  constructor
  · rintro ⟨made, after, h⟩
    obtain ⟨after', -, h⟩ := hx made a after h 0 (Nat.zero_le made)
    rw [StateT.run', h]
    rfl
  · exact gives_of_run'

end Distributing

namespace TypeExpr

open Distributing

variable {meet' : TypeExpr → TypeExpr → Distributing TypeExpr} {t n : TypeExpr}

theorem steady_spend (k : Nat) : Steady (spend k) := by
  intro made a after h made' hle
  rw [spend_apply] at h
  split at h
  · next hmade =>
    cases h
    refine ⟨made' + k, by omega, ?_⟩
    rw [spend_apply, if_pos (by omega)]
  · cases h

theorem steady_descend (k : Nat) : Steady (descend k) := by
  cases k with
  | zero => exact steady_throw _
  | succ k => exact steady_pure k

theorem steady_distribute (h : ∀ l r, Steady (meet' l r)) (l r : TypeExpr) :
    Steady (distribute meet' l r) := by
  unfold distribute
  split
  · exact h l r
  · apply (steady_spend _).bind
    intro _
    exact (steady_mapM (fun p : TypeExpr × TypeExpr => h p.1 p.2) _).bind fun _ => steady_pure _

theorem steady_meetAlternatives
    {merge : List (Field TypeExpr) → List (Field TypeExpr) → Distributing (List (Field TypeExpr))}
    (h : ∀ fs gs, Steady (merge fs gs)) (l r : TypeExpr) : Steady (meetAlternatives merge l r) := by
  unfold meetAlternatives
  split
  · exact (h _ _).map
  · exact steady_pure _

theorem steady_mergeField (h : ∀ l r, Steady (meet' l r)) (g : Field TypeExpr)
    (fs : List (Field TypeExpr)) : Steady (mergeField meet' g fs) := by
  induction fs with
  | nil => exact steady_pure [g]
  | cons f fs ih =>
    rw [mergeField]
    split
    · exact (h _ _).bind fun _ => steady_pure _
    · exact ih.bind fun _ => steady_pure _

theorem steady_mergeFields (h : ∀ l r, Steady (meet' l r)) (fs gs : List (Field TypeExpr)) :
    Steady (mergeFields meet' fs gs) :=
  steady_foldlM (fun merged g => steady_mergeField h g merged) gs fs

theorem steady_meet (k : Nat) (l r : TypeExpr) : Steady (meet k l r) := by
  induction k generalizing l r with
  | zero => exact steady_distribute (steady_meetAlternatives fun _ _ => steady_throw _) l r
  | succ k ih => exact steady_distribute (steady_meetAlternatives (steady_mergeFields ih)) l r

theorem steady_normalizeFields {k : Nat} {fs : List (Field TypeExpr)}
    (h : ∀ f ∈ fs, Steady (normalizeWithin k f.type)) : Steady (normalizeFields k fs) := by
  induction fs with
  | nil => exact steady_pure []
  | cons f fs ih =>
    rw [List.forall_mem_cons] at h
    rw [normalizeFields]
    exact h.1.bind fun _ => (ih h.2).bind fun _ => steady_pure _

theorem steady_normalizeWithin (k : Nat) (t : TypeExpr) : Steady (normalizeWithin k t) := by
  induction t generalizing k with
  | leaf l => exact steady_pure _
  | object fields ih =>
    apply (steady_descend k).bind
    intro k
    exact (steady_normalizeFields fun f hf => ih f hf k).bind fun _ => steady_pure _
  | array item ih => exact (steady_descend k).bind fun k => (ih k).bind fun _ => steady_pure _
  | and l r ihl ihr => exact (ihl k).bind fun l' => (ihr k).bind fun r' => steady_meet k l' r'
  | or l r ihl ihr => exact (ihl k).bind fun _ => (ihr k).bind fun _ => steady_pure _
  | group content ih => exact (steady_descend k).bind fun k => (ih k).bind fun _ => steady_pure _

/-- A part of a type that has a normal form has one on its own. -/
theorem normalize_eq_ok_iff : normalize t = .ok n ↔ Gives (normalizeWithin maxLevels t.regroup) n :=
  (steady_normalizeWithin maxLevels t.regroup).gives_iff.symm

end TypeExpr

end StructuralTypes
