import StructuralTypes.Proofs.NormalForm

namespace StructuralTypes

namespace Distributing

variable {α β : Type} {x : Distributing α} {f : α → Distributing β}

/-- The computation fails, if at all, because it makes too many alternatives. -/
def OnlyOverruns (x : Distributing α) : Prop :=
  ∀ made e, x made = .error e → e = .tooManyAlternatives maxAlternatives

theorem onlyOverruns_pure (a : α) : OnlyOverruns (pure a) :=
  nofun

theorem OnlyOverruns.bind (hx : OnlyOverruns x) (hf : ∀ a, Gives x a → OnlyOverruns (f a)) :
    OnlyOverruns (x >>= f) := by
  intro made e h
  change (x made >>= fun p => f p.1 p.2) = _ at h
  cases hmade : x made with
  | error e' =>
    rw [hmade] at h
    cases h
    exact hx made e hmade
  | ok p =>
    rw [hmade] at h
    exact hf p.1 ⟨made, p.2, hmade⟩ p.2 e h

theorem OnlyOverruns.map {g : α → β} (hx : OnlyOverruns x) : OnlyOverruns (g <$> x) := by
  rw [← bind_pure_comp]
  exact hx.bind fun a _ => onlyOverruns_pure (g a)

theorem onlyOverruns_mapM {as : List α} (h : ∀ a ∈ as, OnlyOverruns (f a)) :
    OnlyOverruns (as.mapM f) := by
  induction as with
  | nil => exact onlyOverruns_pure []
  | cons a as ih =>
    rw [List.forall_mem_cons] at h
    rw [List.mapM_cons]
    exact h.1.bind fun b _ => (ih h.2).bind fun bs _ => onlyOverruns_pure _

end Distributing

namespace TypeExpr

open Distributing

variable {bare k : Nat} {l r m t u : TypeExpr} {fs gs hs : List (Field TypeExpr)}

theorem levels_and_le : (and l r).levels bare ≤ k ↔ l.levels bare ≤ k ∧ r.levels bare ≤ k :=
  Nat.max_le

theorem levels_or_le : (or l r).levels bare ≤ k ↔ l.levels bare ≤ k ∧ r.levels bare ≤ k :=
  Nat.max_le

theorem levels_regroup_le : t.regroup.levels bare ≤ k ↔ t.levels bare ≤ k := by
  induction t generalizing k with
  | leaf l => rfl
  | object fields ih =>
    simp only [regroup, regroupFields_eq_map, levels, fieldLevels_le, List.forall_mem_map]
    refine and_congr_right fun _ => forall₂_congr fun f hf => ?_
    cases k with
    | zero => simp
    | succ k => simpa using ih f hf
  | array item ih =>
    rw [regroup, levels, levels]
    cases k with
    | zero => simp
    | succ k => simpa using ih
  | and l r ihl ihr =>
    rw [regroup, joinChain_iff .and (p := fun t => t.levels bare ≤ k)
      fun _ _ => levels_and_le, ihl, ihr, levels_and_le]
  | or l r ihl ihr =>
    rw [regroup, joinChain_iff .or (p := fun t => t.levels bare ≤ k)
      fun _ _ => levels_or_le, ihl, ihr, levels_or_le]
  | group content ih =>
    rw [regroup, levels, levels]
    cases k with
    | zero => simp
    | succ k => simpa using ih

theorem fieldLevels_le_of_fields? (h : t.fields? = some fs) :
    fieldLevels bare fs ≤ t.levels bare := by
  induction t with
  | object fields =>
    cases h
    exact Nat.le_refl _
  | group content ih => exact Nat.le_succ_of_le (ih h)
  | _ => cases h

theorem levels_le_of_mem_alternatives (h : u ∈ t.alternatives) : u.levels bare ≤ t.levels bare := by
  fun_induction alternatives t with
  | case1 l r ihl ihr =>
    have hsides := levels_or_le.1 (Nat.le_refl ((or l r).levels bare))
    rcases List.mem_append.1 h with h | h
    · exact Nat.le_trans (ihl h) hsides.1
    · exact Nat.le_trans (ihr h) hsides.2
  | case2 content hu ih => exact Nat.le_succ_of_le (ih h)
  | case3 content hu => exact List.mem_singleton.1 h ▸ Nat.le_refl _
  | case4 t => exact List.mem_singleton.1 h ▸ Nat.le_refl _

theorem levels_unionOf_le {ms : List TypeExpr} (hm : unionOf ms = some m)
    (h : ∀ t ∈ ms, t.levels bare ≤ k) : m.levels bare ≤ k := by
  cases ms with
  | nil => cases hm
  | cons t ts =>
    rw [unionOf, Option.some_inj] at hm
    rw [← hm, foldl_iff (p := fun t => t.levels bare ≤ k) fun _ _ => levels_or_le]
    exact List.forall_mem_cons.1 h

/-- An intersection nests no deeper than the deeper of its sides. -/
theorem meetClosed_levels : MeetClosed fun l r m =>
    ∀ k, l.levels bare ≤ k → r.levels bare ≤ k → m.levels bare ≤ k := by
  refine ⟨fun _ _ _ k hl hr => ?_, fun hl hr h k hlk hrk => ?_, fun hms hm k hl hr => ?_⟩
  · exact levels_and_le.2 ⟨hl, hr⟩
  · have hfs := fieldLevels_le.1 (Nat.le_trans (fieldLevels_le_of_fields? hl) hlk)
    have hgs := fieldLevels_le.1 (Nat.le_trans (fieldLevels_le_of_fields? hr) hrk)
    refine fieldLevels_le.2 ⟨hfs.1, Merges.of_forall (p := fun t => t.levels bare + 1 ≤ k)
      (h.imp fun l r m hm hl hr => ?_) hfs.2 hgs.2⟩
    have := hm (k - 1) (by omega) (by omega)
    omega
  · refine levels_unionOf_le hm (forall_mem_of_forall₂ hms fun q hq m hm => ?_)
    have hq := mem_alternativePairs.1 hq
    exact hm k (Nat.le_trans (levels_le_of_mem_alternatives hq.1) hl)
      (Nat.le_trans (levels_le_of_mem_alternatives hq.2) hr)

theorem levels_le_of_meet {n : Nat} (h : Gives (meet n l r) m) (hl : l.levels bare ≤ k)
    (hr : r.levels bare ≤ k) : m.levels bare ≤ k :=
  meetClosed_levels.of_gives h k hl hr

/-- A normal form nests no deeper than the type. -/
theorem levels_le_of_normalizeWithin {n : Nat} (h : Gives (normalizeWithin n t) u) :
    u.levels bare ≤ t.levels bare := by
  refine normalizeWithin_induction (q := fun t u => u.levels bare ≤ t.levels bare) ?_ ?_ ?_ ?_ ?_
    ?_ h
  · exact fun _ => Nat.le_refl _
  · intro fs gs hfg
    have hfs := fieldLevels_le.1 (Nat.le_refl (fieldLevels bare fs))
    rw [levels, levels]
    refine fieldLevels_le.2 ⟨hfs.1, forall_mem_of_forall₂ hfg fun f hf g hg => ?_⟩
    have := hfs.2 f hf
    have := hg.2.2
    omega
  · exact fun _ _ hu => Nat.succ_le_succ hu
  · intro n l r l' r' m hl hr hm
    rw [levels]
    exact levels_le_of_meet hm (by omega) (by omega)
  · intro l r l' r' hl hr
    rw [levels, levels]
    omega
  · exact fun _ _ hu => Nat.succ_le_succ hu

theorem levels_one_le : t.levels 1 ≤ t.levels 0 + 1 := by
  induction t with
  | leaf l => exact Nat.zero_le _
  | object fields ih =>
    have hfields := fieldLevels_le.1 (Nat.le_refl (fieldLevels 0 fields))
    refine fieldLevels_le.2 ⟨Nat.le_add_left _ _, fun f hf => ?_⟩
    have := ih f hf
    have := hfields.2 f hf
    rw [levels]
    omega
  | array item ih => exact Nat.succ_le_succ ih
  | and l r ihl ihr =>
    rw [levels, levels]
    omega
  | or l r ihl ihr =>
    rw [levels, levels]
    omega
  | group content ih => exact Nat.succ_le_succ ih

section

variable {meet' : TypeExpr → TypeExpr → Distributing TypeExpr} {n : Nat}

theorem onlyOverruns_spend (n : Nat) : OnlyOverruns (spend n) := by
  intro made e h
  rw [spend_apply] at h
  split at h
  · cases h
  · cases h
    rfl

theorem onlyOverruns_descend (h : 0 < n) : OnlyOverruns (descend n) := by
  cases n with
  | zero => simp at h
  | succ n => exact onlyOverruns_pure n

theorem onlyOverruns_distribute
    (h : ∀ l r, l.levels 1 ≤ n → r.levels 1 ≤ n → OnlyOverruns (meet' l r)) (hl : l.levels 1 ≤ n)
    (hr : r.levels 1 ≤ n) : OnlyOverruns (distribute meet' l r) := by
  unfold distribute
  split
  · exact h l r hl hr
  · refine (onlyOverruns_spend _).bind fun _ _ => ?_
    refine (onlyOverruns_mapM fun q hq => ?_).bind fun _ _ => onlyOverruns_pure _
    have hq := mem_alternativePairs.1 hq
    exact h q.1 q.2 (Nat.le_trans (levels_le_of_mem_alternatives hq.1) hl)
      (Nat.le_trans (levels_le_of_mem_alternatives hq.2) hr)

theorem onlyOverruns_mergeField
    (h : ∀ l r, l.levels 1 ≤ n → r.levels 1 ≤ n → OnlyOverruns (meet' l r)) {g : Field TypeExpr}
    (hfs : ∀ f ∈ fs, f.type.levels 1 ≤ n) (hg : g.type.levels 1 ≤ n) :
    OnlyOverruns (mergeField meet' g fs) := by
  induction fs with
  | nil => exact onlyOverruns_pure _
  | cons f fs ih =>
    rw [List.forall_mem_cons] at hfs
    rw [mergeField]
    split
    · exact (h _ _ hfs.1 hg).bind fun _ _ => onlyOverruns_pure _
    · exact (ih hfs.2).bind fun _ _ => onlyOverruns_pure _

/-- Fields that come of merging may be merged again, since they nest no deeper. -/
theorem onlyOverruns_mergeFields
    (h : ∀ l r, l.levels 1 ≤ n → r.levels 1 ≤ n → OnlyOverruns (meet' l r))
    (hmeet : ∀ l r m, Gives (meet' l r) m → l.levels 1 ≤ n → r.levels 1 ≤ n → m.levels 1 ≤ n)
    (hfs : ∀ f ∈ fs, f.type.levels 1 ≤ n) (hgs : ∀ g ∈ gs, g.type.levels 1 ≤ n) :
    OnlyOverruns (mergeFields meet' fs gs) := by
  unfold mergeFields
  induction gs generalizing fs with
  | nil => exact onlyOverruns_pure fs
  | cons g gs ih =>
    rw [List.forall_mem_cons] at hgs
    rw [List.foldlM_cons]
    refine (onlyOverruns_mergeField h hfs hgs.1).bind fun hs hhs => ih ?_ hgs.2
    exact (mergesField_of_gives hmeet hhs).of_forall (p := fun t => t.levels 1 ≤ n) hgs.1 hfs

theorem onlyOverruns_meetAlternatives
    {merge : List (Field TypeExpr) → List (Field TypeExpr) → Distributing (List (Field TypeExpr))}
    (h : ∀ fs gs, l.fields? = some fs → r.fields? = some gs → OnlyOverruns (merge fs gs)) :
    OnlyOverruns (meetAlternatives merge l r) := by
  unfold meetAlternatives
  split
  · next hfs hgs => exact (h _ _ hfs hgs).map
  · exact onlyOverruns_pure _

theorem onlyOverruns_meet (hl : l.levels 1 ≤ n) (hr : r.levels 1 ≤ n) :
    OnlyOverruns (meet n l r) := by
  induction n generalizing l r with
  | zero =>
    refine onlyOverruns_distribute (fun l r hl hr => ?_) hl hr
    apply onlyOverruns_meetAlternatives
    intro fs gs hfs _
    -- an object has a level of its own, so none is merged here
    have := fieldLevels_le.1 (Nat.le_trans (fieldLevels_le_of_fields? hfs) hl)
    omega
  | succ n ih =>
    refine onlyOverruns_distribute (fun l r hl hr => ?_) hl hr
    apply onlyOverruns_meetAlternatives
    intro fs gs hfs hgs
    have hfs := fieldLevels_le.1 (Nat.le_trans (fieldLevels_le_of_fields? hfs) hl)
    have hgs := fieldLevels_le.1 (Nat.le_trans (fieldLevels_le_of_fields? hgs) hr)
    exact onlyOverruns_mergeFields (fun _ _ => ih)
      (fun _ _ _ hm hl hr => levels_le_of_meet hm hl hr)
      (fun f hf => Nat.le_of_succ_le_succ (hfs.2 f hf))
      fun g hg => Nat.le_of_succ_le_succ (hgs.2 g hg)

theorem onlyOverruns_normalizeFields
    (h : ∀ f ∈ fs, OnlyOverruns (normalizeWithin n f.type)) :
    OnlyOverruns (normalizeFields n fs) := by
  induction fs with
  | nil => exact onlyOverruns_pure []
  | cons f fs ih =>
    rw [List.forall_mem_cons] at h
    rw [normalizeFields]
    exact h.1.bind fun _ _ => (ih h.2).bind fun _ _ => onlyOverruns_pure _

/-- A type with no more levels than may be descended is normalized, or makes too many
alternatives. -/
theorem onlyOverruns_normalizeWithin (h : t.levels 1 ≤ n) : OnlyOverruns (normalizeWithin n t) := by
  induction t generalizing n with
  | leaf l => exact onlyOverruns_pure _
  | object fields ih =>
    have hfields := fieldLevels_le.1 h
    refine (onlyOverruns_descend hfields.1).bind fun k hk => ?_
    have := gives_descend hk
    refine (onlyOverruns_normalizeFields fun f hf => ih f hf ?_).bind fun _ _ => onlyOverruns_pure _
    have := hfields.2 f hf
    omega
  | array item ih =>
    rw [levels] at h
    refine (onlyOverruns_descend (by omega)).bind fun k hk => ?_
    have := gives_descend hk
    exact (ih (by omega)).bind fun _ _ => onlyOverruns_pure _
  | and l r ihl ihr =>
    rw [levels_and_le] at h
    refine (ihl h.1).bind fun l' hl => (ihr h.2).bind fun r' hr => ?_
    exact onlyOverruns_meet (Nat.le_trans (levels_le_of_normalizeWithin hl) h.1)
      (Nat.le_trans (levels_le_of_normalizeWithin hr) h.2)
  | or l r ihl ihr =>
    rw [levels_or_le] at h
    exact (ihl h.1).bind fun _ _ => (ihr h.2).bind fun _ _ => onlyOverruns_pure _
  | group content ih =>
    rw [levels] at h
    refine (onlyOverruns_descend (by omega)).bind fun k hk => ?_
    have := gives_descend hk
    exact (ih (by omega)).bind fun _ _ => onlyOverruns_pure _

theorem eq_tooManyAlternatives_of_normalize (h : t.levels 1 ≤ maxLevels) {e : ReadError}
    (he : normalize t = .error e) : e = .tooManyAlternatives maxAlternatives := by
  unfold normalize StateT.run' at he
  cases hx : (normalizeWithin maxLevels t.regroup) 0 with
  | error e' =>
    rw [hx] at he
    cases he
    exact onlyOverruns_normalizeWithin (levels_regroup_le.2 h) 0 e hx
  | ok p =>
    rw [hx] at he
    cases he

end

end TypeExpr

end StructuralTypes
