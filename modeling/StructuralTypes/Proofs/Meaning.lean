import StructuralTypes.Proofs.Equivalence
import StructuralTypes.Proofs.NormalForm

namespace StructuralTypes.TypeExpr

open Distributing

variable {o : Options} {t l r m : TypeExpr} {fs gs hs : List (Field TypeExpr)}

theorem equivalent_ungrouped : Equivalent o t t.ungrouped := by
  induction t with
  | group content ih => exact equivalent_group.trans ih
  | _ => exact .refl _

theorem equivalent_of_fields? (h : t.fields? = some fs) : Equivalent o t (.object fs) := by
  have hu := equivalent_ungrouped (o := o) (t := t)
  unfold fields? at h
  split at h
  · next hobject =>
    cases h
    rwa [hobject] at hu
  · cases h

theorem acceptsAll_unionOf {ms : List TypeExpr} (h : unionOf ms = some m) (ts us : List TypeExpr)
    (v : Value) : AcceptsAll o (ts ++ m :: us) v ↔ ∃ t ∈ ms, AcceptsAll o (ts ++ t :: us) v := by
  cases ms with
  | nil => cases h
  | cons t ms =>
    rw [unionOf, Option.some_inj] at h
    subst h
    induction ms generalizing t with
    | nil => simp
    | cons u ms ih =>
      rw [List.foldl_cons, ih, List.exists_mem_cons_iff, acceptsAll_or]
      simp [or_assoc]

theorem exists_mem_iff_of_forall₂ {α β : Type} {r : α → β → Prop} {p : α → Prop} {q : β → Prop}
    {as : List α} {bs : List β} (h : List.Forall₂ r as bs)
    (hpq : ∀ a ∈ as, ∀ b, r a b → (p a ↔ q b)) : (∃ a ∈ as, p a) ↔ ∃ b ∈ bs, q b := by
  induction h with
  | nil => simp
  | cons hab _ ih =>
    rw [List.forall_mem_cons] at hpq
    rw [List.exists_mem_cons_iff, List.exists_mem_cons_iff, hpq.1 _ hab, ih hpq.2]

/-- An intersection of unions is the union of the intersections of their alternatives. -/
theorem acceptsAll_alternativePairs (ts us : List TypeExpr) (v : Value) :
    AcceptsAll o (ts ++ .and l r :: us) v ↔
      ∃ q ∈ alternativePairs l r, AcceptsAll o (ts ++ .and q.1 q.2 :: us) v := by
  have hright (a : TypeExpr) : AcceptsAll o (ts ++ a :: r :: us) v ↔
      ∃ b ∈ r.alternatives, AcceptsAll o (ts ++ a :: b :: us) v := by
    have h : AcceptsAll o ((ts ++ [a]) ++ r :: us) v ↔ _ := acceptsAll_alternatives
    simpa using h
  simp only [acceptsAll_and, mem_alternativePairs, Prod.exists, and_assoc]
  rw [acceptsAll_alternatives]
  simp only [hright, exists_and_left]

theorem named_cons (name : String) (f : Field TypeExpr) :
    named name (f :: fs) = if f.name = name then f :: named name fs else named name fs := by
  simp [named, List.filter_cons]

theorem named_eq_nil {name : String} (h : name ∉ fs.map Field.name) : named name fs = [] := by
  simpa [named, List.filter_eq_nil_iff] using h

theorem sameDemands_merge {f g : Field TypeExpr} (hname : f.name = g.name)
    (hnew : f.name ∉ fs.map Field.name) (ht : Equivalent o (.and f.type g.type) t) :
    SameDemands o (f :: fs ++ [g]) (⟨f.name, f.optional && g.optional, t⟩ :: fs) := by
  have hother {name : String} (hne : f.name ≠ name) :
      named name (f :: fs ++ [g]) = named name (⟨f.name, f.optional && g.optional, t⟩ :: fs) := by
    have hne' : g.name ≠ name := hname ▸ hne
    simp [named_append, named_cons, hne, hne', named_eq_nil]
  have hshared : named f.name (f :: fs ++ [g]) = [f, g] := by
    rw [named_append, named_cons, if_pos rfl, named_eq_nil hnew, named_cons, if_pos hname.symm]
    rfl
  have hmerged : named f.name (⟨f.name, f.optional && g.optional, t⟩ :: fs) =
      [⟨f.name, f.optional && g.optional, t⟩] := by
    rw [named_cons, if_pos rfl, named_eq_nil hnew]
  refine ⟨fun name => ?_, fun name => ?_, fun name ts us v => ?_⟩
  · rcases eq_or_ne f.name name with rfl | hne
    · rw [hshared, hmerged]
      simp
    · rw [hother hne]
  · rcases eq_or_ne f.name name with rfl | hne
    · rw [hshared, hmerged]
      simp
    · rw [hother hne]
  · rcases eq_or_ne f.name name with rfl | hne
    · rw [hshared, hmerged]
      simpa using acceptsAll_and.symm.trans (ht ts us v)
    · rw [hother hne]

/-- The type is a joint meaning of the two, in which no object repeats a name. -/
def IsMeet (o : Options) (l r m : TypeExpr) : Prop :=
  l.DistinctNames → r.DistinctNames → m.DistinctNames ∧ Equivalent o (.and l r) m

theorem MergesField.sameDemands {g : Field TypeExpr} (h : MergesField (IsMeet o) g fs hs)
    (hg : g.type.DistinctNames) (hfs : (object fs).DistinctNames) :
    SameDemands o (fs ++ [g]) hs := by
  rw [distinctNames_object] at hfs
  induction h with
  | last => exact .refl _
  | here hname ht =>
    rw [List.map_cons, List.nodup_cons, List.forall_mem_cons] at hfs
    exact sameDemands_merge hname hfs.1.1 (ht hfs.2.1 hg).2
  | @there f fs hs hname h ih =>
    rw [List.map_cons, List.nodup_cons, List.forall_mem_cons] at hfs
    exact (SameDemands.refl [f]).append (ih ⟨hfs.1.2, hfs.2.2⟩)

theorem MergesField.distinctNames {g : Field TypeExpr} (h : MergesField (IsMeet o) g fs hs)
    (hfs : (object fs).DistinctNames) (hg : g.type.DistinctNames) : (object hs).DistinctNames := by
  rw [distinctNames_object] at hfs ⊢
  have himp := h.imp fun l r m hm hl hr => (hm hl hr).1
  exact ⟨h.nodup_names hfs.1, himp.of_forall hg hfs.2⟩

theorem Merges.distinctNames (h : Merges (IsMeet o) fs gs hs) (hfs : (object fs).DistinctNames)
    (hgs : ∀ g ∈ gs, g.type.DistinctNames) : (object hs).DistinctNames := by
  rw [distinctNames_object] at hfs ⊢
  have himp := h.imp fun l r m hm hl hr => (hm hl hr).1
  exact ⟨h.nodup_names hfs.1, himp.of_forall hfs.2 hgs⟩

theorem Merges.sameDemands (h : Merges (IsMeet o) fs gs hs) (hfs : (object fs).DistinctNames)
    (hgs : ∀ g ∈ gs, g.type.DistinctNames) : SameDemands o (fs ++ gs) hs := by
  induction h with
  | nil => rw [List.append_nil]; exact .refl _
  | @cons g fs fs' gs hs hg h ih =>
    rw [List.forall_mem_cons] at hgs
    have hfs' : (object fs').DistinctNames := hg.distinctNames hfs hgs.1
    have hstep := (hg.sameDemands hgs.1 hfs).append (.refl gs)
    rw [List.append_assoc, List.singleton_append] at hstep
    exact hstep.trans (ih hfs' hgs.2)

/-- The intersections that normalization makes mean the same as the plain ones. -/
theorem meetClosed_isMeet : MeetClosed (IsMeet o) := by
  refine ⟨fun hl hr hne hld hrd => ?_, fun hl hr h hld hrd => ?_, fun hms hm hld hrd => ?_⟩
  · exact ⟨distinctNames_and.2 ⟨hld, hrd⟩, .refl _⟩
  · have hfs := everywhere_of_fields? hl hld
    have hgs := everywhere_of_fields? hr hrd
    refine ⟨h.distinctNames hfs (distinctNames_object.1 hgs).2, ?_⟩
    have hobjects := (equivalent_of_fields? (o := o) hl).and (equivalent_of_fields? hr)
    exact hobjects.trans (equivalent_and_objects (h.sameDemands hfs (distinctNames_object.1 hgs).2))
  · have hpair (q : TypeExpr × TypeExpr) (hq : q ∈ alternativePairs _ _) :=
      (mem_alternativePairs.1 hq).imp (everywhere_of_mem_alternatives · hld)
        (everywhere_of_mem_alternatives · hrd)
    refine ⟨everywhere_unionOf (by simp) hm ?_, fun ts us v => ?_⟩
    · exact forall_mem_of_forall₂ hms fun q hq m hm => (hm (hpair q hq).1 (hpair q hq).2).1
    · rw [acceptsAll_alternativePairs, acceptsAll_unionOf hm]
      apply exists_mem_iff_of_forall₂ hms
      intro q hq m hm
      exact (hm (hpair q hq).1 (hpair q hq).2).2 ts us v

theorem equivalent_of_normalizeWithin {levels : Nat} {t u : TypeExpr}
    (h : Gives (normalizeWithin levels t) u) (ht : t.DistinctNames) : Equivalent o t u := by
  suffices hq : u.DistinctNames ∧ Equivalent o t u from hq.2
  revert ht
  refine normalizeWithin_induction (q := fun t u => t.DistinctNames → u.DistinctNames ∧
    Equivalent o t u) ?_ ?_ ?_ ?_ ?_ ?_ h
  · exact fun l hl => ⟨hl, .refl _⟩
  · intro fs gs hfg hfs
    rw [distinctNames_object] at hfs
    have htypes := List.forall₂_and_left _ _ |>.2 ⟨hfs.2, hfg⟩
    refine ⟨distinctNames_object.2 ⟨names_eq_of_forall₂ hfg ▸ hfs.1, ?_⟩,
      equivalent_object (.of_forall₂ ?_)⟩
    · exact forall_mem_of_forall₂ htypes fun f hf g hg => (hg.2.2.2 hg.1).1
    · exact htypes.imp fun f g hg => ⟨hg.2.1, hg.2.2.1, (hg.2.2.2 hg.1).2⟩
  · intro t u hu ht
    rw [distinctNames_array] at ht ⊢
    exact ⟨(hu ht).1, (hu ht).2.array⟩
  · intro n l r l' r' m hl hr hm h
    rw [distinctNames_and] at h
    have hmeet : IsMeet o l' r' m := meetClosed_isMeet.of_gives hm
    have hmeet := hmeet (hl h.1).1 (hr h.2).1
    exact ⟨hmeet.1, ((hl h.1).2.and (hr h.2).2).trans hmeet.2⟩
  · intro l r l' r' hl hr h
    rw [distinctNames_or] at h ⊢
    exact ⟨⟨(hl h.1).1, (hr h.2).1⟩, (hl h.1).2.or (hr h.2).2⟩
  · intro t u hu ht
    rw [distinctNames_group] at ht ⊢
    exact ⟨(hu ht).1, (hu ht).2.group⟩

end StructuralTypes.TypeExpr
