import StructuralTypes.Proofs.Alternative
import StructuralTypes.Proofs.Intersection

namespace StructuralTypes.TypeExpr

/-- Each of the types can stand for the other wherever types are intersected. -/
def Equivalent (o : Options) (t u : TypeExpr) : Prop :=
  ∀ ts us v, AcceptsAll o (ts ++ t :: us) v ↔ AcceptsAll o (ts ++ u :: us) v

variable {o : Options} {t u l r : TypeExpr} {ts us : List TypeExpr} {v : Value}

theorem Equivalent.refl (t : TypeExpr) : Equivalent o t t :=
  fun _ _ _ => Iff.rfl

theorem Equivalent.symm (h : Equivalent o t u) : Equivalent o u t :=
  fun ts us v => (h ts us v).symm

theorem Equivalent.trans {w : TypeExpr} (h : Equivalent o t u) (h' : Equivalent o u w) :
    Equivalent o t w :=
  fun ts us v => (h ts us v).trans (h' ts us v)

theorem Equivalent.and {l' r' : TypeExpr} (hl : Equivalent o l l') (hr : Equivalent o r r') :
    Equivalent o (.and l r) (.and l' r') := by
  intro ts us v
  rw [acceptsAll_and, acceptsAll_and, hl ts (r :: us) v]
  simpa using hr (ts ++ [l']) us v

theorem Equivalent.or {l' r' : TypeExpr} (hl : Equivalent o l l') (hr : Equivalent o r r') :
    Equivalent o (.or l r) (.or l' r') := by
  intro ts us v
  rw [acceptsAll_or, acceptsAll_or, hl ts us v, hr ts us v]

theorem equivalent_group : Equivalent o (.group t) t :=
  fun _ _ _ => acceptsAll_group

theorem Equivalent.group (h : Equivalent o t u) : Equivalent o (.group t) (.group u) :=
  (equivalent_group.trans h).trans equivalent_group.symm

theorem Equivalent.join {op : Connective} {l' r' : TypeExpr} (hl : Equivalent o l l')
    (hr : Equivalent o r r') :
    Equivalent o (op.join l r) (op.join l' r') := by
  cases op with
  | and => exact hl.and hr
  | or => exact hl.or hr

theorem equivalent_and_assoc : Equivalent o (.and (.and l t) r) (.and l (.and t r)) := by
  intro ts us v
  have hinner : AcceptsAll o ((ts ++ [l]) ++ .and t r :: us) v ↔ _ := acceptsAll_and
  simp only [acceptsAll_and, List.append_assoc, List.singleton_append] at hinner ⊢
  exact hinner.symm

theorem equivalent_join_assoc {op : Connective} :
    Equivalent o (op.join (op.join l t) r) (op.join l (op.join t r)) := by
  cases op with
  | and => exact equivalent_and_assoc
  | or =>
    intro ts us v
    simp only [Connective.join_or, acceptsAll_or, or_assoc]

theorem equivalent_joinChain {op : Connective} :
    Equivalent o (joinChain op l r) (op.join l r) :=
  joinChain_of_assoc .refl .trans (fun r h => h.join (.refl r)) (fun _ _ _ => equivalent_join_assoc)
    l r

/-- A union accepts what one of its alternatives accepts. -/
theorem acceptsAll_alternatives :
    AcceptsAll o (ts ++ t :: us) v ↔ ∃ a ∈ t.alternatives, AcceptsAll o (ts ++ a :: us) v := by
  fun_induction alternatives t with
  | case1 l r ihl ihr =>
    simp only [acceptsAll_or, ihl, ihr, List.mem_append, or_and_right, exists_or]
  | case2 t h ih => rw [acceptsAll_group, ih]
  | case3 => simp
  | case4 => simp

theorem isObject_of_acceptsAll (settled : ∀ t ∈ ts, t.isSettled) (h : AcceptsAll o ts v)
    (ht : t ∈ ts) (hobject : t.isObject) : ∀ u ∈ ts, u.isObject := by
  by_contra hmixed
  push Not at hmixed
  have alone := (acceptsAll_apart settled (by simpa using hmixed)).1 h
  obtain ⟨u, hu, hne⟩ := hmixed
  cases t with
  | object fields =>
    obtain ⟨entries, rfl, -⟩ := acceptsAll_object.1 (alone _ ht)
    cases u with
    | leaf l =>
      have := acceptsAll_leaf.1 (alone _ hu)
      cases l <;> simp [Leaf.accepts, Value.truth?, Value.toFloat?, Decimal.isValue] at this
    | array item =>
      obtain ⟨_, hv, -⟩ := acceptsAll_array.1 (alone _ hu)
      cases hv
    | object => exact hne rfl
    | _ => exact absurd (settled _ hu) (by simp [isSettled])
  | _ => simp [isObject] at hobject

/-- The fields make the same demands on every name. -/
structure SameDemands (o : Options) (fs gs : List (Field TypeExpr)) : Prop where
  optional : ∀ name, (∀ f ∈ named name fs, f.optional) ↔ ∀ g ∈ named name gs, g.optional
  declared : ∀ name, named name fs = [] ↔ named name gs = []
  types : ∀ name ts us v, AcceptsAll o (ts ++ (named name fs).map Field.type ++ us) v ↔
    AcceptsAll o (ts ++ (named name gs).map Field.type ++ us) v

theorem named_append {name : String} {fs gs : List (Field TypeExpr)} :
    named name (fs ++ gs) = named name fs ++ named name gs :=
  List.filter_append ..

namespace SameDemands

variable {fs gs hs : List (Field TypeExpr)}

theorem refl (fs : List (Field TypeExpr)) : SameDemands o fs fs :=
  ⟨fun _ => Iff.rfl, fun _ => Iff.rfl, fun _ _ _ _ => Iff.rfl⟩

theorem symm (h : SameDemands o fs gs) : SameDemands o gs fs :=
  ⟨fun n => (h.optional n).symm, fun n => (h.declared n).symm,
    fun n ts us v => (h.types n ts us v).symm⟩

theorem trans (h : SameDemands o fs gs) (h' : SameDemands o gs hs) : SameDemands o fs hs :=
  ⟨fun n => (h.optional n).trans (h'.optional n), fun n => (h.declared n).trans (h'.declared n),
    fun n ts us v => (h.types n ts us v).trans (h'.types n ts us v)⟩

theorem append {fs' gs' : List (Field TypeExpr)} (h : SameDemands o fs gs)
    (h' : SameDemands o fs' gs') : SameDemands o (fs ++ fs') (gs ++ gs') where
  optional n := by
    simp only [named_append, List.forall_mem_append, h.optional n, h'.optional n]
  declared n := by
    simp only [named_append, List.append_eq_nil_iff, h.declared n, h'.declared n]
  types n ts us v := by
    have hfs := h.types n ts ((named n fs').map Field.type ++ us) v
    have hgs := h'.types n (ts ++ (named n gs).map Field.type) us v
    simp only [named_append, List.map_append, List.append_assoc] at hfs hgs ⊢
    rw [hfs, hgs]

theorem singleton {f g : Field TypeExpr} (hname : f.name = g.name)
    (hoptional : f.optional = g.optional) (htype : Equivalent o f.type g.type) :
    SameDemands o [f] [g] where
  optional n := by simp [named, List.filter_cons, hname, hoptional]
  declared n := by simp [named, hname]
  types n ts us v := by
    by_cases h : g.name = n
    · simpa [named, List.filter_cons, hname, h] using htype ts us v
    · simp [named, hname, h]

theorem of_forall₂ (h : List.Forall₂ (fun f g => f.name = g.name ∧ f.optional = g.optional ∧
    Equivalent o f.type g.type) fs gs) : SameDemands o fs gs := by
  induction h with
  | nil => exact .refl []
  | cons hfg _ ih => exact (singleton hfg.1 hfg.2.1 hfg.2.2).append ih

theorem fits (h : SameDemands o fs gs) {entries : List (String × Value)} (hfs : Fits o fs entries) :
    Fits o gs entries := by
  intro name
  have hname := hfs name
  split at hname
  · exact (h.optional name).1 hname
  · next w hw =>
    have htypes := (h.types name [] [] w).1 (by simpa using hname.2)
    exact ⟨fun hnil => hname.1 ((h.declared name).2 hnil), by simpa using htypes⟩

end SameDemands

theorem exists_shapes (h : ∀ t ∈ ts, t.isObject) : ∃ shapes : List (List (Field TypeExpr)),
    ts = shapes.map .object := by
  induction ts with
  | nil => exact ⟨[], rfl⟩
  | cons t ts ih =>
    rw [List.forall_mem_cons] at h
    obtain ⟨shapes, rfl⟩ := ih h.2
    cases t with
    | object fields => exact ⟨fields :: shapes, rfl⟩
    | _ => simp [isObject] at h

/-- Objects that make the same demands on every name are accepted together alike. -/
theorem AcceptsAll.of_sameDemands {shapes shapes' : List (List (Field TypeExpr))}
    (hne : shapes ≠ []) (h : SameDemands o shapes.flatten shapes'.flatten)
    (hv : AcceptsAll o (ts ++ shapes.map .object ++ us) v) :
    AcceptsAll o (ts ++ shapes'.map .object ++ us) v := by
  obtain ⟨a, ha, b, hb, hv⟩ := acceptsAll_context.1 hv
  refine acceptsAll_context.2 ⟨a, ha, b, hb, ?_⟩
  have hobject : ∀ t ∈ a ++ shapes.map .object ++ b, t.isObject := by
    obtain ⟨fields, hfields⟩ := List.exists_mem_of_ne_nil _ hne
    have hmem : .object fields ∈ a ++ shapes.map .object ++ b := by simp [hfields]
    refine isObject_of_acceptsAll ?_ hv hmem rfl
    simp only [List.forall_mem_append]
    exact ⟨⟨isSettled_of_mem_listChoices ha, isSettled_of_mem_objects⟩,
      isSettled_of_mem_listChoices hb⟩
  simp only [List.forall_mem_append] at hobject
  obtain ⟨as, rfl⟩ := exists_shapes hobject.1.1
  obtain ⟨bs, rfl⟩ := exists_shapes hobject.2
  rw [← List.map_append, ← List.map_append, acceptsAll_objects] at hv ⊢
  obtain ⟨entries, rfl, hfits⟩ := hv
  refine ⟨entries, rfl, SameDemands.fits ?_ hfits⟩
  simp only [List.flatten_append]
  exact ((SameDemands.refl _).append h).append (.refl _)

theorem acceptsAll_congr_objects {shapes shapes' : List (List (Field TypeExpr))}
    (hne : shapes ≠ []) (hne' : shapes' ≠ []) (h : SameDemands o shapes.flatten shapes'.flatten) :
    AcceptsAll o (ts ++ shapes.map .object ++ us) v ↔
      AcceptsAll o (ts ++ shapes'.map .object ++ us) v :=
  ⟨.of_sameDemands hne h, .of_sameDemands hne' h.symm⟩

theorem equivalent_object {fs gs : List (Field TypeExpr)} (h : SameDemands o fs gs) :
    Equivalent o (.object fs) (.object gs) := by
  intro ts us v
  have hshapes : SameDemands o [fs].flatten [gs].flatten := by simpa using h
  simpa using acceptsAll_congr_objects (by simp) (by simp) hshapes

theorem equivalent_and_objects {fs gs hs : List (Field TypeExpr)}
    (h : SameDemands o (fs ++ gs) hs) :
    Equivalent o (.and (.object fs) (.object gs)) (.object hs) := by
  intro ts us v
  have hshapes : SameDemands o [fs, gs].flatten [hs].flatten := by simpa using h
  rw [acceptsAll_and]
  simpa using acceptsAll_congr_objects (by simp) (by simp) hshapes

theorem Equivalent.array (h : Equivalent o t u) : Equivalent o (.array t) (.array u) := by
  have himp {t u : TypeExpr} (h : Equivalent o t u) {ts us : List TypeExpr} {v : Value}
      (hv : AcceptsAll o (ts ++ .array t :: us) v) : AcceptsAll o (ts ++ .array u :: us) v := by
    have hmiddle (w : TypeExpr) (xs ys : List TypeExpr) : xs ++ w :: ys = xs ++ [w] ++ ys := by simp
    rw [hmiddle, acceptsAll_context] at hv ⊢
    obtain ⟨a, ha, b, hb, hv⟩ := hv
    refine ⟨a, ha, b, hb, ?_⟩
    have hsettled (w : TypeExpr) : ∀ x ∈ a ++ [.array w] ++ b, x.isSettled := by
      simp only [List.forall_mem_append]
      exact ⟨⟨isSettled_of_mem_listChoices ha, by simp [isSettled]⟩,
        isSettled_of_mem_listChoices hb⟩
    -- next to an array nothing is read as a common object
    have hmixed (w : TypeExpr) : ∃ x ∈ a ++ [.array w] ++ b, ¬ x.isObject :=
      ⟨.array w, by simp, by simp [isObject]⟩
    rw [acceptsAll_apart (hsettled _) (hmixed _)] at hv ⊢
    simp only [List.forall_mem_append, List.forall_mem_singleton] at hv ⊢
    obtain ⟨vs, hvs, hitems⟩ := acceptsAll_array.1 hv.1.2
    exact ⟨⟨hv.1.1, acceptsAll_array.2 ⟨vs, hvs, fun w hw => (h [] [] w).1 (hitems w hw)⟩⟩, hv.2⟩
  exact fun _ _ _ => ⟨himp h, himp h.symm⟩

theorem equivalent_regroup : Equivalent o t.regroup t := by
  induction t with
  | leaf l => exact .refl _
  | object fields ih =>
    rw [regroup, regroupFields_eq_map]
    refine equivalent_object (.of_forall₂ ?_)
    rw [List.forall₂_map_left_iff, List.forall₂_same]
    exact fun f hf => ⟨rfl, rfl, ih f hf⟩
  | array item ih => exact ih.array
  | and l r ihl ihr => exact equivalent_joinChain.trans (ihl.and ihr)
  | or l r ihl ihr => exact equivalent_joinChain.trans (ihl.or ihr)
  | group content ih => exact ih.group

end StructuralTypes.TypeExpr
