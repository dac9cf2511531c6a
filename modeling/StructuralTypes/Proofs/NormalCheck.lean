import StructuralTypes.Proofs.Acceptance
import StructuralTypes.Proofs.Meaning

namespace StructuralTypes.TypeExpr

variable {o : Options} {v : Value} {t l r : TypeExpr}

@[simp]
theorem isNormal_and : (and l r).IsNormal ↔ (l.union? = none ∧ r.union? = none ∧
    (l.fields? = none ∨ r.fields? = none)) ∧ l.IsNormal ∧ r.IsNormal := by
  simp [IsNormal]

@[simp]
theorem isNormal_or : (or l r).IsNormal ↔ l.IsNormal ∧ r.IsNormal := by
  simp [IsNormal]

@[simp]
theorem isNormal_object {fields : List (Field TypeExpr)} :
    (object fields).IsNormal ↔ ∀ f ∈ fields, f.type.IsNormal := by
  simp [IsNormal]

@[simp]
theorem isNormal_array : (array t).IsNormal ↔ t.IsNormal := by
  simp [IsNormal]

@[simp]
theorem isNormal_group : (group t).IsNormal ↔ t.IsNormal := by
  simp [IsNormal]

/-- In normal form a type that is no union leaves one choice, a single object or one with something
else in it. -/
theorem choices_of_isNormal (hn : t.IsNormal) (hu : t.union? = none) :
    ∃ c, t.choices = [c] ∧ ((∃ fields, t.fields? = some fields ∧ c = [.object fields]) ∨
      t.fields? = none ∧ ∃ u ∈ c, ¬ u.isObject) := by
  induction t with
  | leaf k => exact ⟨_, rfl, .inr ⟨rfl, by simp [isObject]⟩⟩
  | object fields => exact ⟨_, rfl, .inl ⟨fields, rfl, rfl⟩⟩
  | array item => exact ⟨_, rfl, .inr ⟨rfl, by simp [isObject]⟩⟩
  | and l r ihl ihr =>
    obtain ⟨⟨hlu, hru, hne⟩, hl, hr⟩ := isNormal_and.1 hn
    obtain ⟨cl, hcl, hl⟩ := ihl hl hlu
    obtain ⟨cr, hcr, hr⟩ := ihr hr hru
    refine ⟨cl ++ cr, by simp [choices, hcl, hcr], .inr ⟨rfl, ?_⟩⟩
    rcases hl with ⟨fs, hfs, -⟩ | ⟨-, u, hu, hobj⟩
    · rcases hr with ⟨gs, hgs, -⟩ | ⟨-, u, hu, hobj⟩
      · simp [hfs, hgs] at hne
      · exact ⟨u, List.mem_append_right _ hu, hobj⟩
    · exact ⟨u, List.mem_append_left _ hu, hobj⟩
  | or l r => simp [union?, ungrouped] at hu
  | group content ih => exact ih (isNormal_group.1 hn) hu

theorem acceptsAll_singleton_of_choices {c : List TypeExpr} (h : t.choices = [c]) :
    AcceptsAll o [t] v ↔ AcceptsAll o c v := by
  rw [acceptsAll_iff_exists_choice]
  simp [listChoices, h]

/-- In normal form both sides of an intersection accept on their own. -/
theorem acceptsAll_pair_of_isNormal (hn : (and l r).IsNormal) :
    AcceptsAll o [.and l r] v ↔ AcceptsAll o [l] v ∧ AcceptsAll o [r] v := by
  obtain ⟨⟨hlu, hru, hne⟩, hl, hr⟩ := isNormal_and.1 hn
  have hside {t : TypeExpr} (hn : t.IsNormal) (hu : t.union? = none) :
      ∃ c, t.choices = [c] ∧ (AcceptsAll o [t] v ↔ ∀ u ∈ c, AcceptsAll o [u] v) := by
    obtain ⟨c, hc, ⟨fields, -, rfl⟩ | ⟨-, hmixed⟩⟩ := choices_of_isNormal hn hu
    · exact ⟨_, hc, by rw [acceptsAll_singleton_of_choices hc, List.forall_mem_singleton]⟩
    · have hsettled : ∀ u ∈ c, u.isSettled := isSettled_of_mem_choices (t := t) (by simp [hc])
      exact ⟨c, hc, by rw [acceptsAll_singleton_of_choices hc, acceptsAll_apart hsettled hmixed]⟩
  obtain ⟨cl, hcl, hcl'⟩ := hside hl hlu
  obtain ⟨cr, hcr, hcr'⟩ := hside hr hru
  obtain ⟨c, hc, ⟨fields, hfields, -⟩ | ⟨-, hmixed⟩⟩ := choices_of_isNormal hn rfl
  · cases hfields
  · have hsettled : ∀ u ∈ c, u.isSettled := isSettled_of_mem_choices (t := .and l r) (by simp [hc])
    obtain rfl : cl ++ cr = c := by simpa [choices, hcl, hcr] using hc
    rw [acceptsAll_singleton_of_choices hc, acceptsAll_apart hsettled hmixed, hcl', hcr',
      List.forall_mem_append]

theorem named_eq_singleton {fields : List (Field TypeExpr)} (h : (fields.map Field.name).Nodup)
    {f : Field TypeExpr} (hf : f ∈ fields) : named f.name fields = [f] := by
  induction fields with
  | nil => simp at hf
  | cons g fields ih =>
    rw [List.map_cons, List.nodup_cons] at h
    rw [named_cons]
    rcases List.mem_cons.1 hf with rfl | hf
    · rw [if_pos rfl, named_eq_nil h.1]
    · have hne : g.name ≠ f.name := fun heq => h.1 (heq ▸ List.mem_map_of_mem hf)
      rw [if_neg hne, ih h.2 hf]

/-- With distinct names, an object fits when each field does and nothing else is there. -/
theorem fits_iff {fields : List (Field TypeExpr)} (h : (fields.map Field.name).Nodup)
    {entries : List (String × Value)} : Fits o fields entries ↔
      (∀ f ∈ fields, match entries.lookup f.name with
        | some v => AcceptsAll o [f.type] v
        | none => f.optional) ∧ ∀ e ∈ entries, ∃ f ∈ fields, f.name = e.1 := by
  have hone : Fits o [fields].flatten entries ↔ _ := fits_flatten_iff
  simp only [List.flatten_singleton, List.mem_singleton, exists_eq_left, forall_eq] at hone
  rw [hone, and_comm]
  apply and_congr_left
  intro _
  rw [← forall₂_and]
  refine forall₂_congr fun f hf => ?_
  rw [named_eq_singleton h hf]
  cases entries.lookup f.name with
  | none => simp
  | some v => simp

theorem check_eq_ok_iff_acceptsAll (hn : t.IsNormal) (hd : t.DistinctNames) :
    t.check o v = .ok () ↔ AcceptsAll o [t] v := by
  induction t generalizing v with
  | leaf k => rw [check_leaf_eq_ok, acceptsAll_leaf]
  | object fields ih =>
    rw [isNormal_object] at hn
    rw [distinctNames_object] at hd
    rw [check_object_eq_ok, acceptsAll_object]
    apply exists_congr
    intro entries
    apply and_congr_right
    intro _
    rw [fits_iff hd.1]
    refine and_congr_left fun _ => forall₂_congr fun f hf => ?_
    cases entries.lookup f.name with
    | none => rfl
    | some w => exact ih f hf (hn f hf) (hd.2 f hf)
  | array item ih =>
    rw [isNormal_array] at hn
    rw [distinctNames_array] at hd
    rw [check_array_eq_ok, acceptsAll_array]
    exact exists_congr fun vs => and_congr_right fun _ => forall₂_congr fun w _ => ih hn hd
  | and l r ihl ihr =>
    have hsides := (isNormal_and.1 hn).2
    rw [distinctNames_and] at hd
    rw [check_and_eq_ok, acceptsAll_pair_of_isNormal hn, ihl hsides.1 hd.1, ihr hsides.2 hd.2]
  | or l r ihl ihr =>
    rw [isNormal_or] at hn
    rw [distinctNames_or] at hd
    have hor : AcceptsAll o ([] ++ .or l r :: []) v ↔ _ := acceptsAll_or
    rw [check_or_eq_ok, ihl hn.1 hd.1, ihr hn.2 hd.2]
    exact hor.symm
  | group content ih =>
    rw [isNormal_group] at hn
    rw [distinctNames_group] at hd
    have hgroup : AcceptsAll o ([] ++ .group content :: []) v ↔ _ := acceptsAll_group
    rw [check_group_eq_ok, ih hn hd]
    exact hgroup.symm

theorem isNormal_of_normalize {n : TypeExpr} (h : t.normalize = .ok n) : n.IsNormal :=
  isNormal_of_normalizeWithin (gives_of_normalize h)

theorem distinctNames_of_normalize {n : TypeExpr} (h : t.normalize = .ok n)
    (ht : t.DistinctNames) : n.DistinctNames :=
  distinctNames_of_normalizeWithin (gives_of_normalize h) (distinctNames_regroup.2 ht)

theorem equivalent_of_normalize {n : TypeExpr} (h : t.normalize = .ok n) (ht : t.DistinctNames) :
    Equivalent o t n :=
  equivalent_regroup.symm.trans
    (equivalent_of_normalizeWithin (gives_of_normalize h) (distinctNames_regroup.2 ht))

/-- Checking the normal form of a type accepts exactly what the type itself means. -/
theorem check_normalize_eq_ok_iff {n : TypeExpr} (hnames : t.DistinctNames)
    (hnorm : t.normalize = .ok n) (o : Options) (v : Value) :
    n.check o v = .ok () ↔ AcceptsAll o [t] v := by
  have hequiv : Equivalent o t n := equivalent_of_normalize hnorm hnames
  rw [check_eq_ok_iff_acceptsAll (isNormal_of_normalize hnorm)
    (distinctNames_of_normalize hnorm hnames)]
  exact (hequiv [] [] v).symm

/-- Below, `({ a: string } | null) & { a?: x, b?: number }` takes `{ a: "x" }`. -/
theorem check_normalize_union_of_objects :
    let t := and (.group (.or (.object [⟨"a", false, .leaf .string⟩]) (.leaf .null)))
      (.object [⟨"a", true, .leaf (.word "x")⟩, ⟨"b", true, .leaf .number⟩])
    let n := or
      (.object [⟨"a", false, .and (.leaf .string) (.leaf (.word "x"))⟩, ⟨"b", true, .leaf .number⟩])
      (.and (.leaf .null) (.object [⟨"a", true, .leaf (.word "x")⟩, ⟨"b", true, .leaf .number⟩]))
    let v := Value.object [("a", .string "x")]
    t.DistinctNames ∧ t.normalize = .ok n ∧
      (n.check ⟨false⟩ v = .ok () ↔ AcceptsAll ⟨false⟩ [t] v) ∧ n.check ⟨false⟩ v = .ok () := by
  intro t n v
  have hnames : t.DistinctNames := by simp [t]
  have hnorm : t.normalize = .ok n := rfl
  exact ⟨hnames, hnorm, check_normalize_eq_ok_iff hnames hnorm ⟨false⟩ v, rfl⟩

/-- Normal forms that can stand for each other accept the same values. -/
theorem check_eq_ok_congr {u : TypeExpr} (hn : t.IsNormal) (hd : t.DistinctNames)
    (hn' : u.IsNormal) (hd' : u.DistinctNames) (h : Equivalent o t u) :
    t.check o v = .ok () ↔ u.check o v = .ok () := by
  rw [check_eq_ok_iff_acceptsAll hn hd, check_eq_ok_iff_acceptsAll hn' hd']
  exact h [] [] v

/-- Normalizing a normal form again may merge objects that were left apart, but the result accepts
the same values. -/
theorem check_normalize_normalize {n m : TypeExpr} (hnames : t.DistinctNames)
    (hn : t.normalize = .ok n) (hm : n.normalize = .ok m) (o : Options) (v : Value) :
    m.check o v = .ok () ↔ n.check o v = .ok () := by
  have hnames' : n.DistinctNames := distinctNames_of_normalize hn hnames
  have hequiv : Equivalent o n m := equivalent_of_normalize hm hnames'
  apply check_eq_ok_congr
  · exact isNormal_of_normalize hm
  · exact distinctNames_of_normalize hm hnames'
  · exact isNormal_of_normalize hn
  · exact hnames'
  · exact hequiv.symm

/-- Below, the chain `a & (b & null)` that comes of `a & ((b & null) | (b | null))` keeps its two
objects apart, and normalizing again merges them. -/
theorem check_normalize_normalize_merged :
    let a := object [⟨"x", false, .leaf .string⟩]
    let b := object [⟨"x", true, .leaf (.word "k")⟩]
    let ab := object [⟨"x", false, .and (.leaf .string) (.leaf (.word "k"))⟩]
    let t := and a (.group (.or (.and b (.leaf .null)) (.group (.or b (.leaf .null)))))
    let n := or (.or (.and a (.and b (.leaf .null))) ab) (.and a (.leaf .null))
    let m := or (.or (.and ab (.leaf .null)) ab) (.and a (.leaf .null))
    t.DistinctNames ∧ t.normalize = .ok n ∧ n.normalize = .ok m ∧ n ≠ m ∧
      (∀ o v, m.check o v = .ok () ↔ n.check o v = .ok ()) ∧
      m.check ⟨false⟩ (.object [("x", .string "k")]) = .ok () := by
  intro a b ab t n m
  have hnames : t.DistinctNames := by simp [t, a, b]
  have hn : t.normalize = .ok n := rfl
  have hm : n.normalize = .ok m := rfl
  refine ⟨hnames, hn, hm, ?_, check_normalize_normalize hnames hn hm, rfl⟩
  simp [n, m, a, ab]

theorem accepts_object_eq_false (k : Leaf) (entries : List (String × Value)) :
    k.accepts o (.object entries) = false := by
  cases k <;> simp [Leaf.accepts, Value.truth?, Value.toFloat?, Decimal.isValue]

/-- In normal form only objects and unions take an object. -/
theorem check_object_ne_ok {entries : List (String × Value)} (hn : t.IsNormal)
    (hu : t.union? = none) (hf : t.fields? = none) : t.check o (.object entries) ≠ .ok () := by
  induction t with
  | leaf k => simp [check_leaf_eq_ok, accepts_object_eq_false]
  | object fields => cases hf
  | array item => simp [check_array_eq_ok]
  | and l r ihl ihr =>
    obtain ⟨⟨hlu, hru, hl | hr⟩, hln, hrn⟩ := isNormal_and.1 hn
    · exact fun h => ihl hln hlu hl (check_and_eq_ok.1 h).1
    · exact fun h => ihr hrn hru hr (check_and_eq_ok.1 h).2
  | or l r => cases hu
  | group content ih => exact fun h => ih (isNormal_group.1 hn) hu hf (check_group_eq_ok.1 h)

/-- In the normal form of a type no side of an intersection is a union and not both are objects,
through parentheses, and no intersection takes an object. -/
theorem check_and_of_normalize {n : TypeExpr} (hnorm : t.normalize = .ok n)
    (hand : and l r ∈ n.subterms) :
    l.union? = none ∧ r.union? = none ∧ ¬ (l.fields?.isSome ∧ r.fields?.isSome) ∧
      ∀ o entries, ∃ m, (and l r).check o (.object entries) = .error m := by
  have hn : (and l r).IsNormal :=
    everywhere_of_mem_subterms hand (isNormal_of_normalize hnorm)
  obtain ⟨⟨hl, hr, hne⟩, -⟩ := isNormal_and.1 hn
  refine ⟨hl, hr, ?_, fun o entries => ?_⟩
  · rcases hne with h | h
    · simp [h]
    · simp [h]
  · cases hcheck : (and l r).check o (.object entries) with
    | ok => exact absurd hcheck (check_object_ne_ok hn rfl rfl)
    | error m => exact ⟨m, rfl⟩

/-- Below, `({ a: string }) & ((null) | ({ a?: x }))` takes `{ a: "x" }` by the object that its
second alternative is merged into; the intersection that is its first one takes no object. -/
theorem check_and_of_grouped_objects :
    let l := group (.object [⟨"a", false, .leaf .string⟩])
    let r := group (.leaf .null)
    let t := and l (.group (.or r (.group (.object [⟨"a", true, .leaf (.word "x")⟩]))))
    let n := or (.and l r) (.object [⟨"a", false, .and (.leaf .string) (.leaf (.word "x"))⟩])
    t.normalize = .ok n ∧ and l r ∈ n.subterms ∧
      l.union? = none ∧ r.union? = none ∧ ¬ (l.fields?.isSome ∧ r.fields?.isSome) ∧
      (∀ o entries, ∃ m, (and l r).check o (.object entries) = .error m) ∧
      n.check ⟨false⟩ (.object [("a", .string "x")]) = .ok () := by
  intro l r t n
  have hnorm : t.normalize = .ok n := rfl
  have hand : and l r ∈ n.subterms := by simp [n, subterms]
  obtain ⟨hl, hr, hne, hcheck⟩ := check_and_of_normalize hnorm hand
  exact ⟨hnorm, hand, hl, hr, hne, hcheck, rfl⟩

end StructuralTypes.TypeExpr
