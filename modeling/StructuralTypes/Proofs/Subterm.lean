import StructuralTypes.TypeExpr.Chain

namespace StructuralTypes.TypeExpr

/-- Induction in which an object is proved from the types of its fields. -/
@[elab_as_elim, induction_eliminator]
theorem induct {motive : TypeExpr → Prop} (leaf : ∀ l, motive (.leaf l))
    (object : ∀ fields, (∀ f ∈ fields, motive f.type) → motive (.object fields))
    (array : ∀ item, motive item → motive (.array item))
    (and : ∀ l r, motive l → motive r → motive (.and l r))
    (or : ∀ l r, motive l → motive r → motive (.or l r))
    (group : ∀ content, motive content → motive (.group content)) (t : TypeExpr) : motive t := by
  apply TypeExpr.rec (motive_1 := motive) (motive_2 := fun fields => ∀ f ∈ fields, motive f.type)
    (motive_3 := fun f => motive f.type) leaf object array and or group
  · simp
  · intro f fields hf hfields g hg
    exact (List.mem_cons.1 hg).elim (fun h => h ▸ hf) (hfields g)
  · exact fun _ _ _ h => h

mutual

def subterms : TypeExpr → List TypeExpr
  | .leaf l => [.leaf l]
  | .object fields => .object fields :: fieldSubterms fields
  | .array item => .array item :: item.subterms
  | .and l r => .and l r :: (l.subterms ++ r.subterms)
  | .or l r => .or l r :: (l.subterms ++ r.subterms)
  | .group content => .group content :: content.subterms

def fieldSubterms : List (Field TypeExpr) → List TypeExpr
  | [] => []
  | f :: fs => f.type.subterms ++ fieldSubterms fs

end

theorem mem_fieldSubterms {u : TypeExpr} {fields : List (Field TypeExpr)} :
    u ∈ fieldSubterms fields ↔ ∃ f ∈ fields, u ∈ f.type.subterms := by
  induction fields with
  | nil => simp [fieldSubterms]
  | cons f fields ih => simp [fieldSubterms, ih]

theorem mem_subterms_self {t : TypeExpr} : t ∈ t.subterms := by
  cases t <;> simp [subterms]

def Everywhere (p : TypeExpr → Prop) (t : TypeExpr) : Prop :=
  ∀ u ∈ t.subterms, p u

section

variable {p : TypeExpr → Prop}

@[simp]
theorem everywhere_leaf {l : Leaf} : (leaf l).Everywhere p ↔ p (.leaf l) :=
  List.forall_mem_singleton

@[simp]
theorem everywhere_object {fields : List (Field TypeExpr)} :
    (object fields).Everywhere p ↔ p (.object fields) ∧ ∀ f ∈ fields, f.type.Everywhere p := by
  refine List.forall_mem_cons.trans (and_congr_right fun _ => ?_)
  simp only [mem_fieldSubterms]
  exact ⟨fun h f hf u hu => h u ⟨f, hf, hu⟩, fun h u ⟨f, hf, hu⟩ => h f hf u hu⟩

@[simp]
theorem everywhere_array {item : TypeExpr} :
    (array item).Everywhere p ↔ p (.array item) ∧ item.Everywhere p :=
  List.forall_mem_cons

@[simp]
theorem everywhere_and {l r : TypeExpr} :
    (and l r).Everywhere p ↔ p (.and l r) ∧ l.Everywhere p ∧ r.Everywhere p :=
  List.forall_mem_cons.trans (and_congr_right fun _ => List.forall_mem_append)

@[simp]
theorem everywhere_or {l r : TypeExpr} :
    (or l r).Everywhere p ↔ p (.or l r) ∧ l.Everywhere p ∧ r.Everywhere p :=
  List.forall_mem_cons.trans (and_congr_right fun _ => List.forall_mem_append)

@[simp]
theorem everywhere_group {content : TypeExpr} :
    (group content).Everywhere p ↔ p (.group content) ∧ content.Everywhere p :=
  List.forall_mem_cons

theorem Everywhere.self {t : TypeExpr} (h : t.Everywhere p) : p t :=
  h t mem_subterms_self

theorem everywhere_join {op : Connective} {l r : TypeExpr} (h : (op.join l r).Everywhere p) :
    l.Everywhere p ∧ r.Everywhere p := by
  cases op with
  | and => exact (everywhere_and.1 h).2
  | or => exact (everywhere_or.1 h).2

theorem everywhere_of_mem_chain {op : Connective} {t u : TypeExpr} (hu : u ∈ t.chain op)
    (h : t.Everywhere p) : u.Everywhere p := by
  induction t using chain_induct op with
  | join l r ihl ihr =>
    rw [chain_join] at hu
    have hsides := everywhere_join h
    exact (List.mem_append.1 hu).elim (ihl · hsides.1) (ihr · hsides.2)
  | operand t ht =>
    rw [ht] at hu
    exact List.mem_singleton.1 hu ▸ h

theorem everywhere_of_mem_subterms {t u : TypeExpr} (hu : u ∈ t.subterms) (h : t.Everywhere p) :
    u.Everywhere p := by
  induction t with
  | leaf l => exact List.mem_singleton.1 hu ▸ h
  | object fields ih =>
    rw [subterms, List.mem_cons, mem_fieldSubterms] at hu
    rcases hu with rfl | ⟨f, hf, hu⟩
    · exact h
    · exact ih f hf hu ((everywhere_object.1 h).2 f hf)
  | array item ih =>
    rcases List.mem_cons.1 hu with rfl | hu
    · exact h
    · exact ih hu (everywhere_array.1 h).2
  | and l r ihl ihr =>
    rw [subterms, List.mem_cons, List.mem_append] at hu
    rcases hu with rfl | hu | hu
    · exact h
    · exact ihl hu (everywhere_and.1 h).2.1
    · exact ihr hu (everywhere_and.1 h).2.2
  | or l r ihl ihr =>
    rw [subterms, List.mem_cons, List.mem_append] at hu
    rcases hu with rfl | hu | hu
    · exact h
    · exact ihl hu (everywhere_or.1 h).2.1
    · exact ihr hu (everywhere_or.1 h).2.2
  | group content ih =>
    rcases List.mem_cons.1 hu with rfl | hu
    · exact h
    · exact ih hu (everywhere_group.1 h).2

end

/-- Induction in which a chain is proved from its operands. -/
@[elab_as_elim]
theorem chainInduct {motive : TypeExpr → Prop} (leaf : ∀ l, motive (.leaf l))
    (object : ∀ fields, (∀ f ∈ fields, motive f.type) → motive (.object fields))
    (array : ∀ item, motive item → motive (.array item))
    (and : ∀ l r, (∀ u ∈ (TypeExpr.and l r).chain .and, motive u) → motive (.and l r))
    (or : ∀ l r, (∀ u ∈ (TypeExpr.or l r).chain .or, motive u) → motive (.or l r))
    (group : ∀ content, motive content → motive (.group content)) (t : TypeExpr) : motive t := by
  have heverywhere : t.Everywhere motive := by
    induction t with
    | leaf l => exact everywhere_leaf.2 (leaf l)
    | object fields ih =>
      exact everywhere_object.2 ⟨object fields fun f hf => (ih f hf).self, ih⟩
    | array item ih => exact everywhere_array.2 ⟨array item ih.self, ih⟩
    | and l r ihl ihr =>
      refine everywhere_and.2 ⟨and l r fun u hu => ?_, ihl, ihr⟩
      rcases List.mem_append.1 hu with hu | hu
      · exact (everywhere_of_mem_chain hu ihl).self
      · exact (everywhere_of_mem_chain hu ihr).self
    | or l r ihl ihr =>
      refine everywhere_or.2 ⟨or l r fun u hu => ?_, ihl, ihr⟩
      rcases List.mem_append.1 hu with hu | hu
      · exact (everywhere_of_mem_chain hu ihl).self
      · exact (everywhere_of_mem_chain hu ihr).self
    | group content ih => exact everywhere_group.2 ⟨group content ih.self, ih⟩
  exact heverywhere.self

def DistinctNames (t : TypeExpr) : Prop :=
  t.Everywhere fun u => ∀ fields, u = .object fields → (fields.map Field.name).Nodup

section

variable {l r : TypeExpr}

@[simp]
theorem distinctNames_leaf {l : Leaf} : (leaf l).DistinctNames := by
  simp [DistinctNames]

@[simp]
theorem distinctNames_object {fields : List (Field TypeExpr)} :
    (object fields).DistinctNames ↔
      (fields.map Field.name).Nodup ∧ ∀ f ∈ fields, f.type.DistinctNames := by
  simp [DistinctNames]

@[simp]
theorem distinctNames_array : (array l).DistinctNames ↔ l.DistinctNames := by
  simp [DistinctNames]

@[simp]
theorem distinctNames_and : (and l r).DistinctNames ↔ l.DistinctNames ∧ r.DistinctNames := by
  simp [DistinctNames]

@[simp]
theorem distinctNames_or : (or l r).DistinctNames ↔ l.DistinctNames ∧ r.DistinctNames := by
  simp [DistinctNames]

@[simp]
theorem distinctNames_group : (group l).DistinctNames ↔ l.DistinctNames := by
  simp [DistinctNames]

end

mutual

/--
How deep objects, arrays and parentheses nest: the type of a field is a level deeper than its
object, and an object without fields counts as `bare` levels.
-/
def levels (bare : Nat) : TypeExpr → Nat
  | .leaf _ => 0
  | .object fields => fieldLevels bare fields
  | .array item => item.levels bare + 1
  | .and l r => max (l.levels bare) (r.levels bare)
  | .or l r => max (l.levels bare) (r.levels bare)
  | .group content => content.levels bare + 1

def fieldLevels (bare : Nat) : List (Field TypeExpr) → Nat
  | [] => bare
  | f :: fs => max (f.type.levels bare + 1) (fieldLevels bare fs)

end

theorem fieldLevels_le {bare n : Nat} {fields : List (Field TypeExpr)} :
    fieldLevels bare fields ≤ n ↔ bare ≤ n ∧ ∀ f ∈ fields, f.type.levels bare + 1 ≤ n := by
  induction fields with
  | nil => simp [fieldLevels]
  | cons f fields ih =>
    rw [fieldLevels, Nat.max_le, ih, List.forall_mem_cons]
    exact and_left_comm

theorem foldl_iff {p : TypeExpr → Prop} {join : TypeExpr → TypeExpr → TypeExpr}
    (h : ∀ l r, p (join l r) ↔ p l ∧ p r) (ts : List TypeExpr) (l : TypeExpr) :
    p (ts.foldl join l) ↔ p l ∧ ∀ t ∈ ts, p t := by
  induction ts generalizing l with
  | nil => simp
  | cons t ts ih => simp only [List.foldl_cons, ih, h, List.forall_mem_cons, and_assoc]

/-- A property that a connective has exactly when both sides have it goes over to chains. -/
theorem joinChain_iff (op : Connective) {p : TypeExpr → Prop}
    (h : ∀ l r, p (op.join l r) ↔ p l ∧ p r) (l r : TypeExpr) :
    p (joinChain op l r) ↔ p l ∧ p r := by
  have hr : p r ↔ ∀ t ∈ r.chain op, p t := by
    induction r using chain_induct op with
    | join l r ihl ihr => simp only [h, ihl, ihr, chain_join, List.mem_append, or_imp, forall_and]
    | operand t ht => simp [ht]
  rw [joinChain, foldl_iff h, hr]

theorem regroupFields_eq_map (fields : List (Field TypeExpr)) :
    regroupFields fields = fields.map fun f => { f with type := f.type.regroup } := by
  induction fields with
  | nil => rfl
  | cons f fields ih => rw [regroupFields, ih, List.map_cons]

/-- A property of leaves and of the names in objects does not depend on how chains are grouped. -/
theorem everywhere_regroup {p : TypeExpr → Prop} (hand : ∀ l r, p (.and l r))
    (hor : ∀ l r, p (.or l r)) (harray : ∀ t, p (.array t)) (hgroup : ∀ t, p (.group t))
    (hobject : ∀ fs gs, fs.map Field.name = gs.map Field.name → (p (.object fs) ↔ p (.object gs)))
    {t : TypeExpr} : t.regroup.Everywhere p ↔ t.Everywhere p := by
  induction t with
  | leaf l => rfl
  | object fields ih =>
    simp only [regroup, regroupFields_eq_map, everywhere_object, List.forall_mem_map]
    exact and_congr (hobject _ _ (by simp)) (forall₂_congr ih)
  | array item ih => simpa [regroup, harray] using ih
  | and l r ihl ihr =>
    rw [regroup, joinChain_iff .and (p := Everywhere p) fun l r => by simp [hand], ihl, ihr]
    simp [hand]
  | or l r ihl ihr =>
    rw [regroup, joinChain_iff .or (p := Everywhere p) fun l r => by simp [hor], ihl, ihr]
    simp [hor]
  | group content ih => simpa [regroup, hgroup] using ih

theorem distinctNames_regroup {t : TypeExpr} : t.regroup.DistinctNames ↔ t.DistinctNames := by
  refine everywhere_regroup ?_ ?_ ?_ ?_ fun fs gs hnames => ?_
  case refine_5 => simp [hnames]
  all_goals simp

end StructuralTypes.TypeExpr
