import StructuralTypes.Proofs.Resemblance

namespace StructuralTypes

/-- The values are the same up to the order in which objects, whose names are distinct, list their
entries: in another order `es'` the entries of the one object have the same names as those of the
other, and values that are the same in this sense. -/
inductive Reordered : Value → Value → Prop
  | refl (v : Value) : Reordered v v
  | array {vs ws : List Value} (h : List.Forall₂ Reordered vs ws) :
    Reordered (.array vs) (.array ws)
  | object {es es' fs : List (String × Value)} (hdistinct : (es.map Prod.fst).Nodup)
    (hperm : es.Perm es') (hnames : es'.map Prod.fst = fs.map Prod.fst)
    (h : List.Forall₂ Reordered (es'.map Prod.snd) (fs.map Prod.snd)) :
    Reordered (.object es) (.object fs)

variable {o : Options} {v w : Value} {vs ws : List Value} {es fs : List (String × Value)}
  {name : String}

theorem lookup_eq_some_iff_mem (h : (es.map Prod.fst).Nodup) :
    es.lookup name = some v ↔ (name, v) ∈ es := by
  induction es with
  | nil => simp
  | cons e es ih =>
    obtain ⟨first, u⟩ := e
    rw [List.map_cons, List.nodup_cons] at h
    rw [List.mem_cons, Prod.mk.injEq]
    by_cases hname : name = first
    · have hlater : (first, v) ∉ es := fun hmem => h.1 (List.mem_map.2 ⟨_, hmem, rfl⟩)
      simp [hname, hlater, eq_comm]
    · have hne : (name == first) = false := by simpa using hname
      simp [List.lookup_cons, hname, hne, ih h.2]

/-- The order of distinct names does not matter to what is found. -/
theorem lookup_perm (h : (es.map Prod.fst).Nodup) (hperm : es.Perm fs) :
    es.lookup name = fs.lookup name := by
  have h' : (fs.map Prod.fst).Nodup := (hperm.map Prod.fst).nodup_iff.1 h
  ext v
  rw [lookup_eq_some_iff_mem h, lookup_eq_some_iff_mem h', hperm.mem_iff]

theorem rel_lookup_of_forall₂ {r : Value → Value → Prop}
    (hnames : es.map Prod.fst = fs.map Prod.fst)
    (h : List.Forall₂ r (es.map Prod.snd) (fs.map Prod.snd)) :
    Option.Rel r (es.lookup name) (fs.lookup name) := by
  induction es generalizing fs with
  | nil =>
    obtain rfl := List.map_eq_nil_iff.1 hnames.symm
    exact .none
  | cons e es ih =>
    obtain ⟨f, fs, rfl⟩ : ∃ f fs', fs = f :: fs' := by
      cases fs with
      | nil => cases hnames
      | cons f fs => exact ⟨f, fs, rfl⟩
    rw [List.map_cons, List.map_cons, List.cons.injEq] at hnames
    obtain ⟨hef, hlater⟩ := List.forall₂_cons.1 h
    rw [List.lookup_cons, List.lookup_cons, hnames.1]
    split
    · exact .some hef
    · exact ih hnames.2 hlater

namespace Reordered

theorem kind_eq (h : Reordered v w) : v.kind = w.kind := by
  cases h <;> rfl

theorem describe_eq (h : Reordered v w) : v.describe = w.describe := by
  cases h with
  | refl => rfl
  | array h => rw [Value.describe, Value.describe, h.length_eq]
  | object _ hperm hnames _ =>
    have hlength := congrArg List.length hnames
    rw [List.length_map, List.length_map] at hlength
    rw [Value.describe, Value.describe, hperm.length_eq, hlength]

theorem accepts_eq (h : Reordered v w) (k : Leaf) : k.accepts o v = k.accepts o w := by
  cases h with
  | refl => rfl
  | array => cases k <;> rfl
  | object => cases k <;> rfl

theorem forall₂_items (h : Reordered (.array vs) (.array ws)) : List.Forall₂ Reordered vs ws := by
  cases h with
  | refl => exact List.forall₂_same.2 fun v _ => .refl v
  | array h => exact h

theorem rel_lookup (h : Reordered (.object es) (.object fs)) (name : String) :
    Option.Rel Reordered (es.lookup name) (fs.lookup name) := by
  cases h with
  | refl =>
    cases es.lookup name with
    | none => exact .none
    | some v => exact .some (.refl v)
  | object hdistinct hperm hnames h =>
    rw [lookup_perm hdistinct hperm]
    exact rel_lookup_of_forall₂ hnames h

end Reordered

theorem resemblance_reordered (o : Options) : Resemblance o o (fun _ => True) Reordered where
  kind := Reordered.kind_eq
  leaf h _ := by rw [Leaf.check, Leaf.check, h.accepts_eq, h.kind_eq, h.describe_eq]
  items := Reordered.forall₂_items
  entries := Reordered.rel_lookup

/-- However the entries of objects are ordered, at any depth, a check ends the same way, and with
the same mismatch if there is one. -/
theorem check_reordered (o : Options) (t : TypeExpr) (h : Reordered v w) :
    t.check o v = t.check o w :=
  (resemblance_reordered o).check_eq (fun _ _ _ _ => trivial) h

/-- Below, two orders of the entries of `{ zeta: null, a: [{ r: null, q: true, p: null }] }`. -/
theorem check_reordered_nested :
    let t := TypeExpr.object [⟨"a", false,
      .or (.array (.object [⟨"p", false, .leaf .null⟩])) (.leaf .null)⟩]
    let inner := Value.object [("r", .null), ("q", .boolean true), ("p", .null)]
    let inner' := Value.object [("p", .null), ("q", .boolean true), ("r", .null)]
    let v := Value.object [("zeta", .null), ("a", .array [inner])]
    let w := Value.object [("a", .array [inner']), ("zeta", .null)]
    let e := Mismatch.inField "a" (.noAlternative "Array<\x7b p: null \x7d> | null"
      [.atIndex 0 (.extraField "q"), .wrongValue "null" "array of 1 element(s)"])
    Reordered v w ∧ t.check ⟨false⟩ v = .error e ∧ t.check ⟨false⟩ w = .error e := by
  intro t inner inner' v w e
  have hinner : Reordered inner inner' := by
    refine .object (by decide) (List.reverse_perm _).symm rfl ?_
    exact List.forall₂_same.2 fun u _ => .refl u
  have hitems : Reordered (.array [inner]) (.array [inner']) := .array (.cons hinner .nil)
  have hvw : Reordered v w := by
    refine .object (by decide) (List.Perm.swap _ _ _) rfl ?_
    exact .cons hitems (.cons (.refl .null) .nil)
  have hv : t.check ⟨false⟩ v = .error e := by
    simp only [t, v, e, inner]
    rfl
  exact ⟨hvw, hv, (check_reordered ⟨false⟩ t hvw).symm.trans hv⟩

end StructuralTypes
