import StructuralTypes.Proofs.Distributing

namespace StructuralTypes.TypeExpr

open Distributing

variable {p q : TypeExpr → Prop}

theorem everywhere_ungrouped {t : TypeExpr} (h : t.Everywhere p) : t.ungrouped.Everywhere p := by
  induction t with
  | group content ih => exact ih (everywhere_group.1 h).2
  | _ => exact h

theorem everywhere_of_fields? {t : TypeExpr} {fields : List (Field TypeExpr)}
    (hf : t.fields? = some fields) (h : t.Everywhere p) : (object fields).Everywhere p := by
  have hu := everywhere_ungrouped h
  unfold fields? at hf
  split at hf
  · next hobject =>
    cases hf
    rwa [hobject] at hu
  · cases hf

theorem everywhere_unionOf {ms : List TypeExpr} {m : TypeExpr} (hor : ∀ l r, p (.or l r))
    (hm : unionOf ms = some m) (h : ∀ t ∈ ms, t.Everywhere p) : m.Everywhere p := by
  cases ms with
  | nil => cases hm
  | cons t ts =>
    rw [unionOf, Option.some_inj] at hm
    rw [← hm, foldl_iff (p := Everywhere p) fun l r => by simp [hor]]
    exact List.forall_mem_cons.1 h

theorem MergesField.of_forall {p : TypeExpr → Prop} {g : Field TypeExpr}
    {fs hs : List (Field TypeExpr)} (h : MergesField (fun l r m => p l → p r → p m) g fs hs)
    (hg : p g.type) (hfs : ∀ f ∈ fs, p f.type) : ∀ f ∈ hs, p f.type := by
  induction h with
  | last => simpa using hg
  | here hname ht =>
    rw [List.forall_mem_cons] at hfs ⊢
    exact ⟨ht hfs.1 hg, hfs.2⟩
  | there hname h ih =>
    rw [List.forall_mem_cons] at hfs ⊢
    exact ⟨hfs.1, ih hfs.2⟩

theorem Merges.of_forall {p : TypeExpr → Prop} {fs gs hs : List (Field TypeExpr)}
    (h : Merges (fun l r m => p l → p r → p m) fs gs hs) (hfs : ∀ f ∈ fs, p f.type)
    (hgs : ∀ f ∈ gs, p f.type) : ∀ f ∈ hs, p f.type := by
  induction h with
  | nil => exact hfs
  | cons hg h ih =>
    rw [List.forall_mem_cons] at hgs
    exact ih (hg.of_forall hgs.1 hfs) hgs.2

theorem MergesField.names {r : TypeExpr → TypeExpr → TypeExpr → Prop} {g : Field TypeExpr}
    {fs hs : List (Field TypeExpr)} (h : MergesField r g fs hs) :
    hs.map Field.name = if g.name ∈ fs.map Field.name then fs.map Field.name
      else fs.map Field.name ++ [g.name] := by
  induction h with
  | last => simp
  | here hname ht => simp [hname]
  | there hname h ih =>
    rw [List.map_cons, ih]
    simp only [List.map_cons, List.mem_cons, Ne.symm hname, false_or]
    split <;> rfl

theorem MergesField.nodup_names {r : TypeExpr → TypeExpr → TypeExpr → Prop} {g : Field TypeExpr}
    {fs hs : List (Field TypeExpr)} (h : MergesField r g fs hs) (hfs : (fs.map Field.name).Nodup) :
    (hs.map Field.name).Nodup := by
  rw [h.names]
  split
  · exact hfs
  · next hnew => exact List.nodup_append.2 ⟨hfs, by simp, by simpa using hnew⟩

theorem Merges.nodup_names {r : TypeExpr → TypeExpr → TypeExpr → Prop}
    {fs gs hs : List (Field TypeExpr)} (h : Merges r fs gs hs) (hfs : (fs.map Field.name).Nodup) :
    (hs.map Field.name).Nodup := by
  induction h with
  | nil => exact hfs
  | cons hg h ih => exact ih (hg.nodup_names hfs)

theorem names_eq_of_forall₂ {r : Field TypeExpr → Field TypeExpr → Prop}
    {fs gs : List (Field TypeExpr)} (h : List.Forall₂ (fun f g => f.name = g.name ∧ r f g) fs gs) :
    fs.map Field.name = gs.map Field.name := by
  induction h with
  | nil => rfl
  | cons hfg _ ih => rw [List.map_cons, List.map_cons, hfg.1, ih]

/--
A property of leaves that the expression has, a property of the names in objects that merging keeps,
or one of the intersections that are not made, holds everywhere in the normal form.
-/
theorem everywhere_of_normalizeWithin (hleaf : ∀ l, p (.leaf l) → q (.leaf l))
    (hobject : ∀ fs gs, fs.map Field.name = gs.map Field.name → p (.object fs) → q (.object gs))
    (hmerge : ∀ fs gs hs r, Merges r fs gs hs → q (.object fs) → q (.object gs) → q (.object hs))
    (hand : ∀ l r, l.union? = none → r.union? = none → (l.fields? = none ∨ r.fields? = none) →
      q (.and l r))
    (harray : ∀ t, q (.array t)) (hor : ∀ l r, q (.or l r)) (hgroup : ∀ t, q (.group t))
    {levels : Nat} {t u : TypeExpr} (h : Gives (normalizeWithin levels t) u)
    (ht : t.Everywhere p) : u.Everywhere q := by
  have hmeet : MeetClosed fun l r m => l.Everywhere q → r.Everywhere q → m.Everywhere q := by
    refine ⟨fun hl hr hne hlq hrq => ?_, fun hl hr h hlq hrq => ?_, fun hms hm hlq hrq => ?_⟩
    · exact everywhere_and.2 ⟨hand _ _ hl hr hne, hlq, hrq⟩
    · have hfs := everywhere_object.1 (everywhere_of_fields? hl hlq)
      have hgs := everywhere_object.1 (everywhere_of_fields? hr hrq)
      exact everywhere_object.2 ⟨hmerge _ _ _ _ h hfs.1 hgs.1, h.of_forall hfs.2 hgs.2⟩
    · refine everywhere_unionOf hor hm (forall_mem_of_forall₂ hms fun q hq m hm => ?_)
      have hq := mem_alternativePairs.1 hq
      exact hm (everywhere_of_mem_alternatives hq.1 hlq) (everywhere_of_mem_alternatives hq.2 hrq)
  revert ht
  -- what an intersection gives is the only case that is not the shape of the expression itself
  refine normalizeWithin_induction (q := fun t u => t.Everywhere p → u.Everywhere q) ?_ ?_ ?_ ?_ ?_
    ?_ h
  · exact fun l hl => everywhere_leaf.2 (hleaf l (everywhere_leaf.1 hl))
  · intro fs gs hfg hfs
    have hfs := everywhere_object.1 hfs
    refine everywhere_object.2 ⟨hobject fs gs (names_eq_of_forall₂ hfg) hfs.1, ?_⟩
    exact forall_mem_of_forall₂ hfg fun f hf g hg => hg.2.2 (hfs.2 f hf)
  · exact fun t u hu ht => everywhere_array.2 ⟨harray u, hu (everywhere_array.1 ht).2⟩
  · intro n l r l' r' m hl hr hm h
    have h := everywhere_and.1 h
    exact hmeet.of_gives hm (hl h.2.1) (hr h.2.2)
  · intro l r l' r' hl hr h
    have h := everywhere_or.1 h
    exact everywhere_or.2 ⟨hor l' r', hl h.2.1, hr h.2.2⟩
  · exact fun t u hu ht => everywhere_group.2 ⟨hgroup u, hu (everywhere_group.1 ht).2⟩

theorem distinctNames_of_normalizeWithin {levels : Nat} {t u : TypeExpr}
    (h : Gives (normalizeWithin levels t) u) (ht : t.DistinctNames) : u.DistinctNames := by
  refine everywhere_of_normalizeWithin ?_ ?_ ?_ ?_ ?_ ?_ ?_ h ht
  · simp
  · rintro fs gs hnames hfs _ ⟨⟩
    exact hnames ▸ hfs fs rfl
  · rintro fs gs hs r hmerges hfs - _ ⟨⟩
    exact hmerges.nodup_names (hfs fs rfl)
  all_goals simp

/-- No intersection has a side that is a union, or two sides that are objects, through
parentheses. -/
def IsNormal (t : TypeExpr) : Prop :=
  t.Everywhere fun u => ∀ l r, u = .and l r →
    l.union? = none ∧ r.union? = none ∧ (l.fields? = none ∨ r.fields? = none)

theorem isNormal_of_normalizeWithin {levels : Nat} {t u : TypeExpr}
    (h : Gives (normalizeWithin levels t) u) : u.IsNormal := by
  refine everywhere_of_normalizeWithin (p := fun _ => True) ?_ ?_ ?_ ?_ ?_ ?_ ?_ h
    fun _ _ => trivial
  case refine_4 =>
    rintro l r hl hr hne _ _ ⟨⟩
    exact ⟨hl, hr, hne⟩
  all_goals simp

end StructuralTypes.TypeExpr
