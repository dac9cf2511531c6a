import StructuralTypes.Proofs.Nesting
import StructuralTypes.Proofs.RegroupedNormal
import StructuralTypes.Proofs.RoundTrip

namespace StructuralTypes.TypeExpr

open Distributing

variable {t n : TypeExpr} {text : String}

theorem compile_of_parse (h : parse text = .ok (t, "")) : compile text = normalize t := by
  rw [compile, h]
  rfl

theorem compile_leaf {l : Leaf} (h : l.Printable) : compile l.render = .ok (.leaf l) := by
  have hlevels : 1 + (leaf l).canonical.levels 0 ≤ maxDepth := by simp [levels, maxDepth]
  have hprintable : (leaf l).Printable := ⟨distinctNames_leaf, printableLeaves_leaf.2 h⟩
  have hparse := parse_text hprintable hlevels .compact
  rw [canonical_leaf] at hparse
  exact compile_of_parse hparse

theorem exists_parse_of_compile (h : compile text = .ok n) :
    ∃ t, parse text = .ok (t, "") ∧ normalize t = .ok n := by
  unfold compile at h
  obtain ⟨⟨t, rest⟩, hparse, h⟩ := except_bind_eq_ok.1 h
  dsimp only at h
  split at h
  · next hrest =>
    rw [String.isEmpty_iff] at hrest
    exact ⟨t, hrest ▸ hparse, h⟩
  · cases h

theorem printableLeaves_of_normalizeWithin {levels : Nat} (h : Gives (normalizeWithin levels t) n)
    (ht : t.PrintableLeaves) : n.PrintableLeaves := by
  refine everywhere_of_normalizeWithin ?_ ?_ ?_ ?_ ?_ ?_ ?_ h ht
  all_goals simp

theorem printableLeaves_regroup : t.regroup.PrintableLeaves ↔ t.PrintableLeaves := by
  refine everywhere_regroup ?_ ?_ ?_ ?_ ?_
  all_goals simp

theorem closed_of_union? (h : t.union? = none) : t.closed = t := by
  cases t with
  | or l r => cases h
  | _ => rfl

/-- In normal form no union needs parentheses to be an operand of `&`. -/
theorem parenthesize_of_isNormal (h : n.IsNormal) : n.parenthesize = n := by
  induction n with
  | leaf l => rfl
  | object fields ih =>
    rw [isNormal_object] at h
    rw [parenthesize, parenthesizeFields_eq_map]
    refine congrArg object ((List.map_congr_left fun f hf => ?_).trans (List.map_id _))
    rw [ih f hf (h f hf), id]
  | array item ih => rw [parenthesize, ih (isNormal_array.1 h)]
  | and l r ihl ihr =>
    rw [isNormal_and] at h
    rw [parenthesize, ihl h.2.1, ihr h.2.2, closed_of_union? h.1.1, closed_of_union? h.1.2.1]
  | or l r ihl ihr =>
    rw [isNormal_or] at h
    rw [parenthesize, ihl h.1, ihr h.2]
  | group content ih => rw [parenthesize, ih (isNormal_group.1 h)]

theorem canonical_of_isNormal (h : n.IsNormal) : n.canonical = n.regroup := by
  rw [canonical, parenthesize_of_isNormal h]

theorem normalize_regroup : normalize t.regroup = normalize t := by
  rw [normalize, regroup_regroup]
  rfl

/-- What is compiled can be printed, has distinct names and nests no deeper than a text may. -/
theorem of_compile (h : compile text = .ok n) :
    n.IsNormal ∧ n.Printable ∧ 1 + n.levels 0 ≤ maxDepth := by
  obtain ⟨t, hparse, hnorm⟩ := exists_parse_of_compile h
  obtain ⟨hprintable, -, hlevels⟩ := of_parse hparse
  have hgives := gives_of_normalize hnorm
  refine ⟨isNormal_of_normalize hnorm, ⟨distinctNames_of_normalize hnorm hprintable.1, ?_⟩, ?_⟩
  · exact printableLeaves_of_normalizeWithin hgives (printableLeaves_regroup.2 hprintable.2)
  · have hn : n.levels 0 ≤ t.regroup.levels 0 := levels_le_of_normalizeWithin hgives
    have ht : t.regroup.levels 0 ≤ t.levels 0 := levels_regroup_le.2 (Nat.le_refl _)
    omega

/-- The text of a compiled type is compiled to the normal form of that type. -/
theorem compile_text (h : compile text = .ok n) (layout : Layout) :
    compile (n.text layout) = normalize n := by
  obtain ⟨hnormal, hprintable, hlevels⟩ := of_compile h
  have hcanonical := canonical_of_isNormal hnormal
  have hregroup : n.regroup.levels 0 ≤ n.levels 0 := levels_regroup_le.2 (Nat.le_refl _)
  have hread := parse_text hprintable (by rw [hcanonical]; omega) layout
  rw [compile_of_parse hread, hcanonical, normalize_regroup]

/-- The computation gives this result and makes no alternatives. -/
def Keeps {α : Type} (x : Distributing α) (a : α) : Prop :=
  ∀ made, x made = .ok (a, made)

theorem Keeps.bind {α β : Type} {x : Distributing α} {f : α → Distributing β} {a : α} {b : β}
    (hx : Keeps x a) (hf : Keeps (f a) b) : Keeps (x >>= f) b := by
  intro made
  change (x made >>= fun p => f p.1 p.2) = _
  rw [hx made]
  exact hf made

theorem keeps_descend {k : Nat} (h : 0 < k) : Keeps (descend k) (k - 1) := by
  cases k with
  | zero => simp at h
  | succ k => exact fun _ => rfl

theorem keeps_normalizeFields {k : Nat} {fs : List (Field TypeExpr)}
    (h : ∀ f ∈ fs, Keeps (normalizeWithin k f.type) f.type) : Keeps (normalizeFields k fs) fs := by
  induction fs with
  | nil => exact fun _ => rfl
  | cons f fs ih =>
    rw [List.forall_mem_cons] at h
    exact h.1.bind ((ih h.2).bind fun _ => rfl)

theorem keeps_meet {k : Nat} {l r : TypeExpr} (hl : l.union? = none) (hr : r.union? = none)
    (hne : l.fields? = none ∨ r.fields? = none) : Keeps (meet k l r) (.and l r) := by
  have hplain (merge : List (Field TypeExpr) → List (Field TypeExpr) →
      Distributing (List (Field TypeExpr))) :
      distribute (meetAlternatives merge) l r = pure (.and l r) := by
    rw [distribute, alternatives_of_union? hl, alternatives_of_union? hr]
    rcases hne with h | h
    · simp [meetAlternatives, h]
    · cases hl : l.fields? <;> simp [meetAlternatives, h, hl]
  cases k <;> rw [meet, hplain] <;> exact fun _ => rfl

/-- A normal form whose chains are grouped from the left is its own normal form. -/
theorem keeps_normalizeWithin {k : Nat} (h : t.IsNormal) (hlevels : t.levels 1 ≤ k) :
    Keeps (normalizeWithin k t) t := by
  -- sides that are no unions and not both objects are put side by side without being distributed
  induction t generalizing k with
  | leaf l => exact fun _ => rfl
  | object fields ih =>
    rw [isNormal_object] at h
    have hfields := fieldLevels_le.1 hlevels
    refine (keeps_descend hfields.1).bind ((keeps_normalizeFields fun f hf => ?_).bind fun _ => rfl)
    have := hfields.2 f hf
    exact ih f hf (h f hf) (by omega)
  | array item ih =>
    rw [isNormal_array] at h
    rw [levels] at hlevels
    exact (keeps_descend (by omega)).bind ((ih h (by omega)).bind fun _ => rfl)
  | and l r ihl ihr =>
    rw [isNormal_and] at h
    rw [levels_and_le] at hlevels
    exact (ihl h.2.1 hlevels.1).bind ((ihr h.2.2 hlevels.2).bind (keeps_meet h.1.1 h.1.2.1 h.1.2.2))
  | or l r ihl ihr =>
    rw [isNormal_or] at h
    rw [levels_or_le] at hlevels
    exact (ihl h.1 hlevels.1).bind ((ihr h.2 hlevels.2).bind fun _ => rfl)
  | group content ih =>
    rw [isNormal_group] at h
    rw [levels] at hlevels
    exact (keeps_descend (by omega)).bind ((ih h (by omega)).bind fun _ => rfl)

/-- The text of a compiled type is compiled again to a type that accepts the same values, or makes
too many alternatives. It does not where the compiled type stays a normal form when its chains are
grouped from the left, that is, where no chain of `&` in it begins with two objects. -/
theorem compile_text_of_compile {text : String} {n : TypeExpr} (h : compile text = .ok n) :
    (∀ layout, compile (n.text layout) = normalize n) ∧
      (n.regroup.IsNormal → normalize n = .ok n.regroup) ∧
      (n.regroup.IsNormal ↔ ∀ ts, n.HasChain ts → ¬ StartWithObjects ts) ∧
      ((∃ m, normalize n = .ok m ∧ ∀ o v, m.check o v = .ok () ↔ n.check o v = .ok ()) ∨
        normalize n = .error (.tooManyAlternatives maxAlternatives)) := by
  obtain ⟨hnormal, hprintable, hlevels⟩ := of_compile h
  have hone := levels_one_le (t := n)
  have hmax : n.levels 1 ≤ maxLevels := by
    simp only [maxDepth, maxLevels] at *
    omega
  refine ⟨compile_text h, fun hregroup => ?_, isNormal_regroup_iff hnormal, ?_⟩
  · have hkeeps := keeps_normalizeWithin hregroup (levels_regroup_le.2 hmax) 0
    rw [normalize, StateT.run', hkeeps]
    rfl
  · cases hm : normalize n with
    | error e => exact .inr (congrArg _ (eq_tooManyAlternatives_of_normalize hmax hm))
    | ok m =>
      refine .inl ⟨m, rfl, fun o v => ?_⟩
      rw [check_eq_ok_iff_acceptsAll (isNormal_of_normalize hm)
        (distinctNames_of_normalize hm hprintable.1),
        check_eq_ok_iff_acceptsAll hnormal hprintable.1]
      exact (equivalent_of_normalize hm hprintable.1 [] [] v).symm

/-- Below, `{ f: number } & ({ f?: null } & string | null)` is compiled, written and compiled
again. -/
theorem compile_text_merges_in_chain :
    let a := object [⟨"f", false, .leaf .number⟩]
    let b := object [⟨"f", true, .leaf .null⟩]
    let t := and a (.group (.or (.and b (.leaf .string)) (.leaf .null)))
    let n := or (.and a (.and b (.leaf .string))) (.and a (.leaf .null))
    let m := or
      (.and (.object [⟨"f", false, .and (.leaf .number) (.leaf .null)⟩]) (.leaf .string))
      (.and a (.leaf .null))
    compile (t.text .compact) = .ok n ∧ compile (n.text .pretty) = .ok m ∧
      ∀ o v, m.check o v = .ok () ↔ n.check o v = .ok () := by
  intro a b t n m
  have hprintable : t.Printable := by simp [t, a, b, Printable, Leaf.Printable]
  have hparse : parse (t.text .compact) = .ok (t, "") := parse_text hprintable (by decide) .compact
  have hcompile : compile (t.text .compact) = .ok n := (compile_of_parse hparse).trans rfl
  have hnorm : normalize n = .ok m := rfl
  obtain ⟨htext, -, -, hsame⟩ := compile_text_of_compile hcompile
  refine ⟨hcompile, (htext .pretty).trans hnorm, ?_⟩
  rcases hsame with ⟨_, hm, hsame⟩ | hover
  · cases hnorm.symm.trans hm
    exact hsame
  · cases hnorm.symm.trans hover

set_option maxRecDepth 2000 in
/-- In `o & (o & string | {})` the two objects are not merged and 2 alternatives are made. In the
text of what is compiled they stand side by side, and merging `f` would make 65 * 65
alternatives. -/
theorem compile_text_tooManyAlternatives :
    let u := (List.replicate 64 (leaf .string)).foldl or (.leaf .string)
    let o := object [⟨"f", false, u⟩]
    let t := and o (.group (.or (.and o (.leaf .string)) (.object [])))
    let n := or (.and o (.and o (.leaf .string))) o
    compile (t.text .compact) = .ok n ∧
      n.check ⟨false⟩ (.object [("f", .string "a")]) = .ok () ∧
      ∀ layout, compile (n.text layout) = .error (.tooManyAlternatives maxAlternatives) := by
  intro u o t n
  have hprintable : t.Printable := by simp [t, o, u, Printable, Leaf.Printable]
  have hparse : parse (t.text .compact) = .ok (t, "") := parse_text hprintable (by decide) .compact
  have hcompile : compile (t.text .compact) = .ok n := (compile_of_parse hparse).trans rfl
  exact ⟨hcompile, rfl, fun layout => (compile_text hcompile layout).trans rfl⟩

end StructuralTypes.TypeExpr
