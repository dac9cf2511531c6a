import StructuralTypes.Proofs.Recompile

namespace StructuralTypes

theorem Failures.append_assoc (f g h : Failures) : f ++ g ++ h = f ++ (g ++ h) :=
  congrArg (Failures.mk f.first) (List.append_assoc f.others g.toList h.toList)

namespace TypeExpr

/-- The types have the same text and the same failures, alone and as parts of other types. -/
structure Alike (t u : TypeExpr) : Prop where
  parenthesized : ∀ shown, parenthesized t shown = parenthesized u shown
  render : ∀ layout level, t.render layout level = u.render layout level
  verdict : ∀ x, t.verdict x = u.verdict x
  failures : ∀ o v, t.failures o v = u.failures o v

abbrev AlikeFields : List (Field TypeExpr) → List (Field TypeExpr) → Prop :=
  List.Forall₂ fun f g => f.name = g.name ∧ f.optional = g.optional ∧ Alike f.type g.type

variable {o : Options} {v : Value} {l l' r r' t u x y : TypeExpr} {fs gs : List (Field TypeExpr)}
  {layout : Layout} {level : Nat}

namespace Alike

theorem refl (t : TypeExpr) : Alike t t :=
  ⟨fun _ => rfl, fun _ _ => rfl, fun _ => rfl, fun _ _ => rfl⟩

theorem symm (h : Alike t u) : Alike u t where
  parenthesized shown := (h.parenthesized shown).symm
  render layout level := (h.render layout level).symm
  verdict x := (h.verdict x).symm
  failures o v := (h.failures o v).symm

theorem trans {w : TypeExpr} (h : Alike t u) (h' : Alike u w) : Alike t w where
  parenthesized shown := (h.parenthesized shown).trans (h'.parenthesized shown)
  render layout level := (h.render layout level).trans (h'.render layout level)
  verdict x := (h.verdict x).trans (h'.verdict x)
  failures o v := (h.failures o v).trans (h'.failures o v)

theorem check (h : Alike t u) (o : Options) (v : Value) : t.check o v = u.check o v := by
  rw [TypeExpr.check, TypeExpr.check, h.verdict, h.failures]

theorem text (h : Alike t u) (layout : Layout) : t.text layout = u.text layout :=
  h.render layout 0

theorem and (hl : Alike l l') (hr : Alike r r') : Alike (.and l r) (.and l' r') where
  parenthesized _ := rfl
  render layout level := by
    simp only [TypeExpr.render, hl.render, hl.parenthesized, hr.render, hr.parenthesized]
  verdict x := by cases x <;> rfl
  failures o v := by
    simp only [TypeExpr.failures, hl.verdict, hl.failures, hr.verdict, hr.failures]

theorem or (hl : Alike l l') (hr : Alike r r') : Alike (.or l r) (.or l' r') := by
  have hrender (layout : Layout) (level : Nat) :
      (TypeExpr.or l r).render layout level = (TypeExpr.or l' r').render layout level := by
    simp only [TypeExpr.render, hl.render, hr.render]
  refine ⟨fun _ => rfl, hrender, fun x => ?_, fun o v => ?_⟩
  · cases x with
    | none => rfl
    | some failures => simp only [TypeExpr.verdict, TypeExpr.text, hrender]
  · simp only [TypeExpr.failures, hl.failures, hr.failures]

theorem group (h : Alike t u) : Alike (.group t) (.group u) where
  parenthesized _ := rfl
  render layout level := by simp only [TypeExpr.render, h.render]
  verdict x := by cases x <;> rfl
  failures o v := by simp only [TypeExpr.failures, h.verdict, h.failures]

theorem array (h : Alike t u) : Alike (.array t) (.array u) := by
  have hrender (layout : Layout) (level : Nat) :
      (TypeExpr.array t).render layout level = (TypeExpr.array u).render layout level := by
    simp only [TypeExpr.render, h.render]
  refine ⟨fun _ => rfl, hrender, fun x => by cases x <;> rfl, fun o v => ?_⟩
  cases v with
  | array items => simp only [TypeExpr.failures, h.verdict, h.failures]
  | _ => simp only [TypeExpr.failures, wrongKind, TypeExpr.text, hrender]

theorem and_assoc : Alike (.and (.and l x) y) (.and l (.and x y)) where
  parenthesized _ := rfl
  render layout level := by simp only [TypeExpr.render, TypeExpr.parenthesized, String.append_assoc]
  verdict w := by cases w <;> rfl
  failures o v := by
    rw [failures_eq (by simp), failures_eq (by simp)]
    simp only [check_and]
    cases l.check o v <;> rfl

theorem or_assoc : Alike (.or (.or l x) y) (.or l (.or x y)) := by
  have hrender (layout : Layout) (level : Nat) : (TypeExpr.or (.or l x) y).render layout level =
      (TypeExpr.or l (.or x y)).render layout level := by
    simp only [TypeExpr.render, String.append_assoc]
  refine ⟨fun _ => rfl, hrender, fun w => ?_, fun o v => ?_⟩
  · cases w with
    | none => rfl
    | some failures => simp only [TypeExpr.verdict, TypeExpr.text, hrender]
  · simp only [TypeExpr.failures]
    cases l.failures o v with
    | none => rfl
    | some f =>
      cases x.failures o v with
      | none => rfl
      | some g =>
        cases y.failures o v with
        | none => rfl
        | some h => exact congrArg some (Failures.append_assoc f g h)

theorem join {op : Connective} (hl : Alike l l') (hr : Alike r r') :
    Alike (op.join l r) (op.join l' r') := by
  cases op with
  | and => exact hl.and hr
  | or => exact hl.or hr

theorem join_assoc {op : Connective} :
    Alike (op.join (op.join l x) y) (op.join l (op.join x y)) := by
  cases op with
  | and => exact and_assoc
  | or => exact or_assoc

end Alike

theorem alike_joinChain {op : Connective} : Alike (joinChain op l r) (op.join l r) :=
  joinChain_of_assoc .refl .trans (fun r h => h.join (.refl r)) (fun _ _ _ => .join_assoc) l r

theorem renderField_congr {f g : Field TypeExpr} (hname : f.name = g.name)
    (hoptional : f.optional = g.optional) (h : Alike f.type g.type) :
    renderField layout level f = renderField layout level g := by
  obtain ⟨_, _, _⟩ := f
  obtain ⟨_, _, _⟩ := g
  cases hname
  cases hoptional
  simp only [renderField, h.render]

theorem renderFields_congr (h : AlikeFields fs gs) :
    renderFields layout level fs = renderFields layout level gs := by
  induction h with
  | nil => rfl
  | cons hfg _ ih => rw [renderFields, renderFields, renderField_congr hfg.1 hfg.2.1 hfg.2.2, ih]

theorem render_object_congr (h : AlikeFields fs gs) :
    (object fs).render layout level = (object gs).render layout level := by
  cases h with
  | nil => rfl
  | cons hfg h =>
    rw [render, render, renderField_congr hfg.1 hfg.2.1 hfg.2.2, renderFields_congr h]

theorem checkFields_congr {entries : List (String × Value)} (h : AlikeFields fs gs) :
    checkFields o fs entries = checkFields o gs entries := by
  induction h with
  | nil => rfl
  | cons hfg _ ih =>
    obtain ⟨hname, hoptional, htype⟩ := hfg
    simp only [checkFields, hname, hoptional, htype.verdict, htype.failures, ih]

theorem closed_congr {entries : List (String × Value)} (h : AlikeFields fs gs) :
    Verdict.closed fs entries = Verdict.closed gs entries := by
  have hany (name : String) : fs.any (·.name == name) = gs.any (·.name == name) := by
    induction h with
    | nil => rfl
    | cons hfg _ ih => rw [List.any_cons, List.any_cons, hfg.1, ih]
  simp only [Verdict.closed, hany]

theorem Alike.object (h : AlikeFields fs gs) : Alike (.object fs) (.object gs) := by
  have hrender (layout : Layout) (level : Nat) :
      (TypeExpr.object fs).render layout level = (TypeExpr.object gs).render layout level :=
    render_object_congr h
  refine ⟨fun _ => rfl, hrender, fun x => by cases x <;> rfl, fun o v => ?_⟩
  cases v with
  | object entries => simp only [TypeExpr.failures, checkFields_congr h, closed_congr h]
  | _ => simp only [TypeExpr.failures, wrongKind, TypeExpr.text, hrender]

/-- Grouping every chain from the left shows nowhere. -/
theorem alike_regroup : Alike t.regroup t := by
  induction t with
  | leaf k => exact .refl _
  | object fields ih =>
    rw [regroup, regroupFields_eq_map]
    refine .object (List.forall₂_map_left_iff.2 (List.forall₂_same.2 fun f hf => ?_))
    exact ⟨rfl, rfl, ih f hf⟩
  | array item ih => exact ih.array
  | and l r ihl ihr => exact alike_joinChain.trans (ihl.and ihr)
  | or l r ihl ihr => exact alike_joinChain.trans (ihl.or ihr)
  | group content ih => exact ih.group

/-- The text of a compiled type is read as a type that gives every value the same verdict, with the
same mismatch where there is one. -/
theorem parse_text_of_compile {text : String} {n : TypeExpr} (h : compile text = .ok n) :
    ∃ m, (∀ layout, parse (n.text layout) = .ok (m, "")) ∧
      (m.DistinctNames ∧ 1 + m.levels 0 ≤ maxDepth) ∧ ∀ o v, m.check o v = n.check o v := by
  obtain ⟨hnormal, hprintable, hlevels⟩ := of_compile h
  have hcanonical := canonical_of_isNormal hnormal
  have hregroup : 1 + n.regroup.levels 0 ≤ maxDepth := by
    have : n.regroup.levels 0 ≤ n.levels 0 := levels_regroup_le.2 (Nat.le_refl _)
    omega
  refine ⟨n.regroup, fun layout => ?_, ⟨distinctNames_regroup.2 hprintable.1, hregroup⟩,
    fun o v => alike_regroup.check o v⟩
  have hread := parse_text hprintable (by rwa [hcanonical]) layout
  rwa [hcanonical] at hread

/-- Below, `{ f: number } & ({ f?: null } & string | null)` is compiled to a chain that is grouped
from the right, and read back as one that is grouped from the left. -/
theorem parse_text_regroups_chain :
    let a := object [⟨"f", false, .leaf .number⟩]
    let b := object [⟨"f", true, .leaf .null⟩]
    let t := and a (.group (.or (.and b (.leaf .string)) (.leaf .null)))
    let n := or (.and a (.and b (.leaf .string))) (.and a (.leaf .null))
    let m := or (.and (.and a b) (.leaf .string)) (.and a (.leaf .null))
    let mismatch := Mismatch.wrongKind (a.text .compact) "boolean"
    compile (t.text .compact) = .ok n ∧ (∀ layout, parse (n.text layout) = .ok (m, "")) ∧
      (∀ o v, m.check o v = n.check o v) ∧ n.check ⟨false⟩ (.boolean true) =
        .error (.noAlternative (n.text .compact) [mismatch, mismatch]) := by
  intro a b t n m mismatch
  have hprintable : t.Printable := by simp [t, a, b, Printable, Leaf.Printable]
  have hparse : parse (t.text .compact) = .ok (t, "") := parse_text hprintable (by decide) .compact
  have hcompile : compile (t.text .compact) = .ok n := (compile_of_parse hparse).trans rfl
  obtain ⟨m', hread, -, hsame⟩ := parse_text_of_compile hcompile
  have hm : parse (n.text .compact) = .ok (m, "") :=
    parse_text (of_compile hcompile).2.1 (by decide) .compact
  cases (hread .compact).symm.trans hm
  exact ⟨hcompile, hread, hsame, rfl⟩

end TypeExpr

end StructuralTypes
