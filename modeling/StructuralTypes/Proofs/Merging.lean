import StructuralTypes.Proofs.Determinacy
import StructuralTypes.Proofs.NormalCheck
import StructuralTypes.Proofs.RoundTrip

namespace StructuralTypes.TypeExpr

open Distributing

variable {p : TypeExpr → TypeExpr → TypeExpr → Prop} {f g h : Field TypeExpr}
  {fs gs hs : List (Field TypeExpr)}

inductive ComesFrom (p : TypeExpr → TypeExpr → TypeExpr → Prop) (fs gs : List (Field TypeExpr)) :
    Field TypeExpr → Prop
  | left {f : Field TypeExpr} (hf : f ∈ fs) (hnew : f.name ∉ gs.map Field.name) :
    ComesFrom p fs gs f
  | right {g : Field TypeExpr} (hg : g ∈ gs) (hnew : g.name ∉ fs.map Field.name) :
    ComesFrom p fs gs g
  | both {f g : Field TypeExpr} {t : TypeExpr} (hf : f ∈ fs) (hg : g ∈ gs)
    (hname : f.name = g.name) (ht : p f.type g.type t) :
    ComesFrom p fs gs ⟨f.name, f.optional && g.optional, t⟩

theorem name_mem (hf : f ∈ fs) : f.name ∈ fs.map Field.name :=
  List.mem_map_of_mem hf

theorem MergesField.comesFrom (hmerge : MergesField p g fs hs) (hfs : (fs.map Field.name).Nodup)
    (hh : h ∈ hs) : ComesFrom p fs [g] h := by
  induction hmerge with
  | last =>
    rw [List.mem_singleton.1 hh]
    exact .right List.mem_cons_self List.not_mem_nil
  | @here f fs t hname ht =>
    rw [List.map_cons, List.nodup_cons] at hfs
    rcases List.mem_cons.1 hh with rfl | hh
    · exact .both List.mem_cons_self List.mem_cons_self hname ht
    · -- the name is not declared a second time
      have hne : h.name ≠ g.name := fun heq => hfs.1 (hname ▸ heq ▸ name_mem hh)
      exact .left (List.mem_cons_of_mem f hh) (by simpa using hne)
  | @there f fs hs hname _ ih =>
    rw [List.map_cons, List.nodup_cons] at hfs
    rcases List.mem_cons.1 hh with rfl | hh
    · exact .left List.mem_cons_self (by simpa using hname)
    · cases ih hfs.2 hh with
      | left hf hnew => exact .left (List.mem_cons_of_mem f hf) hnew
      | right hg hnew =>
        rw [List.mem_singleton.1 hg] at hnew ⊢
        refine .right List.mem_cons_self ?_
        rw [List.map_cons, List.mem_cons, not_or]
        exact ⟨hname.symm, hnew⟩
      | both hf hg heq ht => exact .both (List.mem_cons_of_mem f hf) hg heq ht

theorem Merges.comesFrom (hmerge : Merges p fs gs hs) (hfs : (fs.map Field.name).Nodup)
    (hgs : (gs.map Field.name).Nodup) (hh : h ∈ hs) : ComesFrom p fs gs h := by
  induction hmerge with
  | nil => exact .left hh List.not_mem_nil
  | @cons g fs fs' gs hs hg _ ih =>
    rw [List.map_cons, List.nodup_cons] at hgs
    have hnames := hg.names
    have hsub : fs.map Field.name ⊆ fs'.map Field.name := by
      rw [hnames]
      split <;> simp
    cases ih (hg.nodup_names hfs) hgs.2 hh with
    | left hf hnew =>
      cases hg.comesFrom hfs hf with
      | left hf' hne =>
        refine .left hf' ?_
        rw [List.map_cons, List.mem_cons, not_or]
        exact ⟨by simpa using hne, hnew⟩
      | right hg' hnew' => exact .right (List.mem_singleton.1 hg' ▸ List.mem_cons_self) hnew'
      | both hf' hg' hname ht =>
        exact .both hf' (List.mem_singleton.1 hg' ▸ List.mem_cons_self) hname ht
    | right hg hnew => exact .right (List.mem_cons_of_mem g hg) fun hmem => hnew (hsub hmem)
    | @both f' g' t hf hg' hname ht =>
      have hne : f'.name ≠ g.name := fun heq => hgs.1 (heq ▸ hname ▸ name_mem hg')
      cases hg.comesFrom hfs hf with
      | left hf _ => exact .both hf (List.mem_cons_of_mem g hg') hname ht
      | right hg _ => exact absurd (congrArg Field.name (List.mem_singleton.1 hg)) hne
      | both _ hg heq _ =>
        exact absurd (heq.trans (congrArg Field.name (List.mem_singleton.1 hg))) hne

/-- The names of the left in order, then those that only the right declares in their order. -/
theorem Merges.names (hmerge : Merges p fs gs hs) (hgs : (gs.map Field.name).Nodup) :
    hs.map Field.name =
      fs.map Field.name ++ (gs.map Field.name).filter (· ∉ fs.map Field.name) := by
  induction hmerge with
  | nil => simp
  | @cons g fs fs' gs hs hg _ ih =>
    rw [List.map_cons, List.nodup_cons] at hgs
    rw [ih hgs.2, hg.names, List.map_cons]
    by_cases hmem : g.name ∈ fs.map Field.name
    · rw [if_pos hmem, List.filter_cons_of_neg (by simpa using hmem)]
    · rw [if_neg hmem, List.filter_cons_of_pos (by simpa using hmem), List.append_assoc,
        List.singleton_append]
      congr 2
      apply List.filter_congr
      intro name hname
      have hne : name ≠ g.name := fun heq => hgs.1 (heq ▸ hname)
      simp [hne]

/-- What the fields of an object are that is merged of two others: the names of the left in order
and then those that only the right declares, optional where all that declare them are, with the type
of the one that declares it or with both types joined by `p`. -/
structure MergedFrom (p : TypeExpr → TypeExpr → TypeExpr → Prop)
    (fs gs hs : List (Field TypeExpr)) : Prop where
  names : hs.map Field.name =
    fs.map Field.name ++ (gs.map Field.name).filter (· ∉ fs.map Field.name)
  optional : ∀ h ∈ hs, h.optional ↔ ∀ f ∈ fs ++ gs, f.name = h.name → f.optional
  left : ∀ f ∈ fs, f.name ∉ gs.map Field.name → f ∈ hs
  right : ∀ g ∈ gs, g.name ∉ fs.map Field.name → g ∈ hs
  shared : ∀ f ∈ fs, ∀ g ∈ gs, f.name = g.name →
    ∃ h ∈ hs, h.name = f.name ∧ p f.type g.type h.type

theorem eq_of_name_eq (hfs : (fs.map Field.name).Nodup) (hf : f ∈ fs) (hg : g ∈ fs)
    (hname : f.name = g.name) : f = g :=
  List.inj_on_of_nodup_map hfs hf hg hname

theorem ComesFrom.optional_iff (hh : ComesFrom p fs gs h) (hfs : (fs.map Field.name).Nodup)
    (hgs : (gs.map Field.name).Nodup) :
    h.optional ↔ ∀ f ∈ fs ++ gs, f.name = h.name → f.optional := by
  rw [List.forall_mem_append]
  cases hh with
  | left hf hnew =>
    constructor
    · intro hopt
      refine ⟨fun f' hf' hname => eq_of_name_eq hfs hf' hf hname ▸ hopt, fun g hg hname => ?_⟩
      exact absurd (hname ▸ name_mem hg) hnew
    · exact fun hall => hall.1 h hf rfl
  | right hg hnew =>
    constructor
    · intro hopt
      refine ⟨fun f hf hname => ?_, fun g' hg' hname => eq_of_name_eq hgs hg' hg hname ▸ hopt⟩
      exact absurd (hname ▸ name_mem hf) hnew
    · exact fun hall => hall.2 h hg rfl
  | @both f g t hf hg hname ht =>
    rw [Bool.and_eq_true]
    constructor
    · rintro ⟨hfopt, hgopt⟩
      refine ⟨fun f' hf' hf'name => ?_, fun g' hg' hg'name => ?_⟩
      · exact eq_of_name_eq hfs hf' hf hf'name ▸ hfopt
      · exact eq_of_name_eq hgs hg' hg (hg'name.trans hname) ▸ hgopt
    · exact fun hall => ⟨hall.1 f hf rfl, hall.2 g hg hname.symm⟩

theorem Merges.mergedFrom (hmerge : Merges p fs gs hs) (hfs : (fs.map Field.name).Nodup)
    (hgs : (gs.map Field.name).Nodup) : MergedFrom p fs gs hs := by
  have hnames := hmerge.names hgs
  have hfrom (h : Field TypeExpr) (hh : h ∈ hs) : ComesFrom p fs gs h := hmerge.comesFrom hfs hgs hh
  have hleft (f : Field TypeExpr) (hf : f ∈ fs) : ∃ h ∈ hs, h.name = f.name := by
    apply List.mem_map.1
    rw [hnames]
    exact List.mem_append_left _ (name_mem hf)
  refine ⟨hnames, fun h hh => (hfrom h hh).optional_iff hfs hgs, ?_, ?_, ?_⟩
  · intro f hf hnew
    obtain ⟨h, hh, hname⟩ := hleft f hf
    cases hfrom h hh with
    | left hf' _ => exact eq_of_name_eq hfs hf' hf hname ▸ hh
    | right _ hnew' => exact absurd (hname ▸ name_mem hf) hnew'
    | both _ hg' hname' _ =>
      exact absurd (hname ▸ hname' ▸ name_mem hg') hnew
  · intro g hg hnew
    have hmem : g.name ∈ hs.map Field.name := by
      rw [hnames]
      apply List.mem_append_right
      rw [List.mem_filter]
      exact ⟨name_mem hg, by simpa using hnew⟩
    obtain ⟨h, hh, hname⟩ := List.mem_map.1 hmem
    cases hfrom h hh with
    | left hf' _ => exact absurd (hname ▸ name_mem hf') hnew
    | right hg' _ => exact eq_of_name_eq hgs hg' hg hname ▸ hh
    | both hf' _ _ _ => exact absurd (name_mem hf') (hname ▸ hnew)
  · intro f hf g hg hname
    obtain ⟨h, hh, hhname⟩ := hleft f hf
    refine ⟨h, hh, hhname, ?_⟩
    cases hfrom h hh with
    | left _ hnew => exact absurd (hhname ▸ hname ▸ name_mem hg) hnew
    | right _ hnew => exact absurd (hhname ▸ name_mem hf) hnew
    | both hf' hg' hname' ht =>
      rw [eq_of_name_eq hfs hf hf' hhname.symm,
        eq_of_name_eq hgs hg hg' (hname.symm.trans (hhname.symm.trans hname'))]
      exact ht

/-- No object of a type that was read declares a name twice, no object of a normal form does if none
of the type does, and merging loses no field. -/
theorem distinctNames_and_merged :
    (∀ text t rest, parse text = .ok (t, rest) → t.DistinctNames) ∧
      (∀ t n, t.DistinctNames → normalize t = .ok n → n.DistinctNames) ∧
      ∀ k fs gs hs, (fs.map Field.name).Nodup → (gs.map Field.name).Nodup →
        Gives (mergeFields (meet k) fs gs) hs →
          MergedFrom (fun l r m => (meet k l r).run' 0 = .ok m) fs gs hs := by
  refine ⟨fun text t rest hparse => (of_parse hparse).1.1,
    fun t n hnames hnorm => distinctNames_of_normalize hnorm hnames, ?_⟩
  intro k fs gs hs hfs hgs hgives
  have hmerge := merges_of_gives (fun l r m => (steady_meet k l r).gives_iff.1) hgives
  exact hmerge.mergedFrom hfs hgs

/-- Below, `{ x: string, y?: number } & { z?: null, x?: "k" }` is read, normalized and merged. -/
theorem distinctNames_and_merged_of_two_objects :
    let fs := [⟨"x", false, .leaf .string⟩, ⟨"y", true, .leaf .number⟩]
    let gs := [⟨"z", true, .leaf .null⟩, ⟨"x", true, .leaf (.text "k")⟩]
    let hs := [⟨"x", false, .and (.leaf .string) (.leaf (.text "k"))⟩, ⟨"y", true, .leaf .number⟩,
      ⟨"z", true, .leaf .null⟩]
    let t := and (.object fs) (.object gs)
    parse (t.text .compact) = .ok (t, "") ∧ t.DistinctNames ∧
      normalize t = .ok (.object hs) ∧ (object hs).DistinctNames ∧
      (fs.map Field.name).Nodup ∧ (gs.map Field.name).Nodup ∧
      Gives (mergeFields (meet 0) fs gs) hs ∧
      MergedFrom (fun l r m => (meet 0 l r).run' 0 = .ok m) fs gs hs := by
  intro fs gs hs t
  have hprintable : t.Printable := by simp [t, fs, gs, Printable, Leaf.Printable]
  have hparse : parse (t.text .compact) = .ok (t, "") := parse_text hprintable (by decide) .compact
  have hnorm : normalize t = .ok (.object hs) := rfl
  have hgives : Gives (mergeFields (meet 0) fs gs) hs := ⟨0, 0, rfl⟩
  have hfs : (fs.map Field.name).Nodup := by simp [fs]
  have hgs : (gs.map Field.name).Nodup := by simp [gs]
  obtain ⟨hread, hkept, hmerged⟩ := distinctNames_and_merged
  have hnames := hread _ t "" hparse
  exact ⟨hparse, hnames, hnorm, hkept t _ hnames hnorm, hfs, hgs, hgives,
    hmerged 0 fs gs hs hfs hgs hgives⟩

end StructuralTypes.TypeExpr
