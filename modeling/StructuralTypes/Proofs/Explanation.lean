import Mathlib.Data.String.Basic
import StructuralTypes.Proofs.Operands

namespace StructuralTypes

namespace TypeExpr

inductive Matches (o : Options) : TypeExpr → Value → Prop
  | leaf {k v} (h : k.accepts o v) : Matches o (.leaf k) v
  | object {fields entries}
    (present : ∀ f ∈ fields, ∀ w, entries.lookup f.name = some w → Matches o f.type w)
    (absent : ∀ f ∈ fields, entries.lookup f.name = none → f.optional)
    (declared : ∀ e ∈ entries, ∃ f ∈ fields, f.name = e.1) :
    Matches o (.object fields) (.object entries)
  | array {item items} (h : ∀ w ∈ items, Matches o item w) : Matches o (.array item) (.array items)
  | and {l r v} (hl : Matches o l v) (hr : Matches o r v) : Matches o (.and l r) v
  | left {l r v} (h : Matches o l v) : Matches o (.or l r) v
  | right {l r v} (h : Matches o r v) : Matches o (.or l r) v
  | group {content v} (h : Matches o content v) : Matches o (.group content) v

def Passes (o : Options) (entries : List (String × Value)) (f : Field TypeExpr) : Prop :=
  (∃ w, entries.lookup f.name = some w ∧ Matches o f.type w) ∨
    entries.lookup f.name = none ∧ f.optional

def Extra (fields : List (Field TypeExpr)) (entries : List (String × Value)) (name : String) :
    Prop :=
  name ∈ entries.map Prod.fst ∧ ∀ f ∈ fields, f.name ≠ name

/-- The value does not match the type, and the mismatch says why. -/
inductive Fails (o : Options) : TypeExpr → Value → Mismatch → Prop
  | wrongKind {k v} (hkind : k.isKind) (h : ¬ k.accepts o v) :
    Fails o (.leaf k) v (.wrongKind k.render v.kind)
  | wrongValue {k v} (hkind : ¬ k.isKind) (h : ¬ k.accepts o v) :
    Fails o (.leaf k) v (.wrongValue k.render v.describe)
  | notObject {fields v} (h : ∀ entries, v ≠ .object entries) :
    Fails o (.object fields) v (.wrongKind ((object fields).text .compact) v.kind)
  | inField {before f after entries w cause} (hbefore : ∀ g ∈ before, Passes o entries g)
    (hw : entries.lookup f.name = some w) (h : Fails o f.type w cause) :
    Fails o (.object (before ++ f :: after)) (.object entries) (.inField f.name cause)
  | missing {before f after entries} (hbefore : ∀ g ∈ before, Passes o entries g)
    (habsent : entries.lookup f.name = none) (hrequired : ¬ f.optional) :
    Fails o (.object (before ++ f :: after)) (.object entries) (.missingField f.name)
  | extra {fields entries name} (hfields : ∀ f ∈ fields, Passes o entries f)
    (hname : Extra fields entries name)
    (hleast : ∀ other, Extra fields entries other → name ≤ other) :
    Fails o (.object fields) (.object entries) (.extraField name)
  | notArray {item v} (h : ∀ items, v ≠ .array items) :
    Fails o (.array item) v (.wrongKind ((array item).text .compact) v.kind)
  | atIndex {item before w after cause} (hbefore : ∀ u ∈ before, Matches o item u)
    (h : Fails o item w cause) :
    Fails o (.array item) (.array (before ++ w :: after)) (.atIndex before.length cause)
  | and {l r before u after v e} (hchain : (and l r).chain .and = before ++ u :: after)
    (hbefore : ∀ t ∈ before, Matches o t v) (h : Fails o u v e) : Fails o (.and l r) v e
  | or {l r v causes} (hlength : ((or l r).chain .or).length = causes.length)
    (h : ∀ u cause, (u, cause) ∈ ((or l r).chain .or).zip causes → Fails o u v cause) :
    Fails o (.or l r) v (.noAlternative ((or l r).text .compact) causes)
  | group {content v e} (h : Fails o content v e) : Fails o (.group content) v e

end TypeExpr

variable {o : Options} {v : Value} {t l r item content : TypeExpr} {e : Mismatch}
  {f : Field TypeExpr} {fields : List (Field TypeExpr)} {entries : List (String × Value)}

namespace Verdict

theorem least?_eq_min? (names : List String) : least? names = names.min? := by
  cases names with
  | nil => rfl
  | cons name names =>
    rw [least?, List.min?_cons']
    congr
    funext s t
    rw [min_comm, min_def_lt]

theorem least?_eq_some {names : List String} {name : String} :
    least? names = some name ↔ name ∈ names ∧ ∀ other ∈ names, name ≤ other := by
  rw [least?_eq_min?, List.min?_eq_some_iff]

theorem closed_eq_error : closed fields entries = .error e ↔ ∃ name, e = .extraField name ∧
    TypeExpr.Extra fields entries name ∧
      ∀ other, TypeExpr.Extra fields entries other → name ≤ other := by
  have hextra (name : String) : name ∈ ((entries.map Prod.fst).filter fun name =>
      !fields.any (·.name == name)) ↔ TypeExpr.Extra fields entries name := by
    simp [TypeExpr.Extra]
  simp only [← hextra, ← least?_eq_some]
  unfold closed
  split
  · next name h => simp [h, eq_comm]
  · next h => simp [h]

end Verdict

namespace TypeExpr

/-- Checking finds exactly the values that match. -/
theorem check_eq_ok_iff_matches : t.check o v = .ok () ↔ Matches o t v := by
  induction t generalizing v with
  | leaf k =>
    rw [check_leaf_eq_ok]
    refine ⟨.leaf, fun hmatches => ?_⟩
    cases hmatches with
    | leaf h => exact h
  | object fields ih =>
    rw [check_object_eq_ok]
    constructor
    · rintro ⟨entries, rfl, hfields, hdeclared⟩
      refine .object (fun f hf w hw => ?_) (fun f hf habsent => ?_) hdeclared
      · have := hfields f hf
        rw [hw] at this
        exact (ih f hf).1 this
      · have := hfields f hf
        rw [habsent] at this
        exact this
    · intro hmatches
      cases hmatches with
      | object present absent declared =>
        refine ⟨_, rfl, fun f hf => ?_, declared⟩
        split
        · next w hw => exact (ih f hf).2 (present f hf w hw)
        · next habsent => exact absent f hf habsent
  | array item ih =>
    rw [check_array_eq_ok]
    constructor
    · rintro ⟨items, rfl, hitems⟩
      exact .array fun w hw => ih.1 (hitems w hw)
    · intro hmatches
      cases hmatches with
      | array hitems => exact ⟨_, rfl, fun w hw => ih.2 (hitems w hw)⟩
  | and l r ihl ihr =>
    rw [check_and_eq_ok, ihl, ihr]
    refine ⟨fun ⟨hl, hr⟩ => .and hl hr, fun hmatches => ?_⟩
    cases hmatches with
    | and hl hr => exact ⟨hl, hr⟩
  | or l r ihl ihr =>
    rw [check_or_eq_ok, ihl, ihr]
    refine ⟨fun h => h.elim .left .right, fun hmatches => ?_⟩
    cases hmatches with
    | left h => exact .inl h
    | right h => exact .inr h
  | group content ih =>
    rw [check_group_eq_ok, ih]
    refine ⟨.group, fun hmatches => ?_⟩
    cases hmatches with
    | group h => exact h

def checkField (o : Options) (entries : List (String × Value)) (f : Field TypeExpr) : Verdict :=
  match entries.lookup f.name with
  | some w => (f.type.check o w).mapError (.inField f.name)
  | none => if f.optional then .ok () else .error (.missingField f.name)

theorem checkFields_eq_forM :
    checkFields o fields entries = forM fields (checkField o entries) := by
  induction fields with
  | nil => rfl
  | cons f fields ih =>
    rw [checkFields, ih, List.forM_cons, checkField]
    cases entries.lookup f.name with
    | none => cases f.optional <;> rfl
    | some w => rfl

theorem checkField_eq_ok : checkField o entries f = .ok () ↔ Passes o entries f := by
  unfold checkField Passes
  cases entries.lookup f.name with
  | none => simp
  | some w => simp [Verdict.mapError_eq_ok, check_eq_ok_iff_matches]

theorem checkField_eq_error : checkField o entries f = .error e ↔
    (∃ w cause, entries.lookup f.name = some w ∧ f.type.check o w = .error cause ∧
      e = .inField f.name cause) ∨
    entries.lookup f.name = none ∧ ¬ f.optional ∧ e = .missingField f.name := by
  unfold checkField
  cases entries.lookup f.name with
  | none => cases f.optional <;> simp [eq_comm]
  | some w => simp [Verdict.mapError_eq_error]

theorem check_object_eq_error : (object fields).check o (.object entries) = .error e ↔
    (∃ before f after, fields = before ++ f :: after ∧ (∀ g ∈ before, Passes o entries g) ∧
      ((∃ w cause, entries.lookup f.name = some w ∧ f.type.check o w = .error cause ∧
          e = .inField f.name cause) ∨
        entries.lookup f.name = none ∧ ¬ f.optional ∧ e = .missingField f.name)) ∨
    (∀ f ∈ fields, Passes o entries f) ∧ ∃ name, e = .extraField name ∧
      Extra fields entries name ∧ ∀ other, Extra fields entries other → name ≤ other := by
  rw [check_object, Verdict.seq_eq_error, checkFields_eq_forM, Verdict.forM_eq_error,
    Verdict.forM_eq_ok, Verdict.closed_eq_error]
  simp only [checkField_eq_ok, checkField_eq_error]

def Explained (o : Options) (t : TypeExpr) : Prop :=
  ∀ v e, t.check o v = .error e ↔ Fails o t v e

theorem explained_leaf (k : Leaf) : Explained o (.leaf k) := by
  intro v e
  rw [check_leaf, Leaf.check]
  constructor
  · intro h
    split at h
    · cases h
    · next haccepts =>
      split at h
      · next hkind =>
        cases h
        exact .wrongKind hkind haccepts
      · next hkind =>
        cases h
        exact .wrongValue hkind haccepts
  · intro h
    cases h with
    | wrongKind hkind h => rw [if_neg h, if_pos hkind]
    | wrongValue hkind h => rw [if_neg h, if_neg hkind]

theorem explained_object (h : ∀ f ∈ fields, Explained o f.type) :
    Explained o (.object fields) := by
  intro v e
  constructor
  · intro hcheck
    cases v with
    | object entries =>
      rcases check_object_eq_error.1 hcheck with
        ⟨before, f, after, rfl, hbefore, hf⟩ | ⟨hfields, name, rfl, hname, hleast⟩
      · rcases hf with ⟨w, cause, hw, hcause, rfl⟩ | ⟨habsent, hrequired, rfl⟩
        · exact .inField hbefore hw ((h f (by simp) w cause).1 hcause)
        · exact .missing hbefore habsent hrequired
      · exact .extra hfields hname hleast
    | _ =>
      rw [check_object_of_ne (by simp)] at hcheck
      cases hcheck
      exact .notObject (by simp)
  · intro hfails
    cases hfails with
    | notObject hv => exact check_object_of_ne hv
    | @inField before f after entries w cause hbefore hw hf =>
      rw [check_object_eq_error]
      have hcause := (h f (by simp) w cause).2 hf
      exact .inl ⟨before, f, after, rfl, hbefore, .inl ⟨w, cause, hw, hcause, rfl⟩⟩
    | @missing before f after entries hbefore habsent hrequired =>
      rw [check_object_eq_error]
      exact .inl ⟨before, f, after, rfl, hbefore, .inr ⟨habsent, hrequired, rfl⟩⟩
    | extra hfields hname hleast =>
      rw [check_object_eq_error]
      exact .inr ⟨hfields, _, rfl, hname, hleast⟩

theorem explained_array (h : Explained o item) : Explained o (.array item) := by
  intro v e
  constructor
  · intro hcheck
    cases v with
    | array items =>
      rw [check_array, Verdict.items_eq_error] at hcheck
      obtain ⟨before, w, after, cause, rfl, hbefore, hw, rfl⟩ := hcheck
      exact .atIndex (fun u hu => check_eq_ok_iff_matches.1 (hbefore u hu)) ((h w cause).1 hw)
    | _ =>
      rw [check_array_of_ne (by simp)] at hcheck
      cases hcheck
      exact .notArray (by simp)
  · intro hfails
    cases hfails with
    | notArray hv => exact check_array_of_ne hv
    | atIndex hbefore hw =>
      rw [check_array, Verdict.items_eq_error]
      refine ⟨_, _, _, _, rfl, fun u hu => ?_, (h _ _).2 hw, rfl⟩
      exact check_eq_ok_iff_matches.2 (hbefore u hu)

theorem explained_and (h : ∀ u ∈ (and l r).chain .and, Explained o u) : Explained o (.and l r) := by
  intro v e
  rw [check_eq_forM, Verdict.forM_eq_error]
  constructor
  · rintro ⟨before, u, after, hchain, hbefore, hu⟩
    refine .and hchain (fun t ht => check_eq_ok_iff_matches.1 (hbefore t ht)) ((h u ?_ v e).1 hu)
    simp [hchain]
  · intro hfails
    cases hfails with
    | @and _ _ before u after _ _ hchain hbefore hu =>
      refine ⟨before, u, after, hchain, fun t ht => ?_, (h u ?_ v e).2 hu⟩
      · exact check_eq_ok_iff_matches.2 (hbefore t ht)
      · simp [hchain]

theorem explained_or (h : ∀ u ∈ (or l r).chain .or, Explained o u) : Explained o (.or l r) := by
  intro v e
  rw [check_or_eq_error]
  constructor
  · rintro ⟨causes, rfl, hcauses⟩
    obtain ⟨hlength, hcauses⟩ := List.forall₂_iff_zip.1 hcauses
    refine .or hlength fun u cause hmem => ?_
    exact (h u (List.of_mem_zip hmem).1 v cause).1 (hcauses hmem)
  · intro hfails
    cases hfails with
    | or hlength hcauses =>
      refine ⟨_, rfl, List.forall₂_iff_zip.2 ⟨hlength, fun {u cause} hmem => ?_⟩⟩
      exact (h u (List.of_mem_zip hmem).1 v cause).2 (hcauses u cause hmem)

theorem explained_group (h : Explained o content) : Explained o (.group content) := by
  intro v e
  rw [check_group, h v e]
  refine ⟨.group, fun hfails => ?_⟩
  cases hfails with
  | group h => exact h

theorem explained (t : TypeExpr) : Explained o t := by
  induction t using chainInduct with
  | leaf k => exact explained_leaf k
  | object fields ih => exact explained_object ih
  | array item ih => exact explained_array ih
  | and l r ih => exact explained_and ih
  | or l r ih => exact explained_or ih
  | group content ih => exact explained_group ih

/-- A check fails exactly with the mismatch that says what is wrong, and succeeds exactly where
nothing is wrong at any level, which is where the value matches. -/
theorem check_explained (o : Options) (t : TypeExpr) (v : Value) :
    (∀ e, t.check o v = .error e ↔ Fails o t v e) ∧
      (t.check o v = .ok () ↔ ∀ e, ¬ Fails o t v e) ∧ (t.check o v = .ok () ↔ Matches o t v) := by
  have hfails (e : Mismatch) : t.check o v = .error e ↔ Fails o t v e := explained t v e
  refine ⟨hfails, ?_, check_eq_ok_iff_matches⟩
  simp only [← hfails]
  cases t.check o v <;> simp

example : (object [⟨"user", false, .array (.or (.leaf .null) (.leaf .number))⟩]).check ⟨false⟩
      (.object [("user", .array [.integer 1, .string "old"]), ("alpha", .null)]) =
    .error (.inField "user" (.atIndex 1 (.noAlternative "null | number"
      [.wrongValue "null" "\"old\"", .wrongKind "number" "string"]))) := rfl

end TypeExpr
end StructuralTypes
