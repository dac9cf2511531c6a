import StructuralTypes.Proofs.NearestInteger
import StructuralTypes.Proofs.Resemblance

namespace StructuralTypes

namespace Value

inductive Part : Value → Value → Prop
  | self {v} : Part v v
  | item {u w vs} (hw : w ∈ vs) (h : Part u w) : Part u (.array vs)
  | entry {u e es} (he : e ∈ es) (h : Part u e.2) : Part u (.object es)

/-- The value is a number equal to 0 or 1. -/
def IsBit : Value → Prop
  | .integer n => n = 0 ∨ n = 1
  | .float x => x == 0 ∨ x == 1
  | _ => False

variable {o o' : Options} {u v w : Value} {b : Bool}

theorem Part.trans (h : Part u w) (h' : Part w v) : Part u v := by
  induction h' with
  | self => exact h
  | item hw _ ih => exact .item hw ih
  | entry he _ ih => exact .entry he ih

/-- Converted to floating point, only the numbers 0 and 1 are 0 and 1. -/
theorem isBit_iff {x : Float} (h : v.toFloat? = some x) : v.IsBit ↔ (x == 0) ∨ x == 1 := by
  cases v with
  | integer n =>
    cases h
    exact or_congr Binary64.ofInt_beq_zero_iff.symm Binary64.ofInt_beq_one_iff.symm
  | float x =>
    cases h
    rfl
  | _ => cases h

theorem truth?_strict (h : v.truth? ⟨false⟩ = some b) : v.truth? o = some b := by
  cases v with
  | boolean c => exact h
  | _ => simp [truth?] at h

/-- Whether other values than 0 and 1 are truth values does not depend on the options. -/
theorem truth?_eq_of_not_isBit (h : ¬ v.IsBit) : v.truth? o = v.truth? o' := by
  have hnone (o : Options) (hv : ∀ b, v ≠ .boolean b) : v.truth? o = none := by
    unfold truth?
    split
    · next b => exact absurd rfl (hv b)
    · split
      · cases hx : v.toFloat? with
        | none => rfl
        | some x =>
          rw [isBit_iff hx, not_or] at h
          simp [h.1, h.2]
      · rfl
  cases v with
  | boolean b => rfl
  | _ => rw [hnone o (by simp), hnone o' (by simp)]

end Value

namespace Leaf

/-- The leaf asks for a truth value. -/
def AsksTruth : Leaf → Prop
  | .boolean | .true | .false => True
  | _ => False

variable {o o' : Options} {v : Value} {k : Leaf}

theorem accepts_eq_of_not_asksTruth (h : ¬ k.AsksTruth) : k.accepts o v = k.accepts o' v := by
  cases k with
  | boolean => exact absurd trivial h
  | true => exact absurd trivial h
  | false => exact absurd trivial h
  | _ => cases v <;> rfl

theorem accepts_eq_of_truth? (h : v.truth? o = v.truth? o') : k.accepts o v = k.accepts o' v := by
  cases k with
  | boolean => exact congrArg Option.isSome h
  | true => exact congrArg (· == some Bool.true) h
  | false => exact congrArg (· == some Bool.false) h
  | _ => exact accepts_eq_of_not_asksTruth id

theorem accepts_of_strict (h : k.accepts ⟨Bool.false⟩ v) : k.accepts o v := by
  cases k with
  | boolean =>
    obtain ⟨b, hb⟩ := Option.isSome_iff_exists.1 h
    exact Option.isSome_iff_exists.2 ⟨b, Value.truth?_strict hb⟩
  | true => exact beq_iff_eq.2 (Value.truth?_strict (beq_iff_eq.1 h))
  | false => exact beq_iff_eq.2 (Value.truth?_strict (beq_iff_eq.1 h))
  | _ => exact (accepts_eq_of_not_asksTruth id).trans h

end Leaf

namespace TypeExpr

variable {o o' : Options} {t : TypeExpr} {v : Value}

/-- What matches still matches if the leaves accept more. -/
theorem Matches.mono (h : ∀ k w, Leaf.accepts o k w → Leaf.accepts o' k w) (hm : Matches o t v) :
    Matches o' t v := by
  induction hm with
  | leaf hk => exact .leaf (h _ _ hk)
  | object _ absent declared ih => exact .object ih absent declared
  | array _ ih => exact .array ih
  | and _ _ ihl ihr => exact .and ihl ihr
  | left _ ih => exact .left ih
  | right _ ih => exact .right ih
  | group _ ih => exact .group ih

/-- The options matter only to the leaves of the type and what they are asked about. -/
theorem resemblance_part {p : Leaf → Prop}
    (h : ∀ k u, p k → u.Part v → k.accepts o u = k.accepts o' u) :
    Resemblance o o' p fun u w => u = w ∧ u.Part v where
  kind := by
    rintro u _ ⟨rfl, -⟩
    rfl
  leaf := by
    rintro u _ k ⟨rfl, hu⟩ hk
    rw [Leaf.check, Leaf.check, h k u hk hu]
  items := by
    rintro vs _ ⟨heq, hvs⟩
    cases heq
    exact List.forall₂_same.2 fun w hw => ⟨rfl, (Value.Part.item hw .self).trans hvs⟩
  entries := by
    rintro es _ ⟨heq, hes⟩ name
    cases heq
    cases hlookup : es.lookup name with
    | none => exact .none
    | some w =>
      obtain ⟨before, after, rfl, -⟩ := List.lookup_eq_some_iff.1 hlookup
      have hw : Value.Part w (.object (before ++ (name, w) :: after)) :=
        .entry (e := (name, w)) (by simp) .self
      exact .some ⟨rfl, hw.trans hes⟩

/-- With 0 and 1 as truth values everything still matches that did without, and every check ends as
it did without, with the same mismatch if there is one, if the value has no number in it that is
equal to 0 or 1 or the type has nothing in it that asks for a truth value. -/
theorem check_casual (t : TypeExpr) (v : Value) :
    (t.check ⟨false⟩ v = .ok () → t.check ⟨true⟩ v = .ok ()) ∧
    ((∀ u : Value, u.Part v → ¬ u.IsBit) → t.check ⟨true⟩ v = t.check ⟨false⟩ v) ∧
    ((∀ k, leaf k ∈ t.subterms → ¬ k.AsksTruth) → t.check ⟨true⟩ v = t.check ⟨false⟩ v) := by
  refine ⟨fun h => ?_, fun hv => ?_, fun ht => ?_⟩
  · rw [check_eq_ok_iff_matches] at h ⊢
    exact h.mono fun k w => Leaf.accepts_of_strict
  · have hr : Resemblance ⟨true⟩ ⟨false⟩ (fun _ => True) fun u w => u = w ∧ u.Part v :=
      resemblance_part fun k u _ hu =>
        Leaf.accepts_eq_of_truth? (Value.truth?_eq_of_not_isBit (hv u hu))
    exact hr.check_eq (fun _ _ _ _ => trivial) ⟨rfl, .self⟩
  · have hr : Resemblance ⟨true⟩ ⟨false⟩ (fun k => ¬ k.AsksTruth) fun u w => u = w ∧ u.Part v :=
      resemblance_part fun k u hk _ => Leaf.accepts_eq_of_not_asksTruth hk
    refine hr.check_eq (fun u hu k hk => ?_) ⟨rfl, .self⟩
    rw [hk] at hu
    exact ht k hu

/-- Below, `Array<boolean | null>` tells the options apart by the number 1, and only by such. -/
theorem check_casual_of_arrays :
    let t := array (.or (.leaf .boolean) (.leaf .null))
    let s := array (.or (.leaf .number) (.leaf .null))
    let v := Value.array [.boolean true, .null]
    let w := Value.array [.integer 2, .integer (2 ^ 70)]
    let bit := Value.array [.null, .integer 1]
    (t.check ⟨false⟩ v = .ok () ∧ t.check ⟨true⟩ v = .ok ()) ∧
      ((∀ u : Value, u.Part w → ¬ u.IsBit) ∧ t.check ⟨true⟩ w = t.check ⟨false⟩ w) ∧
      ((∀ k, leaf k ∈ s.subterms → ¬ k.AsksTruth) ∧ s.check ⟨true⟩ bit = s.check ⟨false⟩ bit) ∧
      t.check ⟨true⟩ bit = .ok () ∧ t.check ⟨false⟩ bit ≠ .ok () := by
  intro t s v w bit
  have hv : t.check ⟨false⟩ v = .ok () := rfl
  have hw : ∀ u : Value, u.Part (.array [.integer 2, .integer (2 ^ 70)]) → ¬ u.IsBit := by
    intro u hu
    cases hu with
    | self => exact id
    | item hmem hu =>
      rcases List.mem_pair.1 hmem with rfl | rfl
      · cases hu
        simp [Value.IsBit]
      · cases hu
        simp [Value.IsBit]
  have hs : ∀ k, leaf k ∈ s.subterms → ¬ k.AsksTruth := by
    simp [s, subterms, Leaf.AsksTruth]
  have hbit : t.check ⟨true⟩ bit = .ok () := by
    rw [check_eq_ok_iff_matches]
    refine .array fun u hu => ?_
    rcases List.mem_pair.1 hu with rfl | rfl
    · exact .right (.leaf rfl)
    · exact .left (.leaf (by decide))
  have hstrict : t.check ⟨false⟩ bit ≠ .ok () := by
    intro h
    cases h
  exact ⟨⟨hv, (check_casual t v).1 hv⟩, ⟨hw, (check_casual t w).2.1 hw⟩,
    ⟨hs, (check_casual s bit).2.2 hs⟩, hbit, hstrict⟩

end TypeExpr

end StructuralTypes
