import StructuralTypes.Proofs.OpenLevels
import StructuralTypes.Proofs.Recompile

namespace StructuralTypes

/-- The error can come of reading: only the nesting of the text is limited. -/
def ReadError.OfReading : ReadError → Prop
  | .tooDeep limit => limit = maxDepth
  | .trailing _ | .tooManyAlternatives _ => False
  | _ => True

theorem ReadError.Syntactic.ofReading {e : ReadError} (h : e.Syntactic) : e.OfReading := by
  cases e <;> first | exact h.elim | trivial

namespace Reading

def FailsReading (r : Reading α) : Prop :=
  ∀ c e d, r c = .error e d → e.OfReading

theorem Counts.failsReading {α : Type} {low k : Nat} {r : Reading α} (h : Counts low k r) :
    FailsReading r := by
  intro c e d hfail
  obtain hsyntactic | ⟨rfl, -⟩ := (h.error hfail).reason
  · exact hsyntactic.ofReading
  · rfl

theorem failsReading_typeWithin (n : Nat) : FailsReading (typeWithin n).run :=
  (counts_typeWithin n).failsReading

end Reading

namespace TypeExpr

variable {t n : TypeExpr} {text rest : String} {e : ReadError}

theorem ofReading_of_parse (h : parse text = .error e) : e.OfReading := by
  unfold parse at h
  split at h <;> cases h
  next hread => exact Reading.failsReading_typeWithin maxDepth _ _ _ hread

/-- An object without fields counts as a level for the type, but not for its text. -/
theorem levels_le_maxDepth_of_parse (h : parse text = .ok (t, rest)) : t.levels 1 ≤ maxDepth := by
  have := (of_parse h).2.2
  have := levels_one_le (t := t)
  omega

theorem levels_le_of_normalize (h : normalize t = .ok n) : n.levels 1 ≤ t.levels 1 :=
  (levels_le_of_normalizeWithin (gives_of_normalize h)).trans (levels_regroup_le.2 (Nat.le_refl _))

theorem compile_eq_error (h : compile text = .error e) : parse text = .error e ∨
    ∃ t rest, parse text = .ok (t, rest) ∧
      (rest ≠ "" ∧ e = .trailing rest ∨ rest = "" ∧ normalize t = .error e) := by
  unfold compile at h
  rcases except_bind_eq_error.1 h with h | ⟨⟨t, rest⟩, hparse, h⟩
  · exact .inl h
  · refine .inr ⟨t, rest, hparse, ?_⟩
    dsimp only at h
    split at h
    · next hrest => exact .inr ⟨String.isEmpty_iff.1 hrest, h⟩
    · next hrest =>
      cases h
      exact .inl ⟨fun hempty => hrest (String.isEmpty_iff.2 hempty), rfl⟩

/-- Text is never too deep to be normalized: what is read nests at most `maxDepth` levels deep, a
type with at most `maxLevels` levels is not too deep, and normalizing adds no level. -/
theorem compile_ne_tooDeep :
    (∀ text, compile text ≠ .error (.tooDeep maxLevels)) ∧
      (∀ text t rest, parse text = .ok (t, rest) → t.levels 1 ≤ maxDepth) ∧
      (∀ t limit, t.levels 1 ≤ maxLevels → normalize t ≠ .error (.tooDeep limit)) ∧
      (∀ t n, normalize t = .ok n → n.levels 1 ≤ t.levels 1) ∧
      ∀ text t e, parse text = .ok (t, "") → compile text = .error e →
        e = .tooManyAlternatives maxAlternatives := by
  have honly (text t e) (hparse : parse text = .ok (t, "")) (hnorm : normalize t = .error e) :
      e = .tooManyAlternatives maxAlternatives := by
    refine eq_tooManyAlternatives_of_normalize ?_ hnorm
    exact (levels_le_maxDepth_of_parse hparse).trans (by decide)
  refine ⟨fun text h => ?_, fun _ _ _ => levels_le_maxDepth_of_parse, fun t limit ht h => ?_,
    fun _ _ => levels_le_of_normalize, fun text t e hparse h => ?_⟩
  · rcases compile_eq_error h with h | ⟨t, rest, hparse, ⟨-, h⟩ | ⟨rfl, h⟩⟩
    · have hlimits : maxLevels = maxDepth := ofReading_of_parse h
      cases hlimits
    · cases h
    · cases honly text t _ hparse h
  · cases eq_tooManyAlternatives_of_normalize ht h
  · rw [compile_of_parse hparse] at h
    exact honly text t e hparse h

set_option maxRecDepth 2000 in
/-- Below, `Array<({ f: {} })>` has 4 levels and is its normal form; two unions of 65 alternatives
are read, but their intersection makes too many. -/
theorem compile_ne_tooDeep_of_parse :
    let t := array (.group (.object [⟨"f", false, .object []⟩]))
    let u := (List.replicate 64 (leaf .string)).foldl or (.leaf .string)
    let p := and (.group u) (.group u)
    parse (t.text .compact) = .ok (t, "") ∧ t.levels 1 = 4 ∧ normalize t = .ok t ∧
      (∀ limit, normalize t ≠ .error (.tooDeep limit)) ∧ t.levels 1 ≤ maxDepth ∧
      parse (p.text .compact) = .ok (p, "") ∧
      compile (p.text .compact) = .error (.tooManyAlternatives maxAlternatives) := by
  intro t u p
  have hread : parse (t.text .compact) = .ok (t, "") :=
    parse_text (by simp [t, Printable]) (by decide) .compact
  have hover : parse (p.text .compact) = .ok (p, "") :=
    parse_text (by simp [p, u, Printable, Leaf.Printable]) (by decide) .compact
  obtain ⟨-, hlevels, hdeep, -, honly⟩ := compile_ne_tooDeep
  refine ⟨hread, rfl, rfl, fun limit => hdeep t limit (by decide), hlevels _ t "" hread, hover, ?_⟩
  cases h : compile (p.text .compact) with
  | ok n =>
    rw [compile_of_parse hover] at h
    have hfail : normalize p = .error (.tooManyAlternatives maxAlternatives) := rfl
    cases hfail.symm.trans h
  | error e => rw [honly _ p e hover h]

end TypeExpr

end StructuralTypes
