import StructuralTypes.Proofs.Grammar.Precedence

namespace StructuralTypes

/-- A derivation by `E := A ('|' A)*`, `A := P ('&' P)*`, `P := type | '(' E ')'`. A chain is
derived from its last operand, after the chain of those before it. -/
inductive Derivation : Level → Type
  | operand (t : TypeExpr) : Derivation .operand
  | group (content : Derivation .union) : Derivation .operand
  | intersection (only : Derivation .operand) : Derivation .intersection
  | and (before : Derivation .intersection) (last : Derivation .operand) : Derivation .intersection
  | union (only : Derivation .intersection) : Derivation .union
  | or (before : Derivation .union) (last : Derivation .intersection) : Derivation .union

namespace Derivation

def terms {level : Level} : Derivation level → List Term
  | .operand t => [.operand t]
  | .group content => .openGroup :: (content.terms ++ [.closeGroup])
  | .intersection only => only.terms
  | .and before last => before.terms ++ .connective .and :: last.terms
  | .union only => only.terms
  | .or before last => before.terms ++ .connective .or :: last.terms

def type {level : Level} : Derivation level → TypeExpr
  | .operand t => t
  | .group content => .group content.type
  | .intersection only => only.type
  | .and before last => .and before.type last.type
  | .union only => only.type
  | .or before last => .or before.type last.type

variable {level : Level} {t : TypeExpr} {ts : List Term}

theorem derives (d : Derivation level) : Derives level d.type d.terms := by
  induction d with
  | operand t => exact .operand
  | group content ih => exact .group ih
  | intersection only ih => exact .intersection ih
  | and before last ihb ihl => exact .and ihb ihl
  | union only ih => exact .union ih
  | or before last ihb ihl => exact .or ihb ihl

theorem exists_of_derives (h : Derives level t ts) :
    ∃ d : Derivation level, d.terms = ts ∧ d.type = t := by
  induction h with
  | @operand t => exact ⟨.operand t, rfl, rfl⟩
  | group h ih =>
    obtain ⟨d, rfl, rfl⟩ := ih
    exact ⟨.group d, rfl, rfl⟩
  | intersection h ih =>
    obtain ⟨d, rfl, rfl⟩ := ih
    exact ⟨.intersection d, rfl, rfl⟩
  | and hl hr ihl ihr =>
    obtain ⟨d, rfl, rfl⟩ := ihl
    obtain ⟨e, rfl, rfl⟩ := ihr
    exact ⟨.and d e, rfl, rfl⟩
  | union h ih =>
    obtain ⟨d, rfl, rfl⟩ := ih
    exact ⟨.union d, rfl, rfl⟩
  | or hl hr ihl ihr =>
    obtain ⟨d, rfl, rfl⟩ := ihl
    obtain ⟨e, rfl, rfl⟩ := ihr
    exact ⟨.or d e, rfl, rfl⟩

/-- An expression of the level may begin after these terms: its first operand does not belong to a
chain with the terms before it. -/
def Begins (ts : List Term) : Level → Prop
  | .operand => True
  | .intersection => ∀ us, ts ≠ us ++ [.connective .and]
  | .union => ∀ us op, ts ≠ us ++ [.connective op]

theorem append_terms_and (ts : List Term) (before : Derivation .intersection)
    (last : Derivation .operand) : ts ++ (Derivation.and before last).terms =
      (ts ++ before.terms ++ [.connective .and]) ++ last.terms := by
  simp [terms]

theorem append_terms_or (ts : List Term) (before : Derivation .union)
    (last : Derivation .intersection) : ts ++ (Derivation.or before last).terms =
      (ts ++ before.terms ++ [.connective .or]) ++ last.terms := by
  simp [terms]

theorem append_terms_group (ts : List Term) (content : Derivation .union) :
    ts ++ (group content).terms = ((ts ++ [.openGroup]) ++ content.terms) ++ [.closeGroup] := by
  simp [terms]

theorem begins_openGroup (ts : List Term) : Begins (ts ++ [.openGroup]) .union := by
  simp [Begins]

theorem begins_or (ts : List Term) : Begins (ts ++ [.connective .or]) .intersection := by
  simp [Begins]

theorem Begins.intersection (h : Begins ts .union) : Begins ts .intersection :=
  fun us => h us .and

/-- Where a derivation begins after some terms is determined, and so is the derivation. -/
theorem eq_of_append_terms {d e : Derivation level} {us : List Term} (ht : Begins ts level)
    (hu : Begins us level) (h : ts ++ d.terms = us ++ e.terms) : ts = us ∧ d = e := by
  -- both are read from the right, where an operand ends by itself and a chain with its last operand
  induction d generalizing ts us with
  | operand t =>
    cases e with
    | operand u =>
      obtain ⟨hts, hlast⟩ := List.append_inj' h rfl
      exact ⟨hts, by simpa [terms] using hlast⟩
    | group content =>
      rw [append_terms_group] at h
      cases (List.append_inj' h rfl).2
  | group content ih =>
    rw [append_terms_group] at h
    cases e with
    | operand u => cases (List.append_inj' h rfl).2
    | group content' =>
      rw [append_terms_group] at h
      have hcontent := List.append_cancel_right h
      obtain ⟨hts, rfl⟩ := ih (begins_openGroup ts) (begins_openGroup us) hcontent
      exact ⟨List.append_cancel_right hts, rfl⟩
  | intersection only ih =>
    cases e with
    | intersection only' =>
      obtain ⟨hts, rfl⟩ := ih trivial trivial h
      exact ⟨hts, rfl⟩
    | and before last =>
      rw [append_terms_and] at h
      exact absurd (ih trivial trivial h).1 (ht _)
  | and before last ihb ihl =>
    rw [append_terms_and] at h
    cases e with
    | intersection only => exact absurd (ihl trivial trivial h).1.symm (hu _)
    | and before' last' =>
      rw [append_terms_and] at h
      obtain ⟨hbefore, rfl⟩ := ihl trivial trivial h
      obtain ⟨hts, rfl⟩ := ihb ht hu (List.append_cancel_right hbefore)
      exact ⟨hts, rfl⟩
  | union only ih =>
    cases e with
    | union only' =>
      obtain ⟨hts, rfl⟩ := ih ht.intersection hu.intersection h
      exact ⟨hts, rfl⟩
    | or before last =>
      rw [append_terms_or] at h
      exact absurd (ih ht.intersection (begins_or _) h).1 (ht _ _)
  | or before last ihb ihl =>
    rw [append_terms_or] at h
    cases e with
    | union only => exact absurd (ihl (begins_or _) hu.intersection h).1.symm (hu _ _)
    | or before' last' =>
      rw [append_terms_or] at h
      obtain ⟨hbefore, rfl⟩ := ihl (begins_or _) (begins_or _) h
      obtain ⟨hts, rfl⟩ := ihb ht hu (List.append_cancel_right hbefore)
      exact ⟨hts, rfl⟩

theorem terms_injective : Function.Injective (terms : Derivation .union → List Term) := by
  intro d e h
  have hbegins : Begins [] .union := by simp [Begins]
  exact (eq_of_append_terms hbegins hbegins (congrArg ([] ++ ·) h)).2

end Derivation

namespace Term

inductive Alternates : List Term → Prop
  | last {t} : Alternates [.operand t]
  | more {t op ts} (h : Alternates ts) : Alternates (.operand t :: .connective op :: ts)

variable {op : Connective} {t : TypeExpr} {ts us : List Term}

theorem Alternates.append (hts : Alternates ts) (hus : Alternates us) :
    Alternates (ts ++ .connective op :: us) := by
  induction hts with
  | last => exact hus.more
  | more _ ih => exact ih.more

theorem Chain.alternates (h : Chain op t ts) : Alternates ts := by
  induction h with
  | one => exact .last
  | join _ ih => exact ih.append .last

theorem alternates_of_reduce (h : reduce ts = .ok t) : Alternates ts := by
  unfold reduce at h
  obtain ⟨us, hus, h⟩ := except_bind_eq_ok.1 h
  obtain ⟨vs, hvs, h⟩ := except_bind_eq_ok.1 h
  split at h
  · have hands := spread_of_joinAll .nil hus
    have hors := (spread_of_joinAll .nil hvs).singleton
    exact hors.of_spread (q := fun _ => Alternates) Chain.alternates
      (fun hls hrs => Alternates.append hls hrs.alternates) hands
  · cases h

/-- Without parentheses there is nothing to replace. -/
theorem Alternates.resolveGroups_eq {done : List Term} (h : Alternates ts) :
    resolveGroups [] done ts = .ok (done.reverse ++ ts) := by
  induction h generalizing done with
  | last => simp [resolveGroups]
  | more h ih => simp [resolveGroups, ih]

theorem Alternates.resolve_eq (h : Alternates ts) : resolve ts = reduce ts := by
  rw [resolve, grouped, h.resolveGroups_eq]
  rfl

theorem exists_derives_snoc (h : Derives .union t ts) (op : Connective) (u : TypeExpr) :
    ∃ v, Derives .union v (ts ++ [.connective op, .operand u]) := by
  have hlast : Derives .operand u [.operand u] := .operand
  cases op with
  | and =>
    cases h with
    | union h => exact ⟨_, .union (h.and hlast)⟩
    | or hl hr => exact ⟨_, by simpa using hl.or (hr.and hlast)⟩
  | or => exact ⟨_, h.or hlast.intersection⟩

theorem Alternates.exists_derives_append (h : Alternates ts) (hus : Derives .union t us) :
    ∃ u, Derives .union u (us ++ .connective op :: ts) := by
  induction h generalizing op t us with
  | @last u => exact exists_derives_snoc hus op u
  | @more u _ _ h ih =>
    obtain ⟨v, hv⟩ := exists_derives_snoc hus op u
    simpa using ih hv

theorem Alternates.exists_derives (h : Alternates ts) : ∃ t, Derives .union t ts := by
  have hone (t : TypeExpr) : Derives .union t [.operand t] := .union (.intersection .operand)
  cases h with
  | @last t => exact ⟨t, hone t⟩
  | @more t _ _ h => exact h.exists_derives_append (hone t)

theorem alternates_iff : (∃ t, reduce ts = .ok t) ↔ Alternates ts := by
  constructor
  · rintro ⟨t, h⟩
    exact alternates_of_reduce h
  · intro h
    obtain ⟨t, ht⟩ := h.exists_derives
    exact ⟨t, h.resolve_eq ▸ resolve_eq_ok_iff.2 ht⟩

/-- A list of terms has at most one derivation, and stands for the tree of that. Without resolving
parentheses a tree is found, the same one, exactly when operands and connectives alternate. -/
theorem resolve_eq_ok_iff_derivation :
    Function.Injective (Derivation.terms : Derivation .union → List Term) ∧
      ∀ ts t, (resolve ts = .ok t ↔ ∃ d : Derivation .union, d.terms = ts ∧ d.type = t) ∧
        ((∃ u, reduce ts = .ok u) ↔ Alternates ts) ∧
        (reduce ts = .ok t ↔ Alternates ts ∧ resolve ts = .ok t) := by
  refine ⟨Derivation.terms_injective, fun ts t => ⟨?_, alternates_iff, ?_⟩⟩
  · rw [resolve_eq_ok_iff]
    constructor
    · exact Derivation.exists_of_derives
    · rintro ⟨d, rfl, rfl⟩
      exact d.derives
  · constructor
    · intro h
      have halternates := alternates_of_reduce h
      exact ⟨halternates, halternates.resolve_eq ▸ h⟩
    · rintro ⟨halternates, h⟩
      exact halternates.resolve_eq ▸ h

end Term
end StructuralTypes
