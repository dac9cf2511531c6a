import StructuralTypes.Proofs.OpenLevels

namespace StructuralTypes.Reading

/-- Gives back `n` levels, or fails with `e` if fewer are open. -/
def giveBack (e : ReadError) (n : Nat) (a : α) : Reading α := fun c =>
  if n ≤ c.depth then .ok a { c with depth := c.depth - n } else .error e c

def guardedTerm (e : ReadError) (leaf : Step TypeExpr) (opened : Nat) (done : List Term) :
    Reading (Option Term) := fun c =>
  match c.skipBlank.rest with
  | ')' :: rest => giveBack e (if opened = 0 then 0 else 1) (some .closeGroup) ⟨rest, c.depth⟩
  | _ => term leaf opened done c

variable {α : Type} {a : α} {e e' : ReadError} {leaf : Step TypeExpr} {opened low : Nat}
  {done ts : List Term} {c d : Cursor} {t : TypeExpr}

theorem giveBack_of_le {n : Nat} (h : n ≤ c.depth) :
    giveBack e n a c = .ok a { c with depth := c.depth - n } :=
  if_pos h

theorem eq_of_giveBack {n : Nat} {b : α} (h : giveBack e n a c = .ok b d) :
    b = a ∧ d = { c with depth := c.depth - n } := by
  unfold giveBack at h
  split at h <;> cases h
  exact ⟨rfl, rfl⟩

theorem term_of_closeGroup {rest : List Char} (h : c.skipBlank.rest = ')' :: rest) :
    term leaf opened done c =
      .ok (some .closeGroup) ⟨rest, c.depth - if opened = 0 then 0 else 1⟩ := by
  simp only [term, h, depth_skipBlank]
  split <;> rfl

theorem guardedTerm_eq (h : opened ≤ c.depth) :
    guardedTerm e leaf opened done c = term leaf opened done c := by
  unfold guardedTerm
  split
  · next rest hrest =>
    rw [term_of_closeGroup hrest, giveBack_of_le]
    split
    · exact Nat.zero_le _
    · exact Nat.le_trans (by omega) h
  · rfl

theorem term_of_guardedTerm {x : Option Term} (h : guardedTerm e leaf opened done c = .ok x d) :
    term leaf opened done c = .ok x d := by
  unfold guardedTerm at h
  split at h
  · next rest hrest =>
    obtain ⟨rfl, rfl⟩ := eq_of_giveBack h
    exact term_of_closeGroup hrest
  · exact h

def guardedTerms (e : ReadError) (leaf : Step TypeExpr) (opened : Nat) (done : List Term)
    (c : Cursor) : EStateM.Result ReadError Cursor (List Term) :=
  match _read : guardedTerm e leaf opened done c with
  | .error e d => .error e d
  | .ok none d => giveBack e opened done.reverse d
  | .ok (some t) d => guardedTerms e leaf (t.openAfter opened) (t :: done) d
termination_by c.rest.length
decreasing_by exact length_lt_of_term (term_of_guardedTerm _read)

theorem terms_of_guardedTerms (h : guardedTerms e leaf opened done c = .ok ts d) :
    terms leaf opened done c = .ok ts d := by
  fun_induction guardedTerms e leaf opened done c with
  | case1 => cases h
  | case2 _ _ _ _ hterm =>
    obtain ⟨rfl, rfl⟩ := eq_of_giveBack h
    exact terms_of_takes_none (takes_of_term (term_of_guardedTerm hterm))
  | case3 _ _ _ _ _ hterm ih =>
    rw [terms_of_takes (takes_of_term (term_of_guardedTerm hterm))]
    exact ih h

theorem guardedTerms_eq (hleaf : Counts low 0 leaf.run) (h : opened ≤ c.depth) :
    guardedTerms e leaf opened done c = terms leaf opened done c := by
  fun_induction guardedTerms e leaf opened done c with
  | case1 opened done c e d hterm =>
    rw [guardedTerm_eq h] at hterm
    rw [terms]
    split
    · next hx =>
      cases hterm.symm.trans hx
      rfl
    · next hx => cases hterm.symm.trans hx
    · next hx => cases hterm.symm.trans hx
  | case2 opened done c d hterm =>
    rw [guardedTerm_eq h] at hterm
    rw [terms_of_takes_none (takes_of_term hterm), giveBack_of_le]
    rwa [depth_of_term_none hterm]
  | case3 opened done c x d hterm ih =>
    rw [guardedTerm_eq h] at hterm
    rw [terms_of_takes (takes_of_term hterm)]
    exact ih ((openAfter_of_term hleaf hterm).2 h)

def guardedExpression (e : ReadError) (leaf : Step TypeExpr) : Reading TypeExpr := fun c =>
  if c.depth < maxDepth then
    match guardedTerms e leaf 0 [] { c with depth := c.depth + 1 } with
    | .error e d => .error e d
    | .ok [] d => .error .emptyType d
    | .ok ts d =>
      match Term.resolve ts with
      | .error e => .error e d
      | .ok t => giveBack e 1 t d
  else .error (.tooDeep maxDepth) { c with depth := c.depth + 1 }

theorem expression_of_guardedExpression (h : guardedExpression e leaf c = .ok t d) :
    expression leaf c = .ok t d := by
  unfold guardedExpression at h
  split at h
  · next hdepth =>
    split at h
    · cases h
    · cases h
    · next hne hterms =>
      split at h
      · cases h
      · next hresolve =>
        obtain ⟨rfl, rfl⟩ := eq_of_giveBack h
        exact expression_of_terms hdepth hresolve hne (terms_of_guardedTerms hterms)
  · cases h

theorem shortens_guardedExpression (e : ReadError) (leaf : Step TypeExpr) :
    Shortens (guardedExpression e leaf) :=
  fun _ _ _ h => shortens_expression leaf _ _ _ (expression_of_guardedExpression h)

theorem guardedExpression_eq (hleaf : Counts low 0 leaf.run) :
    guardedExpression e leaf = expression leaf := by
  funext c
  unfold guardedExpression expression
  rw [guardedTerms_eq hleaf (Nat.zero_le _)]
  cases hterms : terms leaf 0 [] { c with depth := c.depth + 1 } with
  | error e d => rfl
  | ok ts d =>
    cases ts with
    | nil => rfl
    | cons x ts =>
      have hopen : 1 ≤ d.depth := depth_of_terms hleaf hterms ▸ Nat.le_add_left 1 c.depth
      dsimp only
      cases Term.resolve (x :: ts) with
      | error e => rfl
      | ok t =>
        dsimp only
        rw [giveBack_of_le hopen]

/-- Reads an expression with at most `n` levels of nesting, but fails with `e` where the count would
go below zero. -/
def guardedTypeWithin (e : ReadError) : Nat → Step TypeExpr
  | 0 => typeWithin 0
  | n + 1 =>
    let inner : Step TypeExpr := ⟨Reading.leaf (guardedTypeWithin e n), shortens_leaf _⟩
    ⟨guardedExpression e inner, shortens_guardedExpression e inner⟩

theorem guardedTypeWithin_eq (e : ReadError) (n : Nat) : guardedTypeWithin e n = typeWithin n := by
  induction n with
  | zero => rfl
  | succ n ih =>
    let inner : Step TypeExpr := ⟨Reading.leaf (typeWithin n), shortens_leaf _⟩
    have hinner : Counts (maxDepth - n) 0 inner.run := counts_leaf (counts_typeWithin n).inside
    simp only [guardedTypeWithin, typeWithin, ih, Step.mk.injEq]
    exact guardedExpression_eq hinner

end StructuralTypes.Reading
