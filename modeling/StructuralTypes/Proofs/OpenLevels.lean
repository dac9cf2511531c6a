import StructuralTypes.Proofs.Grammar.ReadExpression

namespace StructuralTypes

def ReadError.Syntactic : ReadError → Prop
  | .tooDeep _ | .trailing _ | .tooManyAlternatives _ => False
  | _ => True

theorem ReadError.syntactic_expectedWord (found : String) : (expectedWord found).Syntactic :=
  trivial

theorem except_bind_eq_error {ε α β : Type} {x : Except ε α} {f : α → Except ε β} {e : ε} :
    x >>= f = .error e ↔ x = .error e ∨ ∃ a, x = .ok a ∧ f a = .error e := by
  cases x <;> simp [bind, Except.bind]

namespace Lexeme

variable {text : List Char} {e : ReadError}

theorem syntactic_of_run {p : Char → Bool} {missing : String → ReadError}
    (hmissing : ∀ s, (missing s).Syntactic) (h : run p missing text = .error e) : e.Syntactic := by
  unfold run at h
  split at h <;> cases h
  exact hmissing _

theorem syntactic_of_word (h : word text = .error e) : e.Syntactic :=
  syntactic_of_run ReadError.syntactic_expectedWord h

theorem syntactic_of_number (h : number text = .error e) : e.Syntactic := by
  unfold number numberBy at h
  split at h
  · cases h
    trivial
  · dsimp only at h
    split at h <;> cases h
    trivial

theorem syntactic_of_quoted (h : quoted text = .error e) : e.Syntactic := by
  unfold quoted at h
  split at h
  · cases h
    trivial
  · split at h
    · split at h <;> cases h
      trivial
    · cases h
      trivial

theorem syntactic_of_key (h : key text = .error e) : e.Syntactic := by
  unfold key at h
  split at h
  · cases h
    trivial
  · split at h
    · exact syntactic_of_quoted h
    · exact syntactic_of_run ReadError.syntactic_expectedWord h

end Lexeme

def ReadError.OfTerms : ReadError → Prop
  | .unmatchedClose | .unmatchedOpen | .missingOperand _ _ | .incompleteLogic => True
  | _ => False

theorem ReadError.OfTerms.syntactic {e : ReadError} (h : e.OfTerms) : e.Syntactic := by
  cases e <;> first | exact h.elim | trivial

namespace Term

variable {op : Connective} {outer : List (List Term)} {done terms : List Term} {e : ReadError}

theorem ofTerms_of_joinAll (h : joinAll op done terms = .error e) : e.OfTerms := by
  fun_induction joinAll op done terms with
  | case1 => cases h
  | case2 _ _ _ _ ih => exact ih h
  | case3 | case4 =>
    cases h
    trivial
  | case5 _ _ _ _ ih => exact ih h
  | case6 _ _ _ _ ih => exact ih h

theorem ofTerms_of_reduce (h : reduce terms = .error e) : e.OfTerms := by
  unfold reduce at h
  rcases except_bind_eq_error.1 h with h | ⟨_, -, h⟩
  · exact ofTerms_of_joinAll h
  · rcases except_bind_eq_error.1 h with h | ⟨_, -, h⟩
    · exact ofTerms_of_joinAll h
    · split at h <;> cases h
      trivial

theorem ofTerms_of_resolveGroups (h : resolveGroups outer done terms = .error e) : e.OfTerms := by
  fun_induction resolveGroups outer done terms with
  | case1 => cases h
  | case2 | case4 =>
    cases h
    trivial
  | case3 _ _ _ ih => exact ih h
  | case5 _ _ _ _ ih =>
    rcases except_bind_eq_error.1 h with h | ⟨content, -, h⟩
    · exact ofTerms_of_reduce h
    · exact ih content h
  | case6 _ _ _ _ _ _ ih => exact ih h

theorem ofTerms_of_resolve (h : resolve terms = .error e) : e.OfTerms := by
  unfold resolve at h
  rcases except_bind_eq_error.1 h with h | ⟨_, -, h⟩
  · exact ofTerms_of_resolveGroups h
  · exact ofTerms_of_reduce h

end Term

namespace Reading

variable {α β : Type} {low k : Nat} {ch : Char} {start : String} {c d : Cursor} {e : ReadError}

/-- How a step that began with `n` open levels may fail with `m`: at least `k` more are open, and
if the limit on levels is the reason and there were `low` at first, more than the limit. -/
structure FailsAt (low k n m : Nat) (e : ReadError) : Prop where
  le : n + k ≤ m
  reason : e.Syntactic ∨ e = .tooDeep maxDepth ∧ (low ≤ n → maxDepth < m)

variable {n n' m : Nat}

theorem failsAt_of_syntactic (hm : m = n + k) (h : e.Syntactic) : FailsAt low k n m e :=
  ⟨Nat.le_of_eq hm.symm, .inl h⟩

theorem failsAt_of_maxDepth_le (hm : m = n + 1) (h : maxDepth ≤ n) :
    FailsAt low 1 n m (.tooDeep maxDepth) :=
  ⟨Nat.le_of_eq hm.symm, .inr ⟨rfl, fun _ => hm ▸ Nat.lt_succ_of_le h⟩⟩

theorem FailsAt.inside (h : FailsAt low 1 n m e) : FailsAt low 0 n m e :=
  ⟨Nat.le_of_succ_le h.le, h.reason⟩

theorem FailsAt.of_le (h : FailsAt low k n m e) (hn : n' ≤ n) :
    FailsAt low k n' m e := by
  have := h.le
  refine ⟨by omega, h.reason.imp_right fun ⟨he, hm⟩ => ⟨he, fun hlow => ?_⟩⟩
  exact hm (Nat.le_trans hlow hn)

inductive EndsAt (low k n : Nat) : EStateM.Result ReadError Cursor α → Prop
  | ok {a : α} {d : Cursor} (h : d.depth = n) : EndsAt low k n (.ok a d)
  | error {e : ReadError} {d : Cursor} (h : FailsAt low k n d.depth e) : EndsAt low k n (.error e d)

/-- The step leaves as many levels open as it found, or fails with at least `k` more. -/
def Counts (low k : Nat) (r : Reading α) : Prop :=
  ∀ c, EndsAt low k c.depth (r c)

section

variable {r : Reading α} {a : α}

theorem EndsAt.depth_eq (h : EndsAt low k n (.ok a d : EStateM.Result ReadError Cursor α)) :
    d.depth = n := by
  cases h with
  | ok h => exact h

theorem EndsAt.failsAt (h : EndsAt low k n (.error e d : EStateM.Result ReadError Cursor α)) :
    FailsAt low k n d.depth e := by
  cases h with
  | error h => exact h

theorem Counts.ok (h : Counts low k r) (hr : r c = .ok a d) : d.depth = c.depth :=
  (hr ▸ h c).depth_eq

theorem Counts.error (h : Counts low k r) (hr : r c = .error e d) :
    FailsAt low k c.depth d.depth e :=
  (hr ▸ h c).failsAt

theorem Counts.inside (h : Counts low 1 r) : Counts low 0 r := by
  intro c
  cases hr : r c with
  | ok a d => exact .ok (h.ok hr)
  | error e d => exact .error (h.error hr).inside

end

theorem Counts.bind {x : Reading α} {f : α → Reading β} (hx : Counts low k x)
    (hf : ∀ a, Counts low k (f a)) : Counts low k (x >>= f) := by
  intro c
  change EndsAt low k c.depth (EStateM.bind x f c)
  unfold EStateM.bind
  split
  · next a d h =>
    rw [← hx.ok h]
    exact hf a d
  · next h => exact .error (hx.error h)

theorem counts_pure (a : α) : Counts low k (pure a) :=
  fun _ => .ok rfl

theorem counts_get : Counts low k get :=
  fun _ => .ok rfl

theorem counts_skipBlank : Counts low k skipBlank :=
  fun _ => .ok rfl

theorem counts_throw (h : e.Syntactic) : Counts low 0 (throw e : Reading α) :=
  fun _ => .error (failsAt_of_syntactic rfl h)

theorem counts_lexeme {read : Lexeme.Reader α}
    (h : ∀ {text e}, read text = .error e → e.Syntactic) : Counts low 0 (lexeme read) := by
  intro c
  unfold lexeme
  split
  · exact .ok rfl
  · next hfail => exact .error (failsAt_of_syntactic rfl (h hfail))

theorem counts_eat (ch : Char) : Counts low k (eat ch) := by
  intro c
  unfold eat
  split
  · exact .ok rfl
  · split <;> exact .ok rfl

theorem counts_expect (ch : Char) : Counts low 0 (expect ch) := by
  refine counts_skipBlank.bind fun _ => (counts_eat ch).bind fun b => ?_
  cases b
  · exact counts_get.bind fun _ => counts_throw trivial
  · exact counts_pure ()

theorem counts_colon (start : String) : Counts low 0 (colon start) := by
  refine counts_skipBlank.bind fun _ => counts_get.bind fun c => ?_
  split
  · exact counts_throw trivial
  · exact counts_expect ':'

theorem counts_fieldHead (start : String) : Counts low 0 (fieldHead start) := by
  refine (counts_lexeme Lexeme.syntactic_of_key).bind fun _ => ?_
  refine counts_skipBlank.bind fun _ => (counts_eat '?').bind fun _ => ?_
  exact (counts_colon start).bind fun _ => counts_pure _

theorem counts_separator : Counts low k separator := by
  refine counts_skipBlank.bind fun _ => (counts_eat ',').bind fun b => ?_
  cases b
  · exact (counts_eat ';').bind fun _ => counts_pure ()
  · exact counts_pure ()

section

variable {type : Step TypeExpr}

theorem counts_field (h : Counts low 0 type.run) : Counts low 0 (field start type) :=
  (counts_fieldHead start).bind fun _ => h.bind fun _ =>
    counts_separator.bind fun _ => counts_pure _

theorem counts_fields (h : Counts low 0 type.run) (done : List (Field TypeExpr)) :
    Counts low 0 (fields start type done) := by
  intro c
  fun_induction fields start type done c with
  | case1 => exact .error (failsAt_of_syntactic rfl trivial)
  | case2 => exact .ok rfl
  | case3 _ c _ _ hfield => exact .error ((counts_field h).error (c := c.skipBlank) hfield)
  | case4 _ c _ _ hfield =>
    exact .error (failsAt_of_syntactic ((counts_field h).ok (c := c.skipBlank) hfield) trivial)
  | case5 _ c _ _ hfield _ _ _ ih =>
    rw [(counts_field h).ok hfield] at ih
    exact ih

theorem counts_array (h : Counts low 0 type.run) : Counts low 0 (array type) :=
  (counts_expect '<').bind fun _ => h.bind fun _ =>
    (counts_expect '>').bind fun _ => counts_pure _

theorem counts_atom (h : Counts low 0 type.run) (first : Char) :
    Counts low 0 (atom type first) := by
  unfold atom
  split
  · exact (counts_lexeme Lexeme.syntactic_of_quoted).bind fun _ => counts_pure _
  · split
    · exact (counts_lexeme Lexeme.syntactic_of_number).bind fun _ => counts_pure _
    · split
      · refine (counts_lexeme Lexeme.syntactic_of_word).bind fun name => ?_
        split
        · exact counts_array h
        · exact counts_pure _
      · exact counts_get.bind fun _ => counts_throw trivial

theorem counts_leaf (h : Counts low 0 type.run) : Counts low 0 (leaf type) := by
  intro c
  unfold leaf
  dsimp only
  split
  · exact .error (failsAt_of_syntactic rfl trivial)
  · next rest _ =>
    split
    · next hread => exact .ok ((counts_fields h []).ok (c := ⟨rest, c.depth⟩) hread)
    · next hread => exact .error ((counts_fields h []).error (c := ⟨rest, c.depth⟩) hread)
  · exact counts_atom h _ c.skipBlank

end

section

variable {leaf : Step TypeExpr} {opened : Nat} {done : List Term}

theorem depth_of_term_none (h : term leaf opened done c = .ok none d) : d.depth = c.depth := by
  rw [(takes_of_term h).1, depth_skipBlank]

/-- A term opens and closes as many levels as parentheses, so that those around the run of terms
stay as they are. -/
theorem openAfter_of_term (hleaf : Counts low 0 leaf.run) {t : Term}
    (h : term leaf opened done c = .ok (some t) d) :
    d.depth - t.openAfter opened = c.depth - opened ∧
      (opened ≤ c.depth → t.openAfter opened ≤ d.depth) := by
  have htakes := takes_of_term h
  cases t with
  | openGroup =>
    have hdepth : d.depth = c.depth + 1 := htakes.2.2
    simp only [Term.openAfter]
    omega
  | closeGroup =>
    have hdepth : d.depth = if opened = 0 then c.depth else c.depth - 1 := htakes.2
    simp only [Term.openAfter]
    split at hdepth <;> omega
  | connective op =>
    have hdepth : d.depth = c.depth := by cases op <;> exact htakes.2
    simp only [Term.openAfter]
    omega
  | operand t =>
    have hdepth : d.depth = c.depth := hleaf.ok (c := c.skipBlank) htakes.2.1
    simp only [Term.openAfter]
    omega

theorem failsAt_of_term (hleaf : Counts low 0 leaf.run)
    (h : term leaf opened done c = .error e d) : FailsAt low 0 c.depth d.depth e := by
  simp only [term] at h
  split at h
  · cases h
  · split at h <;> cases h
    next hdeep => exact (failsAt_of_maxDepth_le rfl (Nat.not_lt.1 hdeep)).inside
  · cases h
  · cases h
  · cases h
  · split at h
    · cases h
    · split at h
      · next hread =>
        cases h
        exact hleaf.error (c := c.skipBlank) hread
      · cases h

/-- Unmatched parentheses make no difference: the levels around a run of terms stay open. -/
theorem endsAt_terms (hleaf : Counts low 0 leaf.run) (opened : Nat) (done : List Term)
    (c : Cursor) : EndsAt low 0 (c.depth - opened) (terms leaf opened done c) := by
  fun_induction terms leaf opened done c with
  | case1 _ _ _ _ _ hterm =>
    exact .error ((failsAt_of_term hleaf hterm).of_le (Nat.sub_le _ _))
  | case2 opened _ _ _ hterm => exact .ok (congrArg (· - opened) (depth_of_term_none hterm))
  | case3 _ _ _ _ _ hterm ih =>
    rw [(openAfter_of_term hleaf hterm).1] at ih
    exact ih

theorem depth_of_terms (hleaf : Counts low 0 leaf.run) {ts : List Term}
    (h : terms leaf opened done c = .ok ts d) : d.depth = c.depth - opened :=
  (h ▸ endsAt_terms hleaf opened done c).depth_eq

theorem counts_expression (hleaf : Counts low 0 leaf.run) :
    Counts (low - 1) 1 (expression leaf) := by
  intro c
  unfold expression
  split
  · split
    · next hterms =>
      obtain ⟨hle, hreason⟩ := (hterms ▸ endsAt_terms hleaf 0 [] _).failsAt
      refine .error ⟨hle, hreason.imp_right fun ⟨he, hdeep⟩ => ⟨he, fun hlow => hdeep ?_⟩⟩
      exact Nat.sub_le_iff_le_add.1 hlow
    · next hterms =>
      exact .error (failsAt_of_syntactic (depth_of_terms hleaf hterms) trivial)
    · next hterms =>
      have hdepth := depth_of_terms hleaf hterms
      split
      · next hresolve =>
        exact .error (failsAt_of_syntactic hdepth (Term.ofTerms_of_resolve hresolve).syntactic)
      · exact .ok (congrArg (· - 1) hdepth)
  · next hdeep => exact .error (failsAt_of_maxDepth_le rfl (Nat.not_lt.1 hdeep))

end

/-- With `n` levels left, an expression is too deep for the text only where `maxDepth - n` are open
already. -/
theorem counts_typeWithin (n : Nat) : Counts (maxDepth - n) 1 (typeWithin n).run := by
  induction n with
  | zero => exact fun _ => .error ⟨Nat.le_refl _, .inr ⟨rfl, Nat.lt_succ_of_le⟩⟩
  | succ n ih => exact counts_expression (counts_leaf ih.inside)

theorem counts_type : Counts 0 1 type := by
  have := counts_typeWithin maxDepth
  rwa [Nat.sub_self] at this

theorem counts_single : Counts 0 0 single :=
  counts_leaf counts_type.inside

/-- Where the limit is reached, nothing is read. -/
theorem type_eq_error (h : maxDepth ≤ c.depth) :
    type c = .error (.tooDeep maxDepth) { c with depth := c.depth + 1 } :=
  if_neg (Nat.not_lt.2 h)

end Reading

end StructuralTypes
