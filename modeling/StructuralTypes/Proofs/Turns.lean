import StructuralTypes.Proofs.Guarded

namespace StructuralTypes.Reading

inductive Request
  | type
  | single
deriving DecidableEq

namespace Request

def read : Request → Reading TypeExpr
  | .type => Reading.type
  | .single => Reading.single

/-- The same call, failing with `e` where the count of open levels would go below zero. -/
def guarded (e : ReadError) : Request → Reading TypeExpr
  | .type => (guardedTypeWithin e maxDepth).run
  | .single => leaf (guardedTypeWithin e maxDepth)

def opens : Request → Nat
  | .type => 1
  | .single => 0

theorem guarded_eq (e : ReadError) (q : Request) : q.guarded e = q.read := by
  cases q with
  | type => exact congrArg Step.run (guardedTypeWithin_eq e maxDepth)
  | single => exact congrArg leaf (guardedTypeWithin_eq e maxDepth)

theorem counts (q : Request) : Counts 0 q.opens q.read := by
  cases q with
  | type => exact counts_type
  | single => exact counts_single

end Request

/-- A call and where it began to read. -/
structure Turn where
  request : Request
  before : Cursor
deriving DecidableEq

namespace Turn

def result (x : Turn) : EStateM.Result ReadError Cursor TypeExpr :=
  x.request.read x.before

def after (x : Turn) : Cursor :=
  match x.result with
  | .ok _ d => d
  | .error _ d => d

def failsWithin (x : Turn) : Bool :=
  match x.result with
  | .ok _ _ => false
  | .error (.tooDeep _) _ => false
  | .error _ _ => true

/-- The call takes no level off the count that is not on it; where it succeeds it leaves the count
as it found it, and where it fails at least so much higher as its kind of call must. -/
structure Exact (x : Turn) : Prop where
  guarded : ∀ e, x.request.guarded e x.before = x.result
  ok : ∀ {t d}, x.result = .ok t d → d.depth = x.before.depth
  error : ∀ {e d}, x.result = .error e d → x.before.depth + x.request.opens ≤ d.depth

variable {x : Turn} {d : Cursor} {e : ReadError} {limit : Nat}

theorem exact (x : Turn) : x.Exact where
  guarded e := congrFun (x.request.guarded_eq e) x.before
  ok h := x.request.counts.ok h
  error h := (x.request.counts.error h).le

theorem after_of_error (h : x.result = .error e d) : x.after = d := by
  simp only [after, h]

theorem depth_le_after (x : Turn) : x.before.depth ≤ x.after.depth := by
  cases hresult : x.result with
  | ok t d =>
    simp only [after, hresult]
    exact Nat.le_of_eq (x.exact.ok hresult).symm
  | error e d =>
    rw [after_of_error hresult]
    exact Nat.le_trans (Nat.le_add_right _ _) (x.exact.error hresult)

theorem failsWithin_iff :
    x.failsWithin ↔ ∃ e d, x.result = .error e d ∧ ∀ limit, e ≠ .tooDeep limit := by
  unfold failsWithin
  split
  · next h => simp [h]
  · next h => simp [h]
  · next hne h => simpa [h] using hne

theorem maxDepth_lt_of_tooDeep (h : x.result = .error (.tooDeep limit) d) :
    maxDepth < x.after.depth := by
  rw [after_of_error h]
  obtain hsyntactic | ⟨-, hdeep⟩ := (x.request.counts.error h).reason
  · exact hsyntactic.elim
  · exact hdeep (Nat.zero_le _)

theorem result_of_maxDepth_le (hx : x.request = .type) (h : maxDepth ≤ x.before.depth) :
    x.result = .error (.tooDeep maxDepth) { x.before with depth := x.before.depth + 1 } := by
  rw [result, hx]
  exact type_eq_error h

/-- A failing call for a type takes up one of the levels that the limit allows. -/
theorem depth_lt_of_failsWithin (hx : x.request = .type) (h : x.failsWithin) :
    x.before.depth < maxDepth ∧ x.before.depth < x.after.depth := by
  obtain ⟨e, d, hresult, hne⟩ := failsWithin_iff.1 h
  constructor
  · by_contra hdeep
    cases hresult.symm.trans (result_of_maxDepth_le hx (Nat.not_lt.1 hdeep))
    exact hne maxDepth rfl
  · have hopens := x.exact.error hresult
    rw [hx] at hopens
    rwa [after_of_error hresult]

end Turn

def turns (c : Cursor) : List Request → List Turn
  | [] => []
  | q :: qs => ⟨q, c⟩ :: turns (Turn.after ⟨q, c⟩) qs

variable {c : Cursor} {x : Turn} {requests : List Request} {earlier later : List Turn}

theorem depth_le_of_mem_turns (h : x ∈ turns c requests) : c.depth ≤ x.before.depth := by
  induction requests generalizing c with
  | nil => cases h
  | cons q requests ih =>
    obtain rfl | h := List.mem_cons.1 h
    · exact Nat.le_refl _
    · exact Nat.le_trans (Turn.depth_le_after ⟨q, c⟩) (ih h)

/-- What comes after a turn is again a run, from where that turn stopped. -/
theorem exists_turns_of_append (h : turns c requests = earlier ++ x :: later) :
    ∃ rest, later = turns x.after rest := by
  induction requests generalizing c earlier with
  | nil => simp [turns] at h
  | cons q requests ih =>
    cases earlier with
    | nil =>
      obtain ⟨rfl, rfl⟩ := List.cons.inj h
      exact ⟨requests, rfl⟩
    | cons y earlier => exact ih (List.cons.inj h).2

theorem countP_turns_le (requests : List Request) (c : Cursor) :
    (turns c requests).countP (fun x => x.request = .type ∧ x.failsWithin) ≤
      maxDepth - c.depth := by
  induction requests generalizing c with
  | nil => exact Nat.zero_le _
  | cons q requests ih =>
    have hle := Turn.depth_le_after ⟨q, c⟩
    have hcount := ih (Turn.after ⟨q, c⟩)
    rw [turns, List.countP_cons]
    split
    · next hx =>
      obtain ⟨hq, hfails⟩ := of_decide_eq_true hx
      obtain ⟨hlt, hrises⟩ := Turn.depth_lt_of_failsWithin hq hfails
      dsimp only at hlt hrises
      omega
    · dsimp only at hle
      omega

theorem expression_at_end (leaf : Step TypeExpr) {n : Nat} (h : n < maxDepth) :
    expression leaf ⟨[], n⟩ = .error .emptyType ⟨[], n + 1⟩ := by
  have hterm : term leaf 0 [] ⟨[], n + 1⟩ = .ok none ⟨[], n + 1⟩ := rfl
  have hterms : terms leaf 0 [] ⟨[], n + 1⟩ = .ok [] ⟨[], n + 1⟩ :=
    terms_of_takes_none (takes_of_term hterm)
  simp only [expression, if_pos h, hterms]

theorem type_at_end {n : Nat} (h : n < maxDepth) :
    type ⟨[], n⟩ = .error .emptyType ⟨[], n + 1⟩ :=
  expression_at_end _ h

theorem single_of_unclosed {n : Nat} (h : n < maxDepth) :
    single ⟨"Array<".toList, n⟩ = .error .emptyType ⟨[], n + 1⟩ := by
  have hopen : expect '<' ⟨['<'], n⟩ = .ok () ⟨[], n⟩ := rfl
  have hitem : (typeWithin maxDepth).run ⟨[], n⟩ = .error .emptyType ⟨[], n + 1⟩ := type_at_end h
  change array (typeWithin maxDepth) ⟨['<'], n⟩ = _
  simp only [array, bind, EStateM.bind, hopen, hitem]

theorem after_at_end (n : Nat) : Turn.after ⟨.type, ⟨[], n⟩⟩ = ⟨[], n + 1⟩ := by
  by_cases h : n < maxDepth
  · exact Turn.after_of_error (type_at_end h)
  · exact Turn.after_of_error (type_eq_error (Nat.not_lt.1 h))

theorem turns_at_end (n k : Nat) : turns ⟨[], n⟩ (.replicate k .type) =
    (List.range' n k).map fun i => ⟨.type, ⟨[], i⟩⟩ := by
  induction k generalizing n with
  | zero => rfl
  | succ k ih =>
    rw [List.replicate_succ, turns, after_at_end, ih]
    rfl

theorem failsWithin_at_end (n : Nat) :
    Turn.failsWithin ⟨.type, ⟨[], n⟩⟩ = decide (n < maxDepth) := by
  rw [Bool.eq_iff_iff, Turn.failsWithin_iff, decide_eq_true_iff]
  constructor
  · rintro ⟨e, d, h, hne⟩
    by_contra hdeep
    cases h.symm.trans (type_eq_error (Nat.not_lt.1 hdeep))
    exact hne maxDepth rfl
  · intro h
    exact ⟨.emptyType, _, type_at_end h, nofun⟩

/-- As many calls for a type can fail for another reason as the limit on levels allows. -/
theorem countP_turns_at_end (n k : Nat) :
    (turns ⟨[], n⟩ (.replicate k .type)).countP (fun x => x.request = .type ∧ x.failsWithin) =
      min k (maxDepth - n) := by
  induction k generalizing n with
  | zero => exact (Nat.zero_min _).symm
  | succ k ih =>
    rw [List.replicate_succ, turns, List.countP_cons, after_at_end, ih, failsWithin_at_end]
    split
    · next hx =>
      have hlt : n < maxDepth := by simpa using hx
      omega
    · next hx =>
      have hdeep : ¬ n < maxDepth := by simpa using hx
      omega

/-- The count of open levels is exact in every run of calls on a text. Once a call has failed for
the limit on levels, every later call for a type does, and leaves the text where it is; at most 128
calls for a type fail for another reason. -/
theorem turns_exact (text : String) (requests : List Request) :
    (∀ x ∈ turns (.start text) requests, x.Exact) ∧
      (∀ earlier x later limit d, turns (.start text) requests = earlier ++ x :: later →
        x.result = .error (.tooDeep limit) d → ∀ y ∈ later, y.request = .type →
          y.result = .error (.tooDeep maxDepth) { y.before with depth := y.before.depth + 1 }) ∧
      (turns (.start text) requests).countP (fun x => x.request = .type ∧ x.failsWithin) ≤ 128 := by
  refine ⟨fun x _ => x.exact, ?_, countP_turns_le requests _⟩
  intro earlier x later limit d hturns hx y hy hrequest
  obtain ⟨rest, rfl⟩ := exists_turns_of_append hturns
  have hdeep : maxDepth < x.after.depth := Turn.maxDepth_lt_of_tooDeep hx
  have hdepth : x.after.depth ≤ y.before.depth := depth_le_of_mem_turns hy
  exact Turn.result_of_maxDepth_le hrequest (Nat.le_trans (Nat.le_of_lt hdeep) hdepth)

/-- Below, a call reads `(a)`, a call for a single leaf fails inside the array and leaves a level
open, and at the end of the text the other 127 levels are used up. -/
theorem turns_exact_of_unclosed_item :
    let item : Cursor := ⟨"Array<".toList, 0⟩
    let run := turns (.start "(a)Array<") ([.type, .single] ++ .replicate 129 .type)
    type (.start "(a)Array<") = .ok (.group (.leaf (.word "a"))) item ∧
      single item = .error .emptyType ⟨[], 1⟩ ∧
      run = ⟨.type, .start "(a)Array<"⟩ :: ⟨.single, item⟩ ::
        (List.range' 1 129).map (fun i => ⟨.type, ⟨[], i⟩⟩) ∧
      (∀ x ∈ run, x.Exact) ∧
      run.countP (fun x => x.request = .type ∧ x.failsWithin) = 127 ∧
      type ⟨[], 128⟩ = .error (.tooDeep maxDepth) ⟨[], 129⟩ ∧
      type ⟨[], 129⟩ = .error (.tooDeep maxDepth) ⟨[], 130⟩ := by
  intro item run
  have ha : Spells (.leaf (.leaf (.ofWord "a"))) "a)Array<".toList ")Array<".toList :=
    .word (Lexeme.run_eq_ok_iff.1 (rfl : Lexeme.word _ = _)) (by decide)
  have hgroup : Spells (.expression .operand (.group (.leaf (.word "a")))) "(a)Array<".toList
      item.rest :=
    .group rfl (.union (.intersection (.leaf ha))) rfl
  have hends : Ends item.rest := by simp [Ends, StructuralTypes.skipBlank, isBlank, item]
  have htype : type (.start "(a)Array<") = .ok (.group (.leaf (.word "a"))) item :=
    (readsExpressions_type (Nat.zero_le _)).2
      ⟨_, .union (.intersection hgroup), hends, ⟨by simp, by decide⟩, rfl⟩
  have hsingle : single item = .error .emptyType ⟨[], 1⟩ := single_of_unclosed (by decide)
  have hafter : Turn.after ⟨.type, .start "(a)Array<"⟩ = item := by
    simp only [Turn.after, Turn.result, Request.read, htype]
  have hend : Turn.after ⟨.single, item⟩ = ⟨[], 1⟩ := Turn.after_of_error hsingle
  have hrun : run = ⟨.type, .start "(a)Array<"⟩ :: ⟨.single, item⟩ ::
      turns ⟨[], 1⟩ (.replicate 129 .type) := by
    rw [← hend, ← hafter]
    rfl
  have hcount : run.countP (fun x => x.request = .type ∧ x.failsWithin) = 127 := by
    have hfails : Turn.failsWithin ⟨.type, .start "(a)Array<"⟩ = false := by
      simp only [Turn.failsWithin, Turn.result, Request.read, htype]
    rw [hrun, List.countP_cons, List.countP_cons, countP_turns_at_end, hfails]
    rfl
  rw [turns_at_end] at hrun
  have hdeep : type ⟨[], 128⟩ = .error (.tooDeep maxDepth) ⟨[], 129⟩ :=
    type_eq_error (Nat.le_refl maxDepth)
  obtain ⟨hexact, hlater, -⟩ :=
    turns_exact "(a)Array<" ([.type, .single] ++ .replicate 129 .type)
  have hlast : run = (⟨.type, .start "(a)Array<"⟩ :: ⟨.single, item⟩ ::
      (List.range' 1 127).map (fun i => ⟨.type, ⟨[], i⟩⟩)) ++
        ⟨.type, ⟨[], 128⟩⟩ :: [⟨.type, ⟨[], 129⟩⟩] := hrun
  exact ⟨htype, hsingle, hrun, hexact, hcount, hdeep,
    hlater _ _ _ _ _ hlast hdeep _ List.mem_cons_self rfl⟩

end StructuralTypes.Reading
