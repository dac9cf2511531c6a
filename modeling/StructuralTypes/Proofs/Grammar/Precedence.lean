import StructuralTypes.Reading.Term

namespace StructuralTypes

theorem except_bind_eq_ok {ε α β : Type} {x : Except ε α} {f : α → Except ε β} {b : β} :
    x >>= f = .ok b ↔ ∃ a, x = .ok a ∧ f a = .ok b := by
  cases x <;> simp [bind, Except.bind]

inductive Level
  | operand
  | intersection
  | union

/-- The list of terms is an expression of the level, and the type is its tree. -/
inductive Derives : Level → TypeExpr → List Term → Prop
  | operand {t} : Derives .operand t [.operand t]
  | group {t ts} (h : Derives .union t ts) :
    Derives .operand (.group t) (.openGroup :: (ts ++ [.closeGroup]))
  | intersection {t ts} (h : Derives .operand t ts) : Derives .intersection t ts
  | and {l r ls rs} (hl : Derives .intersection l ls) (hr : Derives .operand r rs) :
    Derives .intersection (.and l r) (ls ++ .connective .and :: rs)
  | union {t ts} (h : Derives .intersection t ts) : Derives .union t ts
  | or {l r ls rs} (hl : Derives .union l ls) (hr : Derives .intersection r rs) :
    Derives .union (.or l r) (ls ++ .connective .or :: rs)

namespace Term

inductive Chain (op : Connective) : TypeExpr → List Term → Prop
  | one {t} : Chain op t [.operand t]
  | join {l r ls} (h : Chain op l ls) :
    Chain op (op.join l r) (ls ++ [.connective op, .operand r])

/-- The terms that were read for `done`, last first: those that `p` allows in place of an operand,
and every other term itself. -/
inductive Spread (p : TypeExpr → List Term → Prop) : List Term → List Term → Prop
  | nil : Spread p [] []
  | operand {t done read ts} (h : Spread p done read) (ht : p t ts) :
    Spread p (.operand t :: done) (read ++ ts)
  | other {t done read} (h : Spread p done read) (ht : ∀ u, t ≠ .operand u) :
    Spread p (t :: done) (read ++ [t])

/-- The terms that were read when these are pending inside and outside of the open parentheses. -/
inductive Pending : List (List Term) → List Term → List Term → Prop
  | outermost {done read} (h : Spread (Derives .operand) done read) : Pending [] done read
  | inside {before outer done read ts} (ho : Pending outer before read)
    (h : Spread (Derives .operand) done ts) :
    Pending (before :: outer) done (read ++ .openGroup :: ts)

variable {p q : TypeExpr → List Term → Prop} {op : Connective} {t : TypeExpr} {ts us vs : List Term}
  {outer : List (List Term)} {done read : List Term}

theorem Spread.snoc (hp : ∀ u, p u [.operand u]) (h : Spread p done read) (x : Term) :
    Spread p (x :: done) (read ++ [x]) := by
  cases x with
  | operand u => exact h.operand (hp u)
  | _ => exact h.other nofun

theorem Spread.of_append {later : List Term} (h : Spread p (later ++ done) read) :
    ∃ ts us, read = ts ++ us ∧ Spread p done ts ∧ Spread p later us := by
  induction later generalizing read with
  | nil => exact ⟨read, [], by simp, h, .nil⟩
  | cons x later ih =>
    cases h with
    | operand h ht =>
      obtain ⟨ts, us, rfl, hts, hus⟩ := ih h
      exact ⟨ts, _, List.append_assoc _ _ _, hts, hus.operand ht⟩
    | other h ht =>
      obtain ⟨ts, us, rfl, hts, hus⟩ := ih h
      exact ⟨ts, _, List.append_assoc _ _ _, hts, hus.other ht⟩

theorem Spread.exists_of_operand (h : Spread p (.operand t :: done) read) :
    ∃ before ts, read = before ++ ts ∧ Spread p done before ∧ p t ts := by
  cases h with
  | operand h ht => exact ⟨_, _, rfl, h, ht⟩
  | other h ht => exact absurd rfl (ht t)

theorem Spread.exists_of_connective (h : Spread p (.connective op :: done) read) :
    ∃ before, read = before ++ [.connective op] ∧ Spread p done before := by
  cases h with
  | other h ht => exact ⟨_, rfl, h⟩

theorem Spread.singleton (h : Spread p [.operand t] ts) : p t ts := by
  obtain ⟨before, ts, rfl, hnil, ht⟩ := h.exists_of_operand
  cases hnil
  exact ht

theorem spread_of_joinAll (hdone : Spread (Chain op) done read) (h : joinAll op done ts = .ok us) :
    Spread (Chain op) us.reverse (read ++ ts) := by
  fun_induction joinAll op done ts generalizing read with
  | case1 done =>
    cases h
    rwa [List.reverse_reverse, List.append_nil]
  | case2 l done r rest ih =>
    obtain ⟨before, ls, rfl, hdone, hl⟩ := hdone.exists_of_operand
    simpa using ih (hdone.operand hl.join) h
  | case3 => cases h
  | case4 => cases h
  | case5 done found rest hne ih => simpa using ih (hdone.snoc (fun _ => .one) _) h
  | case6 done x rest hx ih => simpa using ih (hdone.snoc (fun _ => .one) _) h

/-- What holds of single operands and is kept by joining one more holds of what a chain was read
from. -/
theorem Chain.of_spread (hone : ∀ {t ts}, p t ts → q t ts)
    (hjoin : ∀ {l r ls rs}, q l ls → p r rs → q (op.join l r) (ls ++ .connective op :: rs))
    (h : Chain op t us) (hread : Spread p us.reverse ts) : q t ts := by
  induction h generalizing ts with
  | one => exact hone hread.singleton
  | @join _ _ ls h ih =>
    rw [List.reverse_append] at hread
    change Spread _ (_ :: _ :: ls.reverse) _ at hread
    obtain ⟨_, rs, rfl, hread, hr⟩ := hread.exists_of_operand
    obtain ⟨ps, rfl, hps⟩ := hread.exists_of_connective
    simpa using hjoin (ih hps) hr

theorem spread_intersections (h : Spread (Chain .and) done us)
    (hread : Spread (Derives .operand) us.reverse ts) : Spread (Derives .intersection) done ts := by
  induction h generalizing ts with
  | nil =>
    cases hread
    exact .nil
  | operand h ht ih =>
    rw [List.reverse_append] at hread
    obtain ⟨before, inside, rfl, hbefore, hinside⟩ := hread.of_append
    exact (ih hbefore).operand (ht.of_spread Derives.intersection Derives.and hinside)
  | other h hne ih =>
    rw [List.reverse_append] at hread
    cases hread with
    | operand _ _ => exact absurd rfl (hne _)
    | other hread _ => exact (ih hread).other hne

theorem derives_of_reduce (h : reduce us = .ok t)
    (hread : Spread (Derives .operand) us.reverse ts) : Derives .union t ts := by
  unfold reduce at h
  obtain ⟨vs, hvs, h⟩ := except_bind_eq_ok.1 h
  obtain ⟨ws, hws, h⟩ := except_bind_eq_ok.1 h
  split at h
  · cases h
    have hands := spread_of_joinAll .nil hvs
    have hors := (spread_of_joinAll .nil hws).singleton
    exact hors.of_spread Derives.union Derives.or (spread_intersections hands hread)
  · cases h

theorem Pending.operand {ps : List Term} (h : Pending outer done read)
    (ht : Derives .operand t ps) : Pending outer (.operand t :: done) (read ++ ps) := by
  cases h with
  | outermost h => exact .outermost (h.operand ht)
  | inside ho h => simpa using Pending.inside ho (h.operand ht)

theorem Pending.snoc (h : Pending outer done read) (x : Term) :
    Pending outer (x :: done) (read ++ [x]) := by
  cases h with
  | outermost h => exact .outermost (h.snoc (fun _ => .operand) x)
  | inside ho h => simpa using Pending.inside ho (h.snoc (fun _ => .operand) x)

theorem spread_of_resolveGroups (hdone : Pending outer done read)
    (h : resolveGroups outer done ts = .ok us) :
    Spread (Derives .operand) us.reverse (read ++ ts) := by
  fun_induction resolveGroups outer done ts generalizing read with
  | case1 outer done hempty =>
    cases h
    cases hdone with
    | outermost h => simpa using h
    | inside ho h => cases hempty
  | case2 => cases h
  | case3 outer done rest ih => simpa using ih (hdone.inside .nil) h
  | case4 => cases h
  | case5 done rest before outer ih =>
    obtain ⟨content, hcontent, h⟩ := except_bind_eq_ok.1 h
    cases hdone with
    | inside ho hinside =>
      have hgroup := (derives_of_reduce hcontent (by simpa using hinside)).group
      simpa using ih content (ho.operand hgroup) h
  | case6 outer done x rest hopen hclose ih => simpa using ih (hdone.snoc x) h

/-- Reading the terms leaves `us` of the parentheses, `vs` of the intersections, and then the
type. -/
structure Reduces (t : TypeExpr) (ts us vs : List Term) : Prop where
  groups : ∀ outer done rest,
    resolveGroups outer done (ts ++ rest) = resolveGroups outer (us.reverse ++ done) rest
  ands : ∀ done rest, joinAll .and done (us ++ rest) = joinAll .and (vs.reverse ++ done) rest
  ors : ∀ done rest, joinAll .or done (vs ++ rest) = joinAll .or (.operand t :: done) rest

theorem Reduces.reduce_eq (h : Reduces t ts us vs) : reduce us = .ok t := by
  have hands := h.ands [] []
  have hors := h.ors [] []
  simp only [List.append_nil] at hands hors
  simp [reduce, hands, hors, joinAll, bind, Except.bind, pure, Except.pure]

theorem Reduces.group (h : Reduces t ts us vs) : Reduces (.group t)
    (.openGroup :: (ts ++ [.closeGroup])) [.operand (.group t)] [.operand (.group t)] := by
  refine ⟨fun outer done rest => ?_, fun _ _ => rfl, fun _ _ => rfl⟩
  calc resolveGroups outer done (.openGroup :: (ts ++ [.closeGroup]) ++ rest)
      = resolveGroups (done :: outer) [] (ts ++ .closeGroup :: rest) := by
        simp [resolveGroups]
    _ = resolveGroups (done :: outer) us.reverse (.closeGroup :: rest) := by
        rw [h.groups, List.append_nil]
    _ = resolveGroups outer (.operand (.group t) :: done) rest := by
        rw [resolveGroups, List.reverse_reverse, h.reduce_eq]
        rfl

variable {l r : TypeExpr} {ls rs us' vs' : List Term}

theorem Reduces.and (hl : Reduces l ls us [.operand l])
    (hr : Reduces r rs [.operand r] [.operand r]) :
    Reduces (.and l r) (ls ++ .connective .and :: rs) (us ++ [.connective .and, .operand r])
      [.operand (.and l r)] := by
  refine ⟨fun outer done rest => ?_, fun done rest => ?_, fun _ _ => rfl⟩
  · rw [List.append_assoc, hl.groups, List.cons_append, resolveGroups, hr.groups]
    · simp
    · simp
    · simp
  · rw [List.append_assoc, hl.ands]
    rfl

theorem Reduces.or (hl : Reduces l ls us vs) (hr : Reduces r rs us' [.operand r]) :
    Reduces (.or l r) (ls ++ .connective .or :: rs) (us ++ .connective .or :: us')
      (vs ++ [.connective .or, .operand r]) := by
  refine ⟨fun outer done rest => ?_, fun done rest => ?_, fun done rest => ?_⟩
  · rw [List.append_assoc, hl.groups, List.cons_append, resolveGroups, hr.groups]
    · simp
    · simp
    · simp
  · have hskip (done rest : List Term) : joinAll .and done (.connective .or :: rest) =
        joinAll .and (.connective .or :: done) rest := by
      rw [joinAll.eq_def]
      rfl
    rw [List.append_assoc, hl.ands, List.cons_append, hskip, hr.ands]
    simp
  · rw [List.append_assoc, hl.ors]
    rfl

theorem reduces_of_derives {level : Level} (h : Derives level t ts) :
    match level with
    | .operand => Reduces t ts [.operand t] [.operand t]
    | .intersection => ∃ us, Reduces t ts us [.operand t]
    | .union => ∃ us vs, Reduces t ts us vs := by
  -- an operand is one term after every pass, an intersection from the second on
  induction h with
  | operand => exact ⟨fun _ _ _ => rfl, fun _ _ => rfl, fun _ _ => rfl⟩
  | group h ih =>
    obtain ⟨us, vs, ih⟩ := ih
    exact ih.group
  | intersection h ih => exact ⟨_, ih⟩
  | and hl hr ihl ihr =>
    obtain ⟨us, ihl⟩ := ihl
    exact ⟨_, ihl.and ihr⟩
  | union h ih =>
    obtain ⟨us, ih⟩ := ih
    exact ⟨us, _, ih⟩
  | or hl hr ihl ihr =>
    obtain ⟨us, vs, ihl⟩ := ihl
    obtain ⟨us', ihr⟩ := ihr
    exact ⟨_, _, ihl.or ihr⟩

/-- A list of terms stands for the type whose derivation it has. -/
theorem resolve_eq_ok_iff : resolve ts = .ok t ↔ Derives .union t ts := by
  constructor
  · intro h
    unfold resolve at h
    obtain ⟨us, hus, h⟩ := except_bind_eq_ok.1 h
    exact derives_of_reduce h (spread_of_resolveGroups (.outermost .nil) hus)
  · intro h
    obtain ⟨us, vs, h⟩ := reduces_of_derives h
    have hgroups := h.groups [] [] []
    simp only [List.append_nil] at hgroups
    simp [resolve, grouped, hgroups, resolveGroups, h.reduce_eq, bind, Except.bind]

end Term
end StructuralTypes
