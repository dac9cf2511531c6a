import StructuralTypes.TypeExpr.Chain
import StructuralTypes.Proofs.Subterm

namespace StructuralTypes.TypeExpr

variable {op op' : Connective} {l r t : TypeExpr}

theorem chain_ne_nil (op : Connective) : t.chain op ≠ [] := by
  induction t using chain_induct op with
  | join l r ihl ihr => simp [chain_join, ihl]
  | operand t ht => simp [ht]

theorem exists_chain_join (op : Connective) (l r : TypeExpr) :
    ∃ a b ts, (op.join l r).chain op = a :: b :: ts := by
  obtain ⟨a, as, ha⟩ := List.exists_cons_of_ne_nil (chain_ne_nil op (t := l))
  obtain ⟨b, bs, hb⟩ := List.exists_cons_of_ne_nil (chain_ne_nil op (t := r))
  rw [chain_join, ha, hb]
  cases as with
  | nil => exact ⟨a, b, bs, rfl⟩
  | cons c cs => exact ⟨a, c, cs ++ b :: bs, rfl⟩

theorem ne_join_of_chain (h : t.chain op = [t]) : t ≠ op.join l r := by
  rintro rfl
  obtain ⟨a, b, ts, hchain⟩ := exists_chain_join op l r
  cases h.symm.trans hchain

theorem joinChain_joinChain :
    joinChain op t (joinChain op l r) = joinChain op (joinChain op t l) r := by
  rw [joinChain, chain_joinChain, List.foldl_append]
  rfl

theorem exists_joinChain_eq (op : Connective) (l r : TypeExpr) :
    ∃ l' r', joinChain op l r = op.join l' r' := by
  rcases List.eq_nil_or_concat (r.chain op) with hnil | ⟨ts, t, hts⟩
  · exact absurd hnil (chain_ne_nil op)
  · exact ⟨ts.foldl op.join l, t, by simp [joinChain, hts]⟩

theorem chain_joinChain_of_ne (h : op ≠ op') :
    (joinChain op l r).chain op' = [joinChain op l r] := by
  obtain ⟨l', r', heq⟩ := exists_joinChain_eq op l r
  rw [heq]
  cases op <;> cases op' <;> first | rfl | exact absurd rfl h

theorem regroup_join : (op.join l r).regroup = joinChain op l.regroup r.regroup := by
  cases op <;> rfl

theorem chain_regroup : t.regroup.chain op = (t.chain op).map regroup := by
  induction t with
  | and l r ihl ihr =>
    cases op with
    | and => rw [regroup, chain_joinChain, ihl, ihr, chain, List.map_append]
    | or => exact chain_joinChain_of_ne (by decide)
  | or l r ihl ihr =>
    cases op with
    | and => exact chain_joinChain_of_ne (by decide)
    | or => rw [regroup, chain_joinChain, ihl, ihr, chain, List.map_append]
  | _ => cases op <;> rfl

theorem regroup_eq_foldl {ts : List TypeExpr} (h : t.chain op = r :: ts) :
    t.regroup = (ts.map regroup).foldl op.join r.regroup := by
  induction t using chain_induct op generalizing r ts with
  | join l' r' ihl _ =>
    rw [chain_join] at h
    obtain ⟨a, as, ha⟩ := List.exists_cons_of_ne_nil (chain_ne_nil op (t := l'))
    rw [ha, List.cons_append] at h
    cases h
    rw [regroup_join, joinChain, chain_regroup, ihl ha, ← List.foldl_append, List.map_append]
  | operand t ht =>
    cases ht.symm.trans h
    rfl

theorem regroup_foldl {join : TypeExpr → TypeExpr → TypeExpr} {ts : List TypeExpr}
    (h : ∀ l, ∀ t ∈ ts, (join l t).regroup = join l.regroup t.regroup) (l : TypeExpr) :
    (ts.foldl join l).regroup = (ts.map regroup).foldl join l.regroup := by
  induction ts generalizing l with
  | nil => rfl
  | cons t ts ih =>
    have hts := fun l u hu => h l u (List.mem_cons_of_mem t hu)
    rw [List.foldl_cons, ih hts, h l t List.mem_cons_self, List.map_cons, List.foldl_cons]

theorem regroup_joinChain : (joinChain op l r).regroup = joinChain op l.regroup r.regroup := by
  have hstep (l : TypeExpr) :
      ∀ t ∈ r.chain op, (op.join l t).regroup = op.join l.regroup t.regroup := by
    intro t ht
    rw [regroup_join]
    apply joinChain_of_chain
    rw [chain_regroup, chain_of_mem_chain ht, List.map_singleton]
  rw [joinChain, regroup_foldl hstep, ← chain_regroup]
  rfl

@[simp]
theorem regroup_regroup : t.regroup.regroup = t.regroup := by
  induction t with
  | leaf k => rfl
  | object fields ih =>
    simp only [regroup, regroupFields_eq_map, List.map_map, Function.comp_def]
    exact congrArg object (List.map_congr_left fun f hf => by rw [ih f hf])
  | array item ih => rw [regroup, regroup, ih]
  | and l r ihl ihr => rw [regroup, regroup_joinChain, ihl, ihr]
  | or l r ihl ihr => rw [regroup, regroup_joinChain, ihl, ihr]
  | group content ih => rw [regroup, regroup, ih]

end StructuralTypes.TypeExpr
