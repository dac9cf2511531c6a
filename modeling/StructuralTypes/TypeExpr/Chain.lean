import StructuralTypes.TypeExpr.Basic

namespace StructuralTypes.TypeExpr

/-- The operands of a chain of `op`, from left to right; parentheses end the chain. -/
def chain (op : Connective) (t : TypeExpr) : List TypeExpr :=
  match op, t with
  | .and, .and l r => l.chain .and ++ r.chain .and
  | .or, .or l r => l.chain .or ++ r.chain .or
  | _, t => [t]

/-- The chain of `l` and then the operands of `r`, grouped from the left. -/
def joinChain (op : Connective) (l r : TypeExpr) : TypeExpr :=
  (r.chain op).foldl op.join l

mutual

def regroup : TypeExpr → TypeExpr
  | .leaf l => .leaf l
  | .object fields => .object (regroupFields fields)
  | .array item => .array item.regroup
  | .and l r => joinChain .and l.regroup r.regroup
  | .or l r => joinChain .or l.regroup r.regroup
  | .group content => .group content.regroup

def regroupFields : List (Field TypeExpr) → List (Field TypeExpr)
  | [] => []
  | f :: fs => { f with type := f.type.regroup } :: regroupFields fs

end

variable {op : Connective} {l r t u : TypeExpr}

theorem chain_join : (op.join l r).chain op = l.chain op ++ r.chain op := by
  cases op <;> rfl

/-- Induction over the operands of a chain. -/
@[elab_as_elim]
theorem chain_induct {motive : TypeExpr → Prop} (op : Connective)
    (join : ∀ l r, motive l → motive r → motive (op.join l r))
    (operand : ∀ t, t.chain op = [t] → motive t) (t : TypeExpr) : motive t := by
  induction op, t using chain.induct with
  | case1 l r ihl ihr => exact join l r (ihl join operand) (ihr join operand)
  | case2 l r ihl ihr => exact join l r (ihl join operand) (ihr join operand)
  | case3 op t hand hor => exact operand t (chain.eq_3 op t hand hor)

theorem chain_of_mem_chain (h : t ∈ u.chain op) : t.chain op = [t] := by
  induction u using chain_induct op with
  | join l r ihl ihr =>
    rw [chain_join] at h
    exact (List.mem_append.1 h).elim ihl ihr
  | operand u hu =>
    rw [hu] at h
    rwa [List.mem_singleton.1 h]

theorem chain_foldl_join (ts : List TypeExpr) (l : TypeExpr) (h : ∀ t ∈ ts, t.chain op = [t]) :
    (ts.foldl op.join l).chain op = l.chain op ++ ts := by
  induction ts generalizing l with
  | nil => simp
  | cons t ts ih =>
    rw [List.forall_mem_cons] at h
    rw [List.foldl_cons, ih _ h.2, chain_join, h.1, List.append_assoc, List.singleton_append]

theorem joinChain_of_chain (h : r.chain op = [r]) : joinChain op l r = op.join l r := by
  rw [joinChain, h]
  rfl

theorem joinChain_join : joinChain op l (op.join t u) = joinChain op (joinChain op l t) u := by
  rw [joinChain, chain_join, List.foldl_append]
  rfl

/-- What one join may be moved to the other side for, a chain may be grouped from the left for. -/
theorem joinChain_of_assoc {R : TypeExpr → TypeExpr → Prop} (refl : ∀ t, R t t)
    (trans : ∀ {t u w}, R t u → R u w → R t w)
    (congr : ∀ {l l'} r, R l l' → R (op.join l r) (op.join l' r))
    (assoc : ∀ l t u, R (op.join (op.join l t) u) (op.join l (op.join t u)))
    (l r : TypeExpr) : R (joinChain op l r) (op.join l r) := by
  induction r using chain_induct op generalizing l with
  | join t u iht ihu =>
    rw [joinChain_join]
    exact trans (ihu _) (trans (congr u (iht l)) (assoc l t u))
  | operand r hr =>
    rw [joinChain_of_chain hr]
    exact refl _

theorem chain_joinChain : (joinChain op l r).chain op = l.chain op ++ r.chain op :=
  chain_foldl_join _ _ fun _ => chain_of_mem_chain

end StructuralTypes.TypeExpr
