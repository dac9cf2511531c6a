import StructuralTypes.Proofs.Operands
import StructuralTypes.Proofs.Regrouping

namespace StructuralTypes

/-- A type expression in which a chain is the list of its operands. -/
inductive Flattened
  | leaf (l : Leaf)
  | object (fields : List (Field Flattened))
  | array (item : Flattened)
  | and (operands : List Flattened)
  | or (operands : List Flattened)
  | group (content : Flattened)

namespace Flattened

def chain (op : Connective) (t : Flattened) : List Flattened :=
  match op, t with
  | .and, .and operands | .or, .or operands => operands
  | _, t => [t]

end Flattened

namespace TypeExpr

mutual

def flatten : TypeExpr → Flattened
  | .leaf l => .leaf l
  | .object fields => .object (flattenFields fields)
  | .array item => .array item.flatten
  | .and l r => .and (l.flatten.chain .and ++ r.flatten.chain .and)
  | .or l r => .or (l.flatten.chain .or ++ r.flatten.chain .or)
  | .group content => .group content.flatten

def flattenFields : List (Field TypeExpr) → List (Field Flattened)
  | [] => []
  | f :: fs => ⟨f.name, f.optional, f.type.flatten⟩ :: flattenFields fs

end

variable {t u l r : TypeExpr} {fields : List (Field TypeExpr)}

theorem chain_flatten {op : Connective} : t.flatten.chain op = (t.chain op).map flatten := by
  induction t with
  | and l r ihl ihr =>
    cases op with
    | and => rw [flatten, Flattened.chain, ihl, ihr, chain, List.map_append]
    | or => rfl
  | or l r ihl ihr =>
    cases op with
    | and => rfl
    | or => rw [flatten, Flattened.chain, ihl, ihr, chain, List.map_append]
  | _ => cases op <;> rfl

theorem map_flatten_chain (op : Connective) (h : t.flatten = u.flatten) :
    (t.chain op).map flatten = (u.chain op).map flatten := by
  rw [← chain_flatten, ← chain_flatten, h]

theorem flattenFields_eq_map : flattenFields fields =
    fields.map fun f => ⟨f.name, f.optional, f.type.flatten⟩ := by
  induction fields with
  | nil => rfl
  | cons f fields ih => rw [flattenFields, ih, List.map_cons]

variable {layout : Layout} {level : Nat}

/-- The text of a chain of `&` is the texts of its operands, joined. -/
theorem parenthesized_render_eq_intercalate : parenthesized t (t.render layout level) =
    " & ".intercalate ((t.chain .and).map fun u => parenthesized u (u.render layout level)) := by
  induction t using chain_induct .and with
  | join l r ihl ihr =>
    rw [chain_join, Connective.join_and, parenthesized, render, ihl, ihr, List.map_append,
      String.intercalate_append_of_ne_nil]
    · simp [chain_ne_nil]
    · simp [chain_ne_nil]
    · simp
  | operand t ht => rw [ht, List.map_singleton, String.intercalate_singleton]

/-- The text of a chain of `|` is the texts of its operands, joined. -/
theorem render_eq_intercalate : t.render layout level =
    " | ".intercalate ((t.chain .or).map fun u => u.render layout level) := by
  induction t using chain_induct .or with
  | join l r ihl ihr =>
    rw [chain_join, Connective.join_or, render, ihl, ihr, List.map_append,
      String.intercalate_append_of_ne_nil]
    · simp [chain_ne_nil]
    · simp [chain_ne_nil]
  | operand t ht => rw [ht, List.map_singleton, String.intercalate_singleton]

theorem map_eq_map_of_forall_mem {α β γ : Type} {f : α → β} {g : α → γ} {as bs : List α}
    (h : ∀ a ∈ as, ∀ b, f a = f b → g a = g b) (hf : as.map f = bs.map f) :
    as.map g = bs.map g := by
  induction as generalizing bs with
  | nil =>
    obtain rfl := List.map_eq_nil_iff.1 hf.symm
    rfl
  | cons a as ih =>
    cases bs with
    | nil => cases hf
    | cons b bs =>
      rw [List.map_cons, List.map_cons, List.cons.injEq] at hf
      rw [List.forall_mem_cons] at h
      rw [List.map_cons, List.map_cons, h.1 b hf.1, ih h.2 hf.2]

theorem regroup_eq_of_chain {op : Connective}
    (h : (t.chain op).map regroup = (u.chain op).map regroup) : t.regroup = u.regroup := by
  obtain ⟨a, as, ha⟩ := List.exists_cons_of_ne_nil (chain_ne_nil op (t := t))
  obtain ⟨b, bs, hb⟩ := List.exists_cons_of_ne_nil (chain_ne_nil op (t := u))
  rw [ha, hb, List.map_cons, List.map_cons, List.cons.injEq] at h
  rw [regroup_eq_foldl ha, regroup_eq_foldl hb, h.1, h.2]

/-- A flattened type tells which type it is with every chain grouped from the left. -/
theorem regroup_eq_of_flatten_eq (h : t.flatten = u.flatten) : t.regroup = u.regroup := by
  induction t using chainInduct generalizing u with
  | leaf k =>
    cases u with
    | leaf k' =>
      cases h
      rfl
    | _ => simp [flatten] at h
  | object fields ih =>
    cases u with
    | object fields' =>
      simp only [flatten, flattenFields_eq_map, Flattened.object.injEq] at h
      rw [regroup, regroup, regroupFields_eq_map, regroupFields_eq_map]
      refine congrArg object (map_eq_map_of_forall_mem (fun f hf f' hff' => ?_) h)
      rw [Field.mk.injEq] at hff' ⊢
      exact ⟨hff'.1, hff'.2.1, ih f hf hff'.2.2⟩
    | _ => simp [flatten] at h
  | array item ih =>
    cases u with
    | array item' => rw [regroup, regroup, ih (Flattened.array.inj h)]
    | _ => simp [flatten] at h
  | and l r ih =>
    cases u with
    | and l' r' =>
      have hoperands := map_flatten_chain .and h
      exact regroup_eq_of_chain (map_eq_map_of_forall_mem (fun t ht u => ih t ht) hoperands)
    | _ => simp [flatten] at h
  | or l r ih =>
    cases u with
    | or l' r' =>
      have hoperands := map_flatten_chain .or h
      exact regroup_eq_of_chain (map_eq_map_of_forall_mem (fun t ht u => ih t ht) hoperands)
    | _ => simp [flatten] at h
  | group content ih =>
    cases u with
    | group content' => rw [regroup, regroup, ih (Flattened.group.inj h)]
    | _ => simp [flatten] at h

theorem alike_of_flatten_eq (h : t.flatten = u.flatten) : Alike t u := by
  have ht : Alike t.regroup t := alike_regroup
  rw [regroup_eq_of_flatten_eq h] at ht
  exact ht.symm.trans alike_regroup

/-- Types whose chains have the same operands are printed and checked alike, mismatches and all. An
intersection gives the verdict of its left side where that does not match, and otherwise that of its
right side; a union matches where one of its sides does. -/
theorem text_and_check_of_flatten_eq :
    (∀ t u : TypeExpr, t.flatten = u.flatten →
      (∀ layout, t.text layout = u.text layout) ∧ ∀ o v, t.check o v = u.check o v) ∧
    (∀ o (l r : TypeExpr) v,
      (∀ e, l.check o v = .error e → (and l r).check o v = .error e) ∧
      (l.check o v = .ok () → (and l r).check o v = r.check o v)) ∧
    ∀ o (l r : TypeExpr) v,
      (or l r).check o v = .ok () ↔ l.check o v = .ok () ∨ r.check o v = .ok () := by
  refine ⟨fun t u h => ⟨(alike_of_flatten_eq h).text, (alike_of_flatten_eq h).check⟩,
    fun o l r v => ⟨fun e hl => ?_, fun hl => ?_⟩, fun o l r v => check_or_eq_ok⟩
  · rw [check_and, hl]
    rfl
  · rw [check_and, hl]
    rfl

/-- Below, two ways to group the chains of `Array<(a & b & c | x) | string | { f?: a & b & c }>`. -/
theorem text_and_check_of_flatten_eq_nested :
    let a := leaf (.word "a")
    let b := leaf (.word "b")
    let c := leaf (.word "c")
    let x (abc : TypeExpr) := group (.or abc (.leaf (.word "x")))
    let y (abc : TypeExpr) := object [⟨"f", true, abc⟩]
    let t := array (.or (.or (x (.and (.and a b) c)) (.leaf .string)) (y (.and a (.and b c))))
    let u := array (.or (x (.and a (.and b c))) (.or (.leaf .string) (y (.and (.and a b) c))))
    let e := Mismatch.noAlternative "(a & b & c | x) | string | \x7b f?: a & b & c \x7d"
      [.noAlternative "a & b & c | x" [.wrongValue "a" "true", .wrongValue "x" "true"],
        .wrongKind "string" "boolean", .wrongKind "\x7b f?: a & b & c \x7d" "boolean"]
    t.flatten = u.flatten ∧ (∀ layout, t.text layout = u.text layout) ∧
      (∀ o v, t.check o v = u.check o v) ∧
      t.check ⟨false⟩ (.array [.string "x", .boolean true]) = .error (.atIndex 1 e) ∧
      (∀ o, (and a b).check o (.string "b") = .error (.wrongValue "a" "\"b\"")) ∧
      (∀ o, (and a b).check o (.string "a") = b.check o (.string "a")) := by
  intro a b c x y t u e
  have hflatten : t.flatten = u.flatten := rfl
  obtain ⟨hsame, hand, -⟩ := text_and_check_of_flatten_eq
  obtain ⟨htext, hcheck⟩ := hsame t u hflatten
  refine ⟨hflatten, htext, hcheck, ?_, fun o => ?_, fun o => ?_⟩
  · rfl
  · exact (hand o a b (.string "b")).1 _ rfl
  · exact (hand o a b (.string "a")).2 rfl

end TypeExpr
end StructuralTypes
