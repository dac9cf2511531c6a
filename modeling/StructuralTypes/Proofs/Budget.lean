import Mathlib.Algebra.Order.Ring.Nat
import StructuralTypes.Proofs.NormalForm

namespace StructuralTypes

namespace Distributing

variable {α β : Type} {x : Distributing α} {f : α → Distributing β} {q : Nat → α → Prop}
  {r : Nat → β → Prop}

/-- If the computation ends, then it has made some `k` more intersections of alternatives, within
the budget, and `q k` holds of its result. -/
def Makes (x : Distributing α) (q : Nat → α → Prop) : Prop :=
  ∀ made a after, made ≤ maxAlternatives → x made = .ok (a, after) →
    ∃ k, after = made + k ∧ after ≤ maxAlternatives ∧ q k a

theorem makes_pure {a : α} (h : q 0 a) : Makes (pure a) q := by
  intro made a' after hmade hx
  cases hx
  exact ⟨0, rfl, hmade, h⟩

theorem makes_throw {e : ReadError} : Makes (throw e) q := by
  intro made a after _ hx
  cases hx

theorem Makes.imp {q' : Nat → α → Prop} (h : Makes x q) (hq : ∀ k a, q k a → q' k a) :
    Makes x q' := by
  intro made a after hmade hx
  obtain ⟨k, hafter, hle, hk⟩ := h made a after hmade hx
  exact ⟨k, hafter, hle, hq k a hk⟩

theorem Makes.gives (h : Makes x q) : Makes x fun k a => Gives x a ∧ q k a := by
  intro made a after hmade hx
  obtain ⟨k, hafter, hle, hk⟩ := h made a after hmade hx
  exact ⟨k, hafter, hle, ⟨made, after, hx⟩, hk⟩

theorem Makes.bind (hx : Makes x q) (hf : ∀ k a, q k a → Makes (f a) fun j b => r (k + j) b) :
    Makes (x >>= f) r := by
  intro made b after hmade h
  change (x made >>= fun p => f p.1 p.2) = _ at h
  cases hp : x made with
  | error e => simp [hp, Bind.bind, Except.bind] at h
  | ok p =>
    rw [hp] at h
    obtain ⟨k, hk, hle, hq⟩ := hx made p.1 p.2 hmade hp
    obtain ⟨j, hj, hle', hr⟩ := hf k p.1 hq p.2 b after hle h
    exact ⟨k + j, by omega, hle', hr⟩

theorem Makes.map {g : α → β} (hx : Makes x fun k a => r k (g a)) : Makes (g <$> x) r := by
  rw [← bind_pure_comp]
  exact hx.bind fun k a h => makes_pure h

theorem makes_mapM {as : List α} {r : Nat → β → Prop} (hmono : ∀ j k b, j ≤ k → r j b → r k b)
    (h : ∀ a ∈ as, Makes (f a) r) :
    Makes (as.mapM f) fun k bs => bs.length = as.length ∧ ∀ b ∈ bs, r k b := by
  induction as with
  | nil => exact makes_pure ⟨rfl, by simp⟩
  | cons a as ih =>
    rw [List.forall_mem_cons] at h
    rw [List.mapM_cons]
    refine h.1.bind fun j b hb => (ih h.2).bind fun k bs hbs => makes_pure ?_
    refine ⟨congrArg Nat.succ hbs.1, List.forall_mem_cons.2 ⟨?_, fun c hc => ?_⟩⟩
    · exact hmono _ _ _ (by omega) hb
    · exact hmono _ _ _ (by omega) (hbs.2 c hc)

end Distributing

namespace TypeExpr

open Distributing

variable {b k : Nat} {l r m t u : TypeExpr} {fs gs hs : List (Field TypeExpr)}

def AtMost (b : Nat) (t : TypeExpr) : Prop :=
  t.Everywhere fun u => u.alternatives.length ≤ b

theorem AtMost.mono {c : Nat} (h : AtMost b t) (hbc : b ≤ c) : AtMost c t :=
  fun u hu => (h u hu).trans hbc

theorem AtMost.length_alternatives_le (h : AtMost b t) : t.alternatives.length ≤ b :=
  h.self

theorem AtMost.pos (h : AtMost b t) : 0 < b :=
  (List.length_pos_iff.2 (alternatives_ne_nil t)).trans_le h.length_alternatives_le

theorem atMost_leaf {k : Leaf} : AtMost b (.leaf k) ↔ 0 < b := by
  simp [AtMost, alternatives, Nat.one_le_iff_ne_zero, Nat.pos_iff_ne_zero]

theorem atMost_object : AtMost b (.object fs) ↔ 0 < b ∧ ∀ f ∈ fs, AtMost b f.type := by
  simp [AtMost, alternatives, Nat.one_le_iff_ne_zero, Nat.pos_iff_ne_zero]

theorem atMost_array : AtMost b (.array t) ↔ AtMost b t := by
  refine ⟨fun h => (everywhere_array.1 h).2, fun h => everywhere_array.2 ⟨?_, h⟩⟩
  exact h.pos

theorem atMost_and : AtMost b (.and l r) ↔ AtMost b l ∧ AtMost b r := by
  refine ⟨fun h => (everywhere_and.1 h).2, fun h => everywhere_and.2 ⟨?_, h⟩⟩
  exact h.1.pos

theorem atMost_or : AtMost b (.or l r) ↔
    l.alternatives.length + r.alternatives.length ≤ b ∧ AtMost b l ∧ AtMost b r := by
  simp [AtMost, alternatives]

theorem atMost_group : AtMost b (.group t) ↔ AtMost b t := by
  refine ⟨fun h => (everywhere_group.1 h).2, fun h => everywhere_group.2 ⟨?_, h⟩⟩
  rw [alternatives]
  split
  · exact h.length_alternatives_le
  · exact h.pos

theorem AtMost.of_mem_alternatives (h : AtMost b t) (hu : u ∈ t.alternatives) : AtMost b u :=
  everywhere_of_mem_alternatives hu h

theorem AtMost.of_fields? (h : AtMost b t) (hfs : t.fields? = some fs) :
    ∀ f ∈ fs, AtMost b f.type :=
  (atMost_object.1 (everywhere_of_fields? hfs h)).2

theorem atMost_foldl_or {ts : List TypeExpr} (hl : AtMost b l)
    (hts : ∀ t ∈ ts, t.alternatives.length = 1 ∧ AtMost b t)
    (hlength : l.alternatives.length + ts.length ≤ b) : AtMost b (ts.foldl .or l) := by
  induction ts generalizing l with
  | nil => exact hl
  | cons t ts ih =>
    rw [List.forall_mem_cons] at hts
    rw [List.length_cons] at hlength
    refine ih (atMost_or.2 ⟨?_, hl, hts.1.2⟩) hts.2 ?_
    · omega
    · rw [alternatives, List.length_append]
      omega

theorem atMost_unionOf {ms : List TypeExpr} (hm : unionOf ms = some m)
    (hms : ∀ t ∈ ms, t.alternatives.length = 1 ∧ AtMost b t) (hlength : ms.length ≤ b) :
    AtMost b m := by
  cases ms with
  | nil => cases hm
  | cons t ts =>
    rw [List.forall_mem_cons] at hms
    rw [unionOf, Option.some_inj] at hm
    rw [List.length_cons] at hlength
    exact hm ▸ atMost_foldl_or hms.1.2 hms.2 (by omega)

/-- The intersection has no larger union than both sides, or none larger than what is made. -/
def BoundedMeet (l r : TypeExpr) (k : Nat) (m : TypeExpr) : Prop :=
  ∀ b, AtMost b l → AtMost b r → AtMost (max b k) m

section

variable {meet' : TypeExpr → TypeExpr → Distributing TypeExpr}

theorem makes_spend (n : Nat) : Makes (spend n) fun k _ => k = n := by
  intro made a after _ h
  rw [spend_apply] at h
  split at h
  · next hle =>
    cases h
    exact ⟨n, rfl, hle, rfl⟩
  · cases h

theorem length_alternativePairs :
    (alternativePairs l r).length = l.alternatives.length * r.alternatives.length := by
  simp [alternativePairs, List.length_flatMap]

theorem makes_distribute (h : ∀ l r, Makes (meet' l r) fun k m =>
    m.alternatives.length = 1 ∧ BoundedMeet l r k m) (l r : TypeExpr) :
    Makes (distribute meet' l r) (BoundedMeet l r) := by
  unfold distribute
  split
  · exact (h l r).imp fun _ _ hm => hm.2
  · refine (makes_spend _).bind fun n _ hn => ?_
    have hpair : ∀ p ∈ alternativePairs l r, Makes (meet' p.1 p.2) fun k m =>
        m.alternatives.length = 1 ∧ BoundedMeet l r k m := by
      intro p hp
      have hp := mem_alternativePairs.1 hp
      refine (h p.1 p.2).imp fun k m hm => ⟨hm.1, fun b hl hr => hm.2 b ?_ ?_⟩
      · exact hl.of_mem_alternatives hp.1
      · exact hr.of_mem_alternatives hp.2
    have hmono (j k : Nat) (m : TypeExpr) (hjk : j ≤ k)
        (hm : m.alternatives.length = 1 ∧ BoundedMeet l r j m) :
        m.alternatives.length = 1 ∧ BoundedMeet l r k m :=
      ⟨hm.1, fun b hl hr => (hm.2 b hl hr).mono (by omega)⟩
    refine (makes_mapM hmono hpair).bind fun k ms hms => makes_pure fun b hl hr => ?_
    have hlength := hms.1.trans length_alternativePairs
    have hmax : max b k ≤ max b (n + (k + 0)) := by omega
    cases hm : unionOf ms with
    | none =>
      have hl := List.length_pos_iff.2 (alternatives_ne_nil l)
      have hr := List.length_pos_iff.2 (alternatives_ne_nil r)
      have hpos := Nat.mul_pos hl hr
      cases ms with
      | nil => rw [List.length_nil] at hlength; omega
      | cons => cases hm
    | some m =>
      refine atMost_unionOf hm (fun t ht => ⟨(hms.2 t ht).1, ?_⟩) (by omega)
      exact ((hms.2 t ht).2 b hl hr).mono hmax

theorem makes_mergeField (h : ∀ l r, Makes (meet' l r) (BoundedMeet l r)) (g : Field TypeExpr)
    (fs : List (Field TypeExpr)) : Makes (mergeField meet' g fs) fun k hs =>
      ∀ b, (∀ f ∈ fs, AtMost b f.type) → AtMost b g.type → ∀ f ∈ hs, AtMost (max b k) f.type := by
  induction fs with
  | nil =>
    refine makes_pure fun b _ hg => ?_
    simpa using hg
  | cons f fs ih =>
    rw [mergeField]
    split
    · refine (h f.type g.type).bind fun k t ht => makes_pure fun b hfs hg => ?_
      rw [List.forall_mem_cons] at hfs ⊢
      exact ⟨ht b hfs.1 hg, fun f hf => (hfs.2 f hf).mono (le_max_left _ _)⟩
    · refine ih.bind fun k hs hhs => makes_pure fun b hfs hg => ?_
      rw [List.forall_mem_cons] at hfs ⊢
      exact ⟨hfs.1.mono (le_max_left _ _), hhs b hfs.2 hg⟩

theorem makes_mergeFields (h : ∀ l r, Makes (meet' l r) (BoundedMeet l r))
    (fs gs : List (Field TypeExpr)) : Makes (mergeFields meet' fs gs) fun k hs =>
      ∀ b, (∀ f ∈ fs, AtMost b f.type) → (∀ g ∈ gs, AtMost b g.type) →
        ∀ f ∈ hs, AtMost (max b k) f.type := by
  unfold mergeFields
  induction gs generalizing fs with
  | nil => exact makes_pure fun b hfs _ f hf => (hfs f hf).mono (le_max_left _ _)
  | cons g gs ih =>
    rw [List.foldlM_cons]
    refine (makes_mergeField h g fs).bind fun j hs hhs => (ih hs).imp fun k is his b hfs hgs => ?_
    rw [List.forall_mem_cons] at hgs
    have hstep := hhs b hfs hgs.1
    have hrest := his (max b j) hstep fun g hg => (hgs.2 g hg).mono (le_max_left _ _)
    exact fun f hf => (hrest f hf).mono (by omega)

theorem makes_meetAlternatives
    {merge : List (Field TypeExpr) → List (Field TypeExpr) → Distributing (List (Field TypeExpr))}
    (h : ∀ fs gs, Makes (merge fs gs) fun k hs =>
      ∀ b, (∀ f ∈ fs, AtMost b f.type) → (∀ g ∈ gs, AtMost b g.type) →
        ∀ f ∈ hs, AtMost (max b k) f.type) (l r : TypeExpr) :
    Makes (meetAlternatives merge l r) fun k m =>
      m.alternatives.length = 1 ∧ BoundedMeet l r k m := by
  unfold meetAlternatives
  split
  · next fs gs hfs hgs =>
    refine ((h fs gs).imp fun k hs hhs => ⟨rfl, fun b hl hr => ?_⟩).map
    refine atMost_object.2 ⟨lt_max_of_lt_left hl.pos, hhs b (hl.of_fields? hfs) (hr.of_fields? hgs)⟩
  · exact makes_pure ⟨rfl, fun b hl hr => by simpa using atMost_and.2 ⟨hl, hr⟩⟩

/-- An intersection makes no union larger than those of its sides, except by distributing. -/
theorem makes_meet (n : Nat) (l r : TypeExpr) : Makes (meet n l r) (BoundedMeet l r) := by
  induction n generalizing l r with
  | zero => exact makes_distribute (makes_meetAlternatives fun _ _ => makes_throw) l r
  | succ n ih => exact makes_distribute (makes_meetAlternatives (makes_mergeFields ih)) l r

end

mutual

/-- How many times two types are joined by `|`, at any depth. -/
def unions : TypeExpr → Nat
  | .leaf _ => 0
  | .object fields => fieldUnions fields
  | .array item => item.unions
  | .and l r => l.unions + r.unions
  | .or l r => l.unions + r.unions + 1
  | .group content => content.unions

def fieldUnions : List (Field TypeExpr) → Nat
  | [] => 0
  | f :: fs => f.type.unions + fieldUnions fs

end

theorem makes_descend (n : Nat) : Makes (descend n) fun k _ => k = 0 := by
  cases n with
  | zero => exact makes_throw
  | succ n => exact makes_pure rfl

theorem makes_normalizeFields {n : Nat} (h : ∀ f ∈ fs, Makes (normalizeWithin n f.type) fun k u =>
    AtMost (f.type.unions + k + 1) u) :
    Makes (normalizeFields n fs) fun k gs => ∀ g ∈ gs, AtMost (fieldUnions fs + k + 1) g.type := by
  induction fs with
  | nil => exact makes_pure (by simp)
  | cons f fs ih =>
    rw [List.forall_mem_cons] at h
    rw [normalizeFields]
    refine h.1.bind fun j t ht => (ih h.2).bind fun k gs hgs => makes_pure ?_
    rw [fieldUnions, List.forall_mem_cons]
    exact ⟨ht.mono (by omega), fun g hg => (hgs g hg).mono (by omega)⟩

/-- No union in a normal form is larger than all unions of the type and what was made together. -/
theorem makes_normalizeWithin (n : Nat) (t : TypeExpr) :
    Makes (normalizeWithin n t) fun k u => AtMost (t.unions + k + 1) u := by
  induction t generalizing n with
  | leaf l => exact makes_pure (atMost_leaf.2 (by omega))
  | object fields ih =>
    refine (makes_descend n).bind fun k levels hk => ?_
    refine (makes_normalizeFields fun f hf => ih f hf levels).bind fun j gs hgs => makes_pure ?_
    exact atMost_object.2 ⟨by omega, fun g hg => (hgs g hg).mono (by rw [unions]; omega)⟩
  | array item ih =>
    refine (makes_descend n).bind fun k levels hk => (ih levels).bind fun j u hu => makes_pure ?_
    exact atMost_array.2 (hu.mono (by rw [unions]; omega))
  | and l r ihl ihr =>
    refine (ihl n).bind fun i l' hl => (ihr n).bind fun j r' hr => ?_
    refine (makes_meet n l' r').imp fun k m hm => ?_
    have hm := hm (l.unions + r.unions + (i + j) + 1) (hl.mono (by omega)) (hr.mono (by omega))
    exact hm.mono (by rw [unions]; omega)
  | or l r ihl ihr =>
    refine (ihl n).bind fun i l' hl => (ihr n).bind fun j r' hr => makes_pure ?_
    have := hl.length_alternatives_le
    have := hr.length_alternatives_le
    rw [unions]
    exact atMost_or.2 ⟨by omega, hl.mono (by omega), hr.mono (by omega)⟩
  | group content ih =>
    refine (makes_descend n).bind fun k levels hk => (ih levels).bind fun j u hu => makes_pure ?_
    exact atMost_group.2 (hu.mono (by rw [unions]; omega))

theorem unions_joinChain {op : Connective} :
    (joinChain op l r).unions = (op.join l r).unions := by
  refine joinChain_of_assoc (R := fun t u => t.unions = u.unions) (fun _ => rfl) Eq.trans
    (fun r h => ?_) (fun l t u => ?_) l r
  · cases op <;> simp only [Connective.join, unions, h]
  · cases op <;> simp only [Connective.join, unions] <;> omega

theorem fieldUnions_eq_sum : fieldUnions fs = (fs.map fun f => f.type.unions).sum := by
  induction fs with
  | nil => rfl
  | cons f fs ih => rw [fieldUnions, ih, List.map_cons, List.sum_cons]

theorem unions_regroup : t.regroup.unions = t.unions := by
  induction t with
  | leaf l => rfl
  | object fields ih =>
    simp only [regroup, regroupFields_eq_map, unions, fieldUnions_eq_sum, List.map_map]
    exact congrArg List.sum (List.map_congr_left ih)
  | array item ih => exact ih
  | and l r ihl ihr => rw [regroup, unions_joinChain, Connective.join_and, unions, ihl, ihr, unions]
  | or l r ihl ihr => rw [regroup, unions_joinChain, Connective.join_or, unions, ihl, ihr, unions]
  | group content ih => exact ih

theorem Makes.of_normalize {n : TypeExpr} {q : Nat → TypeExpr → Prop}
    (h : Makes (normalizeWithin maxLevels t.regroup) q) (hn : normalize t = .ok n) :
    ∃ k, k ≤ maxAlternatives ∧ q k n := by
  unfold normalize StateT.run' at hn
  cases hx : (normalizeWithin maxLevels t.regroup) 0 with
  | error e => simp [hx, Functor.map, Except.map] at hn
  | ok p =>
    simp only [hx, Functor.map, Except.map, Except.ok.injEq] at hn
    obtain ⟨k, hk, hle, hq⟩ := h 0 p.1 p.2 (Nat.zero_le _) hx
    exact ⟨k, by omega, hn ▸ hq⟩

/-- Every single union in a normal form is bounded by the unions of the type and the budget. -/
theorem atMost_of_normalize {n : TypeExpr} (h : normalize t = .ok n) :
    AtMost (t.unions + maxAlternatives + 1) n := by
  obtain ⟨k, hk, hn⟩ := Makes.of_normalize (makes_normalizeWithin maxLevels t.regroup) h
  rw [unions_regroup] at hn
  exact hn.mono (by omega)

end TypeExpr

end StructuralTypes
