import Mathlib.Algebra.BigOperators.Group.List.Basic
import StructuralTypes.Proofs.Determinacy
import StructuralTypes.Proofs.Grouping

namespace StructuralTypes

/-- All ways to take one of each list, in lexicographic order: the choice from the last list changes
first. -/
def selections {α : Type} : List (List α) → List (List α)
  | [] => [[]]
  | as :: ass => as.flatMap fun a => (selections ass).map (a :: ·)

theorem selections_singleton {α : Type} (as : List α) : selections [as] = as.map fun a => [a] := by
  rw [List.map_eq_flatMap]
  rfl

theorem length_selections {α : Type} (ass : List (List α)) :
    (selections ass).length = (ass.map List.length).prod := by
  induction ass with
  | nil => rfl
  | cons as ass ih => simp [selections, List.length_flatMap, ih]

namespace TypeExpr

open Distributing

variable {k : Nat} {l r m t n : TypeExpr} {ts ms : List TypeExpr}

/-- The intersection of two alternatives: two objects, seen through parentheses, are merged, and
anything else stands side by side. -/
def meetPair (l r : TypeExpr) : Except ReadError TypeExpr :=
  match l.fields?, r.fields? with
  | some fs, some gs => .object <$> (mergeFields (meet (maxLevels - 1)) fs gs).run' 0
  | _, _ => return .and l r

inductive MeetsInTurn : List TypeExpr → TypeExpr → Prop
  | single (t : TypeExpr) : MeetsInTurn [t] t
  | cons {a b c m : TypeExpr} {ts : List TypeExpr} (h : meetPair a b = .ok c)
    (hs : MeetsInTurn (c :: ts) m) :
    MeetsInTurn (a :: b :: ts) m

theorem meetPair_of_gives
    (h : Gives (meetAlternatives (mergeFields (meet (maxLevels - 1))) l r) m) :
    meetPair l r = .ok m := by
  rw [meetPair]
  rcases gives_meetAlternatives h with ⟨hne, rfl⟩ | ⟨fs, gs, hs, hl, hr, hhs, rfl⟩
  · split
    · next hl hr => simp [hl, hr] at hne
    · rfl
  · rw [(steady_mergeFields (steady_meet _) fs gs).gives_iff] at hhs
    rw [hl, hr]
    dsimp only
    rw [hhs]
    rfl

theorem union?_of_meetPair (h : meetPair l r = .ok m) : m.union? = none := by
  unfold meetPair at h
  split at h
  · next fs gs _ _ =>
    cases hhs : (mergeFields (meet (maxLevels - 1)) fs gs).run' 0 with
    | error e =>
      rw [hhs] at h
      cases h
    | ok hs =>
      rw [hhs] at h
      cases h
      rfl
  · cases h
    rfl

theorem alternatives_foldl_or (h : ∀ t ∈ ts, t.union? = none) (u : TypeExpr) :
    (ts.foldl .or u).alternatives = u.alternatives ++ ts := by
  induction ts generalizing u with
  | nil => simp
  | cons t ts ih =>
    rw [List.forall_mem_cons] at h
    rw [List.foldl_cons, ih h.2, alternatives, alternatives_of_union? h.1, List.append_assoc,
      List.singleton_append]

theorem alternatives_unionOf (h : unionOf ms = some m) (hms : ∀ t ∈ ms, t.union? = none) :
    m.alternatives = ms := by
  cases ms with
  | nil => cases h
  | cons t ts =>
    rw [List.forall_mem_cons] at hms
    rw [unionOf, Option.some_inj] at h
    rw [← h, alternatives_foldl_or hms.2, alternatives_of_union? hms.1, List.singleton_append]

/-- One intersection makes a product for each pair of alternatives, and its alternatives are these
products. -/
theorem products_of_meet (h : Gives (meet maxLevels l r) m) :
    List.Forall₂ (fun q c => meetPair q.1 q.2 = .ok c) (alternativePairs l r) m.alternatives ∧
      unionOf m.alternatives = some m := by
  suffices hms : ∃ ms,
      List.Forall₂ (fun q c => meetPair q.1 q.2 = .ok c) (alternativePairs l r) ms ∧
        unionOf ms = some m by
    obtain ⟨ms, hms, hm⟩ := hms
    have hunion : ∀ c ∈ ms, c.union? = none :=
      forall_mem_of_forall₂ hms fun _ _ _ => union?_of_meetPair
    rw [alternatives_unionOf hm hunion]
    exact ⟨hms, hm⟩
  change Gives (distribute (meetAlternatives (mergeFields (meet (maxLevels - 1)))) l r) m at h
  rcases gives_distribute h with ⟨hl, hr, h⟩ | ⟨ms, hms, hm⟩
  · refine ⟨[m], ?_, rfl⟩
    rw [alternativePairs, alternatives_of_union? hl, alternatives_of_union? hr]
    exact .cons (meetPair_of_gives h) .nil
  · exact ⟨ms, hms.imp fun _ _ => meetPair_of_gives, hm⟩

theorem selections_cons_cons {α : Type} (as bs : List α) (ass : List (List α)) :
    selections (as :: bs :: ass) = (as.flatMap fun a => bs.map (a, ·)).flatMap fun q =>
      (selections ass).map fun c => q.1 :: q.2 :: c := by
  simp [selections, List.flatMap_assoc, List.flatMap_map, List.map_flatMap, Function.comp_def]

/-- Where the alternatives of a type are the products of two others, choosing from it is choosing
from both. -/
theorem meetsInTurn_of_products {as bs cs : List TypeExpr} {ass : List (List TypeExpr)}
    (hcs : List.Forall₂ (fun q c => meetPair q.1 q.2 = .ok c)
      (as.flatMap fun a => bs.map (a, ·)) cs)
    (hms : List.Forall₂ MeetsInTurn (selections (cs :: ass)) ms) :
    List.Forall₂ MeetsInTurn (selections (as :: bs :: ass)) ms := by
  have hchoices : List.Forall₂ (fun x y => ∀ m, MeetsInTurn y m → MeetsInTurn x m)
      (selections (as :: bs :: ass)) (selections (cs :: ass)) := by
    rw [selections_cons_cons, selections]
    refine List.rel_flatMap hcs fun q c hc => ?_
    rw [List.forall₂_map_left_iff, List.forall₂_map_right_iff, List.forall₂_same]
    exact fun _ _ m hm => .cons hc hm
  generalize selections (as :: bs :: ass) = xs at hchoices ⊢
  generalize selections (cs :: ass) = ys at hchoices hms
  induction hchoices generalizing ms with
  | nil =>
    cases hms
    exact .nil
  | cons hxy _ ih =>
    cases hms with
    | cons hm hms => exact .cons (hxy _ hm) (ih hms)

/-- Every further operand of a chain multiplies the alternatives by its own. -/
theorem products_of_chain (h : Gives (normalizeWithin maxLevels (ts.foldl .and t)) m) :
    ∃ us, List.Forall₂ (fun t u => Gives (normalizeWithin maxLevels t) u) (t :: ts) us ∧
      List.Forall₂ MeetsInTurn (selections (us.map alternatives)) m.alternatives := by
  induction ts generalizing t with
  | nil =>
    refine ⟨[m], .cons h .nil, ?_⟩
    rw [List.map_singleton, selections_singleton, List.forall₂_map_left_iff, List.forall₂_same]
    exact fun a _ => .single a
  | cons t' ts ih =>
    obtain ⟨us, hus, hms⟩ := ih h
    cases hus with
    | @cons _ m' _ us hm' hus =>
      rw [normalizeWithin] at hm'
      obtain ⟨u, hu, hm'⟩ := gives_bind hm'
      obtain ⟨u', hu', hm'⟩ := gives_bind hm'
      refine ⟨u :: u' :: us, .cons hu (.cons hu' hus), ?_⟩
      exact meetsInTurn_of_products (products_of_meet hm').1 hms

/-- The normal form of a chain of `&` is a union, grouped from the left, whose alternatives are in
order the intersections of all choices of one alternative of each operand's normal form. -/
theorem alternatives_of_normalize_and (h : normalize (.and l r) = .ok n) :
    ∃ us, List.Forall₂ (fun t u => normalize t = .ok u) ((and l r).chain .and) us ∧
      List.Forall₂ MeetsInTurn (selections (us.map alternatives)) n.alternatives ∧
      unionOf n.alternatives = some n ∧
      n.alternatives.length = (us.map fun u => u.alternatives.length).prod := by
  obtain ⟨t, ts, hts⟩ := List.exists_cons_of_ne_nil (chain_ne_nil .and (t := .and l r))
  have hgives := normalize_eq_ok_iff.1 h
  have hchain := hgives
  rw [regroup_eq_foldl hts] at hchain
  obtain ⟨us, hus, hms⟩ := products_of_chain hchain
  refine ⟨us, ?_, hms, ?_, ?_⟩
  · rw [← List.map_cons, List.forall₂_map_left_iff] at hus
    rw [hts]
    exact hus.imp fun _ _ => normalize_eq_ok_iff.2
  · obtain ⟨l', r', hand⟩ := exists_joinChain_eq .and l.regroup r.regroup
    rw [regroup, hand, Connective.join_and, normalizeWithin] at hgives
    obtain ⟨_, -, hgives⟩ := gives_bind hgives
    obtain ⟨_, -, hgives⟩ := gives_bind hgives
    exact (products_of_meet hgives).2
  · rw [← hms.length_eq, length_selections, List.map_map]
    rfl

/-- Below, `({ a: string } | null) & (({ a?: k }) | string) & { b?: number }` has 2 * 2 * 1
alternatives; parentheses stay where nothing is merged. -/
theorem alternatives_of_normalize_three_operands :
    let a := object [⟨"a", false, .leaf .string⟩]
    let b := object [⟨"a", true, .leaf (.word "k")⟩]
    let c := object [⟨"b", true, .leaf .number⟩]
    let abc := object [⟨"a", false, .and (.leaf .string) (.leaf (.word "k"))⟩,
      ⟨"b", true, .leaf .number⟩]
    let l := and (.group (.or a (.leaf .null))) (.group (.or (.group b) (.leaf .string)))
    let n := or (.or (.or abc (.and (.and a (.leaf .string)) c))
      (.and (.and (.leaf .null) (.group b)) c)) (.and (.and (.leaf .null) (.leaf .string)) c)
    normalize (.and l c) = .ok n ∧
      ∃ us, List.Forall₂ (fun t u => normalize t = .ok u) ((and l c).chain .and) us ∧
        List.Forall₂ MeetsInTurn (selections (us.map alternatives)) n.alternatives ∧
        unionOf n.alternatives = some n ∧
        n.alternatives.length = (us.map fun u => u.alternatives.length).prod ∧
        n.alternatives.length = 4 := by
  intro a b c abc l n
  have hnorm : normalize (.and l c) = .ok n := rfl
  obtain ⟨us, hus, hms, hunion, hlength⟩ := alternatives_of_normalize_and hnorm
  exact ⟨hnorm, us, hus, hms, hunion, hlength, rfl⟩

end TypeExpr

end StructuralTypes
