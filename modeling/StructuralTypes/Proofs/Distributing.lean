import Mathlib.Data.List.Forall2
import StructuralTypes.Proofs.Alternative
import StructuralTypes.TypeExpr.Normal

namespace StructuralTypes

namespace Distributing

variable {α β : Type} {x : Distributing α} {f : α → Distributing β} {a : α} {b : β}

def Gives (x : Distributing α) (a : α) : Prop :=
  ∃ made after, x made = .ok (a, after)

theorem gives_pure {a' : α} (h : Gives (pure a) a') : a' = a := by
  obtain ⟨made, after, h⟩ := h
  cases h
  rfl

theorem gives_bind (h : Gives (x >>= f) b) : ∃ a, Gives x a ∧ Gives (f a) b := by
  obtain ⟨made, after, h⟩ := h
  change (x made >>= fun p => f p.1 p.2) = _ at h
  cases hx : x made with
  | error e => simp [hx, bind, Except.bind] at h
  | ok p =>
    rw [hx] at h
    exact ⟨p.1, ⟨made, p.2, hx⟩, p.2, after, h⟩

theorem gives_map {g : α → β} (h : Gives (g <$> x) b) : ∃ a, Gives x a ∧ b = g a := by
  rw [← bind_pure_comp] at h
  obtain ⟨a, ha, hb⟩ := gives_bind h
  exact ⟨a, ha, gives_pure hb⟩

theorem gives_of_run' {made : Nat} (h : x.run' made = .ok a) : Gives x a := by
  unfold StateT.run' at h
  cases hx : x made with
  | error e => simp [hx, Functor.map, Except.map] at h
  | ok p =>
    simp only [hx, Functor.map, Except.map, Except.ok.injEq] at h
    exact ⟨made, p.2, by rw [hx, ← h]⟩

theorem not_gives_throw {e : ReadError} : ¬ Gives (throw e) a := by
  rintro ⟨made, after, h⟩
  cases h

theorem gives_mapM {as : List α} {bs : List β} (h : Gives (as.mapM f) bs) :
    List.Forall₂ (fun a b => Gives (f a) b) as bs := by
  induction as generalizing bs with
  | nil =>
    rw [List.mapM_nil] at h
    rw [gives_pure h]
    exact .nil
  | cons a as ih =>
    rw [List.mapM_cons] at h
    obtain ⟨b, hb, h⟩ := gives_bind h
    obtain ⟨bs', hbs, h⟩ := gives_bind h
    rw [gives_pure h]
    exact .cons hb (ih hbs)

end Distributing

namespace TypeExpr

open Distributing

theorem spend_apply (n made : Nat) : spend n made =
    if made + n ≤ maxAlternatives then .ok ((), made + n)
    else .error (.tooManyAlternatives maxAlternatives) := by
  change (if made + n ≤ maxAlternatives then set (made + n)
    else throw (.tooManyAlternatives maxAlternatives) : Distributing Unit) made = _
  split <;> rfl

theorem gives_descend {n k : Nat} (h : Gives (descend n) k) : n = k + 1 := by
  cases n with
  | zero => exact absurd h not_gives_throw
  | succ n => rw [gives_pure h]

theorem forall_mem_of_forall₂ {α β : Type} {r : α → β → Prop} {p : β → Prop} {as : List α}
    {bs : List β} (h : List.Forall₂ r as bs) (hp : ∀ a ∈ as, ∀ b, r a b → p b) : ∀ b ∈ bs, p b := by
  induction h with
  | nil => simp
  | cons hab _ ih =>
    rw [List.forall_mem_cons] at hp ⊢
    exact ⟨hp.1 _ hab, ih hp.2⟩

theorem gives_distribute {meet : TypeExpr → TypeExpr → Distributing TypeExpr} {l r m : TypeExpr}
    (h : Gives (distribute meet l r) m) :
    l.union? = none ∧ r.union? = none ∧ Gives (meet l r) m ∨
      ∃ ms, List.Forall₂ (fun p m => Gives (meet p.1 p.2) m) (alternativePairs l r) ms ∧
        unionOf ms = some m := by
  unfold distribute at h
  split at h
  · next a b ha hb =>
    exact .inl ⟨union?_eq_none_of_alternatives ha, union?_eq_none_of_alternatives hb, h⟩
  · obtain ⟨_, -, h⟩ := gives_bind h
    obtain ⟨ms, hms, h⟩ := gives_bind h
    have hms := gives_mapM hms
    refine .inr ⟨ms, hms, ?_⟩
    rw [gives_pure h]
    cases ms with
    | nil =>
      obtain ⟨a, ha⟩ := List.exists_mem_of_ne_nil _ (alternatives_ne_nil l)
      obtain ⟨b, hb⟩ := List.exists_mem_of_ne_nil _ (alternatives_ne_nil r)
      have := List.forall₂_nil_right_iff.1 hms
      exact absurd this (List.ne_nil_of_mem (mem_alternativePairs.2 ⟨ha, hb⟩ : (a, b) ∈ _))
    | cons => rfl

inductive MergesField (p : TypeExpr → TypeExpr → TypeExpr → Prop) (g : Field TypeExpr) :
    List (Field TypeExpr) → List (Field TypeExpr) → Prop
  | last : MergesField p g [] [g]
  | here {f fs t} (hname : f.name = g.name) (ht : p f.type g.type t) :
    MergesField p g (f :: fs) (⟨f.name, f.optional && g.optional, t⟩ :: fs)
  | there {f fs hs} (hname : f.name ≠ g.name) (h : MergesField p g fs hs) :
    MergesField p g (f :: fs) (f :: hs)

inductive Merges (p : TypeExpr → TypeExpr → TypeExpr → Prop) :
    List (Field TypeExpr) → List (Field TypeExpr) → List (Field TypeExpr) → Prop
  | nil {fs} : Merges p fs [] fs
  | cons {g fs fs' gs hs} (hg : MergesField p g fs fs') (h : Merges p fs' gs hs) :
    Merges p fs (g :: gs) hs

theorem MergesField.imp {p q : TypeExpr → TypeExpr → TypeExpr → Prop}
    (hpq : ∀ l r m, p l r m → q l r m) {g : Field TypeExpr} {fs hs : List (Field TypeExpr)}
    (h : MergesField p g fs hs) : MergesField q g fs hs := by
  induction h with
  | last => exact .last
  | here hname ht => exact .here hname (hpq _ _ _ ht)
  | there hname _ ih => exact .there hname ih

theorem Merges.imp {p q : TypeExpr → TypeExpr → TypeExpr → Prop}
    (hpq : ∀ l r m, p l r m → q l r m) {fs gs hs : List (Field TypeExpr)} (h : Merges p fs gs hs) :
    Merges q fs gs hs := by
  induction h with
  | nil => exact .nil
  | cons hg _ ih => exact .cons (hg.imp hpq) ih

variable {meet' : TypeExpr → TypeExpr → Distributing TypeExpr}
  {p : TypeExpr → TypeExpr → TypeExpr → Prop}

theorem mergesField_of_gives (hmeet : ∀ l r m, Gives (meet' l r) m → p l r m) {g : Field TypeExpr}
    {fs hs : List (Field TypeExpr)} (h : Gives (mergeField meet' g fs) hs) :
    MergesField p g fs hs := by
  induction fs generalizing hs with
  | nil =>
    rw [gives_pure h]
    exact .last
  | cons f fs ih =>
    rw [mergeField] at h
    split at h
    · next hname =>
      obtain ⟨t, ht, h⟩ := gives_bind h
      rw [gives_pure h]
      exact .here hname (hmeet _ _ _ ht)
    · next hname =>
      obtain ⟨hs', hhs, h⟩ := gives_bind h
      rw [gives_pure h]
      exact .there hname (ih hhs)

theorem merges_of_gives (hmeet : ∀ l r m, Gives (meet' l r) m → p l r m)
    {fs gs hs : List (Field TypeExpr)} (h : Gives (mergeFields meet' fs gs) hs) :
    Merges p fs gs hs := by
  unfold mergeFields at h
  induction gs generalizing fs with
  | nil =>
    rw [List.foldlM_nil] at h
    rw [gives_pure h]
    exact .nil
  | cons g gs ih =>
    rw [List.foldlM_cons] at h
    obtain ⟨fs', hfs, h⟩ := gives_bind h
    exact .cons (mergesField_of_gives hmeet hfs) (ih h)

theorem gives_meetAlternatives
    {merge : List (Field TypeExpr) → List (Field TypeExpr) → Distributing (List (Field TypeExpr))}
    {l r m : TypeExpr} (h : Gives (meetAlternatives merge l r) m) :
    (l.fields? = none ∨ r.fields? = none) ∧ m = .and l r ∨
      ∃ fs gs hs, l.fields? = some fs ∧ r.fields? = some gs ∧ Gives (merge fs gs) hs ∧
        m = .object hs := by
  unfold meetAlternatives at h
  split at h
  · next fs gs hfs hgs =>
    obtain ⟨hs, hhs, hm⟩ := gives_map h
    exact .inr ⟨fs, gs, hs, hfs, hgs, hhs, hm⟩
  · next hne =>
    refine .inl ⟨?_, gives_pure h⟩
    cases hl : l.fields? with
    | none => exact .inl rfl
    | some fs =>
      cases hr : r.fields? with
      | none => exact .inr rfl
      | some gs => exact absurd hr (hne fs gs hl)

/--
A relation between two types and their intersection that holds when neither is a union and they are
kept side by side or merged, and that goes over from alternatives to unions.
-/
structure MeetClosed (p : TypeExpr → TypeExpr → TypeExpr → Prop) : Prop where
  plain : ∀ {l r}, l.union? = none → r.union? = none → (l.fields? = none ∨ r.fields? = none) →
    p l r (.and l r)
  merged : ∀ {l r fs gs hs}, l.fields? = some fs → r.fields? = some gs → Merges p fs gs hs →
    p l r (.object hs)
  distributed : ∀ {l r ms m}, List.Forall₂ (fun q m => p q.1 q.2 m) (alternativePairs l r) ms →
    unionOf ms = some m → p l r m

theorem MeetClosed.of_distribute (hp : MeetClosed p)
    {merge : List (Field TypeExpr) → List (Field TypeExpr) → Distributing (List (Field TypeExpr))}
    (hmerge : ∀ fs gs hs, Gives (merge fs gs) hs → Merges p fs gs hs) {l r m : TypeExpr}
    (h : Gives (distribute (meetAlternatives merge) l r) m) : p l r m := by
  have hstep {l r m : TypeExpr} (hl : l.union? = none) (hr : r.union? = none)
      (h : Gives (meetAlternatives merge l r) m) : p l r m := by
    rcases gives_meetAlternatives h with ⟨hne, rfl⟩ | ⟨fs, gs, hs, hfs, hgs, hhs, rfl⟩
    · exact hp.plain hl hr hne
    · exact hp.merged hfs hgs (hmerge fs gs hs hhs)
  rcases gives_distribute h with ⟨hl, hr, h⟩ | ⟨ms, hms, hm⟩
  · exact hstep hl hr h
  · have hmem := List.forall₂_and_left _ _ |>.2 ⟨fun _ => mem_alternativePairs.1, hms⟩
    refine hp.distributed (hmem.imp fun q m hq => ?_) hm
    exact hstep (union?_eq_none_of_mem_alternatives hq.1.1)
      (union?_eq_none_of_mem_alternatives hq.1.2) hq.2

/-- Induction over the intersections that one intersection consists of. -/
theorem MeetClosed.of_gives (hp : MeetClosed p) {n : Nat} {l r m : TypeExpr}
    (h : Gives (meet n l r) m) : p l r m := by
  -- shared fields of merged objects are intersected with one level less
  induction n generalizing l r m with
  | zero => exact hp.of_distribute (fun _ _ _ h => absurd h not_gives_throw) h
  | succ n ih => exact hp.of_distribute (fun _ _ _ h => merges_of_gives (fun _ _ _ => ih) h) h

theorem gives_normalizeFields {levels : Nat} {fs gs : List (Field TypeExpr)}
    (h : Gives (normalizeFields levels fs) gs) :
    List.Forall₂ (fun f g => f.name = g.name ∧ f.optional = g.optional ∧
      Gives (normalizeWithin levels f.type) g.type) fs gs := by
  induction fs generalizing gs with
  | nil =>
    rw [normalizeFields] at h
    rw [gives_pure h]
    exact .nil
  | cons f fs ih =>
    rw [normalizeFields] at h
    obtain ⟨t, ht, h⟩ := gives_bind h
    obtain ⟨gs', hgs, h⟩ := gives_bind h
    rw [gives_pure h]
    exact .cons ⟨rfl, rfl, ht⟩ (ih hgs)

/-- Induction over an expression together with its normal form. -/
theorem normalizeWithin_induction {q : TypeExpr → TypeExpr → Prop}
    (leaf : ∀ l, q (.leaf l) (.leaf l))
    (object : ∀ fs gs, List.Forall₂ (fun f g => f.name = g.name ∧ f.optional = g.optional ∧
      q f.type g.type) fs gs → q (.object fs) (.object gs))
    (array : ∀ t u, q t u → q (.array t) (.array u))
    (and : ∀ n l r l' r' m, q l l' → q r r' → Gives (meet n l' r') m → q (.and l r) m)
    (or : ∀ l r l' r', q l l' → q r r' → q (.or l r) (.or l' r'))
    (group : ∀ t u, q t u → q (.group t) (.group u)) {levels : Nat} {t u : TypeExpr}
    (h : Gives (normalizeWithin levels t) u) : q t u := by
  induction t generalizing levels u with
  | leaf l =>
    rw [normalizeWithin] at h
    rw [gives_pure h]
    exact leaf l
  | object fs ih =>
    rw [normalizeWithin] at h
    obtain ⟨_, -, h⟩ := gives_bind h
    obtain ⟨gs, hgs, h⟩ := gives_bind h
    rw [gives_pure h]
    have hmem := List.forall₂_and_left _ _ |>.2 ⟨fun f hf => hf, gives_normalizeFields hgs⟩
    exact object fs gs (hmem.imp fun f g hf => ⟨hf.2.1, hf.2.2.1, ih f hf.1 hf.2.2.2⟩)
  | array item ih =>
    rw [normalizeWithin] at h
    obtain ⟨_, -, h⟩ := gives_bind h
    obtain ⟨u, hu, h⟩ := gives_bind h
    rw [gives_pure h]
    exact array item u (ih hu)
  | and l r ihl ihr =>
    rw [normalizeWithin] at h
    obtain ⟨l', hl, h⟩ := gives_bind h
    obtain ⟨r', hr, h⟩ := gives_bind h
    exact and levels l r l' r' u (ihl hl) (ihr hr) h
  | or l r ihl ihr =>
    rw [normalizeWithin] at h
    obtain ⟨l', hl, h⟩ := gives_bind h
    obtain ⟨r', hr, h⟩ := gives_bind h
    rw [gives_pure h]
    exact or l r l' r' (ihl hl) (ihr hr)
  | group content ih =>
    rw [normalizeWithin] at h
    obtain ⟨_, -, h⟩ := gives_bind h
    obtain ⟨u, hu, h⟩ := gives_bind h
    rw [gives_pure h]
    exact group content u (ih hu)

theorem gives_of_normalize {t n : TypeExpr} (h : normalize t = .ok n) :
    Gives (normalizeWithin maxLevels t.regroup) n :=
  gives_of_run' h

end TypeExpr

end StructuralTypes
