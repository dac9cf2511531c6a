import Mathlib.Data.List.Forall2
import StructuralTypes.Check.Leaf
import StructuralTypes.Proofs.Subterm

namespace StructuralTypes.TypeExpr

def isSettled : TypeExpr → Bool
  | .leaf _ | .object _ | .array _ => true
  | _ => false

def isObject : TypeExpr → Bool
  | .object _ => true
  | _ => false

def named (name : String) (fields : List (Field TypeExpr)) : List (Field TypeExpr) :=
  fields.filter (·.name = name)

/-- The value is accepted by the intersection of the types. -/
inductive AcceptsAll (o : Options) : List TypeExpr → Value → Prop
  | group {ts us t v} (h : AcceptsAll o (ts ++ t :: us) v) : AcceptsAll o (ts ++ .group t :: us) v
  | and {ts us l r v} (h : AcceptsAll o (ts ++ l :: r :: us) v) :
    AcceptsAll o (ts ++ .and l r :: us) v
  | orLeft {ts us l r v} (h : AcceptsAll o (ts ++ l :: us) v) :
    AcceptsAll o (ts ++ .or l r :: us) v
  | orRight {ts us l r v} (h : AcceptsAll o (ts ++ r :: us) v) :
    AcceptsAll o (ts ++ .or l r :: us) v
  | leaf {l v} (h : l.accepts o v) : AcceptsAll o [.leaf l] v
  | array {item vs} (h : ∀ v ∈ vs, AcceptsAll o [item] v) : AcceptsAll o [.array item] (.array vs)
  | objects {shapes : List (List (Field TypeExpr))} {entries : List (String × Value)}
    (closed : ∀ e ∈ entries, ∃ fields ∈ shapes, ∃ f ∈ fields, f.name = e.1)
    (absent : ∀ fields ∈ shapes, ∀ f ∈ fields, entries.lookup f.name = none → f.optional)
    (present : ∀ fields ∈ shapes, ∀ f ∈ fields, ∀ v, entries.lookup f.name = some v →
      AcceptsAll o ((named f.name shapes.flatten).map Field.type) v) :
    AcceptsAll o (shapes.map .object) (.object entries)
  | apart {ts v} (settled : ∀ t ∈ ts, t.isSettled) (mixed : ∃ t ∈ ts, ¬ t.isObject)
    (h : ∀ t ∈ ts, AcceptsAll o [t] v) : AcceptsAll o ts v

/-- What may be left of a type once one side of each union is chosen. -/
def choices : TypeExpr → List (List TypeExpr)
  | .and l r => l.choices.flatMap fun a => r.choices.map (a ++ ·)
  | .or l r => l.choices ++ r.choices
  | .group content => content.choices
  | t => [[t]]

def listChoices : List TypeExpr → List (List TypeExpr)
  | [] => [[]]
  | t :: ts => t.choices.flatMap fun a => (listChoices ts).map (a ++ ·)

theorem mem_choices_and {l r : TypeExpr} {c : List TypeExpr} :
    c ∈ (and l r).choices ↔ ∃ a ∈ l.choices, ∃ b ∈ r.choices, a ++ b = c := by
  simp [choices]

theorem mem_listChoices_cons {t : TypeExpr} {ts c : List TypeExpr} :
    c ∈ listChoices (t :: ts) ↔ ∃ a ∈ t.choices, ∃ b ∈ listChoices ts, a ++ b = c := by
  simp [listChoices]

theorem listChoices_and {l r : TypeExpr} {ts : List TypeExpr} :
    listChoices (.and l r :: ts) = listChoices (l :: r :: ts) := by
  simp [listChoices, choices, List.flatMap_assoc, List.map_flatMap, List.flatMap_map,
    Function.comp_def]

theorem mem_listChoices_append {ts us c : List TypeExpr} :
    c ∈ listChoices (ts ++ us) ↔ ∃ a ∈ listChoices ts, ∃ b ∈ listChoices us, a ++ b = c := by
  induction ts generalizing c with
  | nil => simp [listChoices]
  | cons t ts ih =>
    simp only [List.cons_append, mem_listChoices_cons, ih]
    constructor
    · rintro ⟨a, ha, _, ⟨b, hb, d, hd, rfl⟩, rfl⟩
      exact ⟨a ++ b, ⟨a, ha, b, hb, rfl⟩, d, hd, List.append_assoc ..⟩
    · rintro ⟨_, ⟨a, ha, b, hb, rfl⟩, d, hd, rfl⟩
      exact ⟨a, ha, b ++ d, ⟨b, hb, d, hd, rfl⟩, (List.append_assoc ..).symm⟩

theorem mem_listChoices_mono {t u : TypeExpr} {ts us c : List TypeExpr}
    (h : ∀ a ∈ t.choices, a ∈ u.choices) (hc : c ∈ listChoices (ts ++ t :: us)) :
    c ∈ listChoices (ts ++ u :: us) := by
  simp only [mem_listChoices_append, mem_listChoices_cons] at hc ⊢
  obtain ⟨a, ha, _, ⟨b, hb, hd⟩, rfl⟩ := hc
  exact ⟨a, ha, _, ⟨b, h b hb, hd⟩, rfl⟩

theorem isSettled_of_mem_choices {t : TypeExpr} {c : List TypeExpr} (hc : c ∈ t.choices) :
    ∀ u ∈ c, u.isSettled := by
  induction t generalizing c with
  | leaf | object | array => simp_all [choices, isSettled]
  | and l r ihl ihr =>
    obtain ⟨a, ha, b, hb, rfl⟩ := mem_choices_and.1 hc
    exact fun u hu => (List.mem_append.1 hu).elim (ihl ha u) (ihr hb u)
  | or l r ihl ihr => exact (List.mem_append.1 hc).elim ihl ihr
  | group content ih => exact ih hc

theorem isSettled_of_mem_listChoices {ts c : List TypeExpr} (hc : c ∈ listChoices ts) :
    ∀ u ∈ c, u.isSettled := by
  induction ts generalizing c with
  | nil => simp_all [listChoices]
  | cons t ts ih =>
    obtain ⟨a, ha, b, hb, rfl⟩ := mem_listChoices_cons.1 hc
    exact fun u hu => (List.mem_append.1 hu).elim (isSettled_of_mem_choices ha u) (ih hb u)

theorem choices_of_isSettled {t : TypeExpr} (h : t.isSettled) : t.choices = [[t]] := by
  cases t <;> first | rfl | simp [isSettled] at h

theorem listChoices_of_isSettled {ts : List TypeExpr} (h : ∀ t ∈ ts, t.isSettled) :
    listChoices ts = [ts] := by
  induction ts with
  | nil => rfl
  | cons t ts ih =>
    rw [List.forall_mem_cons] at h
    simp [listChoices, choices_of_isSettled h.1, ih h.2]

variable {o : Options} {ts us : List TypeExpr} {v : Value}

theorem AcceptsAll.of_mem_choices {t : TypeExpr} {a : List TypeExpr} (ha : a ∈ t.choices)
    (h : AcceptsAll o (ts ++ a ++ us) v) : AcceptsAll o (ts ++ t :: us) v := by
  induction t generalizing a ts us with
  | leaf | object | array => simp_all [choices]
  | and l r ihl ihr =>
    obtain ⟨x, hx, y, hy, rfl⟩ := mem_choices_and.1 ha
    have hr : AcceptsAll o ((ts ++ x) ++ r :: us) v := ihr hy (by simpa using h)
    exact .and (ihl hx (by simpa using hr))
  | or l r ihl ihr =>
    rcases List.mem_append.1 ha with hl | hr
    · exact .orLeft (ihl hl h)
    · exact .orRight (ihr hr h)
  | group content ih => exact .group (ih ha h)

theorem AcceptsAll.of_mem_listChoices {ws c : List TypeExpr} (hc : c ∈ listChoices us)
    (h : AcceptsAll o (ts ++ c ++ ws) v) : AcceptsAll o (ts ++ us ++ ws) v := by
  induction us generalizing ts c with
  | nil => simp_all [listChoices]
  | cons u us ih =>
    obtain ⟨a, ha, b, hb, rfl⟩ := mem_listChoices_cons.1 hc
    have hu : AcceptsAll o ((ts ++ a) ++ us ++ ws) v := ih hb (by simpa using h)
    simpa using of_mem_choices ha (by simpa using hu)

theorem isSettled_of_mem_objects {shapes : List (List (Field TypeExpr))} :
    ∀ t ∈ shapes.map TypeExpr.object, t.isSettled := by
  simp [isSettled]

/-- The intersection of some types is the union of what is left of them under all choices. -/
theorem acceptsAll_iff_exists_choice :
    AcceptsAll o ts v ↔ ∃ c ∈ listChoices ts, AcceptsAll o c v := by
  constructor
  swap
  · rintro ⟨c, hc, h⟩
    have h : AcceptsAll o ([] ++ c ++ []) v := by simpa using h
    simpa using AcceptsAll.of_mem_listChoices hc h
  intro h
  -- the rules take types apart in any order, so each has only to keep the choice
  induction h with
  | group h ih =>
    obtain ⟨c, hc, h⟩ := ih
    exact ⟨c, mem_listChoices_mono (by simp [choices]) hc, h⟩
  | and h ih =>
    obtain ⟨c, hc, h⟩ := ih
    rw [mem_listChoices_append, ← listChoices_and, ← mem_listChoices_append] at hc
    exact ⟨c, hc, h⟩
  | orLeft h ih =>
    obtain ⟨c, hc, h⟩ := ih
    exact ⟨c, mem_listChoices_mono (fun _ => List.mem_append_left _) hc, h⟩
  | orRight h ih =>
    obtain ⟨c, hc, h⟩ := ih
    exact ⟨c, mem_listChoices_mono (fun _ => List.mem_append_right _) hc, h⟩
  | leaf h => exact ⟨_, by simp [listChoices, choices], .leaf h⟩
  | array h => exact ⟨_, by simp [listChoices, choices], .array h⟩
  | objects closed absent present =>
    refine ⟨_, ?_, .objects closed absent present⟩
    rw [listChoices_of_isSettled isSettled_of_mem_objects, List.mem_singleton]
  | apart settled mixed h =>
    refine ⟨_, ?_, .apart settled mixed h⟩
    rw [listChoices_of_isSettled settled, List.mem_singleton]

theorem acceptsAll_group {t : TypeExpr} :
    AcceptsAll o (ts ++ .group t :: us) v ↔ AcceptsAll o (ts ++ t :: us) v := by
  refine ⟨fun h => ?_, .group⟩
  obtain ⟨c, hc, h⟩ := acceptsAll_iff_exists_choice.1 h
  exact acceptsAll_iff_exists_choice.2 ⟨c, mem_listChoices_mono (by simp [choices]) hc, h⟩

theorem acceptsAll_and {l r : TypeExpr} :
    AcceptsAll o (ts ++ .and l r :: us) v ↔ AcceptsAll o (ts ++ l :: r :: us) v := by
  refine ⟨fun h => ?_, .and⟩
  obtain ⟨c, hc, h⟩ := acceptsAll_iff_exists_choice.1 h
  rw [mem_listChoices_append, listChoices_and, ← mem_listChoices_append] at hc
  exact acceptsAll_iff_exists_choice.2 ⟨c, hc, h⟩

theorem acceptsAll_or {l r : TypeExpr} :
    AcceptsAll o (ts ++ .or l r :: us) v ↔
      AcceptsAll o (ts ++ l :: us) v ∨ AcceptsAll o (ts ++ r :: us) v := by
  refine ⟨fun h => ?_, fun h => h.elim .orLeft .orRight⟩
  obtain ⟨c, hc, h⟩ := acceptsAll_iff_exists_choice.1 h
  simp only [mem_listChoices_append, mem_listChoices_cons] at hc
  obtain ⟨a, ha, _, ⟨b, hb, d, hd, rfl⟩, rfl⟩ := hc
  have hside {t : TypeExpr} (hb : b ∈ t.choices) : AcceptsAll o (ts ++ t :: us) v := by
    have htail := mem_listChoices_cons.2 ⟨b, hb, d, hd, rfl⟩
    exact acceptsAll_iff_exists_choice.2 ⟨_, mem_listChoices_append.2 ⟨a, ha, _, htail, rfl⟩, h⟩
  exact (List.mem_append.1 hb).imp hside hside

/-- Only the types around `ms` have to be chosen from. -/
theorem acceptsAll_context {ms : List TypeExpr} :
    AcceptsAll o (ts ++ ms ++ us) v ↔
      ∃ a ∈ listChoices ts, ∃ b ∈ listChoices us, AcceptsAll o (a ++ ms ++ b) v := by
  constructor
  · intro h
    obtain ⟨c, hc, h⟩ := acceptsAll_iff_exists_choice.1 h
    obtain ⟨_, hx, b, hb, rfl⟩ := mem_listChoices_append.1 hc
    obtain ⟨a, ha, m, hm, rfl⟩ := mem_listChoices_append.1 hx
    refine ⟨a, ha, b, hb, acceptsAll_iff_exists_choice.2 ⟨_, ?_, h⟩⟩
    have ha' := listChoices_of_isSettled (isSettled_of_mem_listChoices ha)
    have hb' := listChoices_of_isSettled (isSettled_of_mem_listChoices hb)
    simp only [mem_listChoices_append, ha', hb', List.mem_singleton]
    exact ⟨_, ⟨_, rfl, m, hm, rfl⟩, _, rfl, rfl⟩
  · rintro ⟨a, ha, b, hb, h⟩
    have hus : AcceptsAll o (a ++ ms ++ us ++ []) v := .of_mem_listChoices hb (by simpa using h)
    have hts : AcceptsAll o ([] ++ a ++ (ms ++ us)) v := by simpa using hus
    simpa using AcceptsAll.of_mem_listChoices ha hts

theorem acceptsAll_leaf {l : Leaf} : AcceptsAll o [.leaf l] v ↔ l.accepts o v := by
  refine ⟨fun h => ?_, .leaf⟩
  generalize hts : [TypeExpr.leaf l] = ts at h
  induction h with
  | leaf h => cases hts; exact h
  | apart settled mixed h ih => subst hts; exact ih _ List.mem_cons_self rfl
  | objects => have := congrArg (TypeExpr.leaf l ∈ ·) hts; simp at this
  | _ => simp [List.singleton_eq_append_iff] at hts

theorem acceptsAll_array {item : TypeExpr} :
    AcceptsAll o [.array item] v ↔ ∃ vs, v = .array vs ∧ ∀ w ∈ vs, AcceptsAll o [item] w := by
  refine ⟨fun h => ?_, fun ⟨vs, hv, h⟩ => hv ▸ .array h⟩
  generalize hts : [TypeExpr.array item] = ts at h
  induction h with
  | array h => cases hts; exact ⟨_, rfl, h⟩
  | apart settled mixed h ih => subst hts; exact ih _ List.mem_cons_self rfl
  | objects => have := congrArg (TypeExpr.array item ∈ ·) hts; simp at this
  | _ => simp [List.singleton_eq_append_iff] at hts

theorem acceptsAll_apart (settled : ∀ t ∈ ts, t.isSettled) (mixed : ∃ t ∈ ts, ¬ t.isObject) :
    AcceptsAll o ts v ↔ ∀ t ∈ ts, AcceptsAll o [t] v := by
  refine ⟨fun h => ?_, .apart settled mixed⟩
  cases h with
  | leaf h => simpa using .leaf h
  | array h => simpa using .array h
  | objects => simp [isObject] at mixed
  | apart _ _ h => exact h
  | _ => exact absurd (settled _ (List.mem_append_right _ List.mem_cons_self)) (by simp [isSettled])

def Fits (o : Options) (fields : List (Field TypeExpr)) (entries : List (String × Value)) : Prop :=
  ∀ name, match entries.lookup name with
    | none => ∀ f ∈ named name fields, f.optional
    | some v => named name fields ≠ [] ∧ AcceptsAll o ((named name fields).map Field.type) v

theorem mem_named {name : String} {fields : List (Field TypeExpr)} {f : Field TypeExpr} :
    f ∈ named name fields ↔ f ∈ fields ∧ f.name = name := by
  simp [named]

theorem exists_mem_named_flatten {shapes : List (List (Field TypeExpr))} {name : String} :
    (∃ f, f ∈ named name shapes.flatten) ↔ ∃ fields ∈ shapes, ∃ f ∈ fields, f.name = name := by
  simp only [mem_named, List.mem_flatten]
  constructor
  · rintro ⟨f, ⟨fields, hfields, hf⟩, hname⟩
    exact ⟨fields, hfields, f, hf, hname⟩
  · rintro ⟨fields, hfields, f, hf, hname⟩
    exact ⟨f, ⟨fields, hfields, hf⟩, hname⟩

theorem fits_flatten_iff {shapes : List (List (Field TypeExpr))}
    {entries : List (String × Value)} : Fits o shapes.flatten entries ↔
      (∀ e ∈ entries, ∃ fields ∈ shapes, ∃ f ∈ fields, f.name = e.1) ∧
      (∀ fields ∈ shapes, ∀ f ∈ fields, entries.lookup f.name = none → f.optional) ∧
      ∀ fields ∈ shapes, ∀ f ∈ fields, ∀ v, entries.lookup f.name = some v →
        AcceptsAll o ((named f.name shapes.flatten).map Field.type) v := by
  constructor
  · intro h
    refine ⟨fun e he => ?_, fun fields hfields f hf hnone => ?_, fun fields hfields f hf v hv => ?_⟩
    · have hname := h e.1
      split at hname
      · next hnone => exact absurd (List.lookup_eq_none_iff.1 hnone e he) (by simp)
      · exact exists_mem_named_flatten.1 (List.exists_mem_of_ne_nil _ hname.1)
    · have hname := h f.name
      rw [hnone] at hname
      exact hname f (mem_named.2 ⟨List.mem_flatten_of_mem hfields hf, rfl⟩)
    · have hname := h f.name
      rw [hv] at hname
      exact hname.2
  · rintro ⟨closed, absent, present⟩ name
    split
    · next hnone =>
      intro f hf
      obtain ⟨hmem, rfl⟩ := mem_named.1 hf
      obtain ⟨fields, hfields, hf⟩ := List.mem_flatten.1 hmem
      exact absent fields hfields f hf hnone
    · next v hv =>
      obtain ⟨_, _, hentries, -⟩ := List.lookup_eq_some_iff.1 hv
      obtain ⟨fields, hfields, f, hf, rfl⟩ := closed (name, v) (by simp [hentries])
      obtain ⟨g, hg⟩ := exists_mem_named_flatten.2 ⟨fields, hfields, f, hf, rfl⟩
      exact ⟨List.ne_nil_of_mem hg, present fields hfields f hf v hv⟩

theorem acceptsAll_objects {shapes : List (List (Field TypeExpr))} :
    AcceptsAll o (shapes.map .object) v ↔
      ∃ entries, v = .object entries ∧ Fits o shapes.flatten entries := by
  constructor
  · intro h
    generalize hts : shapes.map TypeExpr.object = ts at h
    have hobject : ∀ t ∈ ts, t.isObject := by
      rw [← hts]
      simp [isObject]
    cases h with
    | leaf | array => simp [isObject] at hobject
    | apart _ mixed =>
      obtain ⟨t, ht, hne⟩ := mixed
      exact absurd (hobject t ht) hne
    | @objects shapes' entries closed absent present =>
      obtain rfl := List.map_injective_iff.2 (fun _ _ => TypeExpr.object.inj) hts
      exact ⟨entries, rfl, fits_flatten_iff.2 ⟨closed, absent, present⟩⟩
    | _ =>
      have := hobject _ (List.mem_append_right _ List.mem_cons_self)
      simp [isObject] at this
  · rintro ⟨entries, rfl, h⟩
    obtain ⟨closed, absent, present⟩ := fits_flatten_iff.1 h
    exact .objects closed absent present

theorem acceptsAll_object {fields : List (Field TypeExpr)} :
    AcceptsAll o [.object fields] v ↔ ∃ entries, v = .object entries ∧ Fits o fields entries := by
  have h : AcceptsAll o ([fields].map .object) v ↔ _ := acceptsAll_objects
  simpa using h

end StructuralTypes.TypeExpr
