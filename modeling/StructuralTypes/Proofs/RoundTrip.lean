import StructuralTypes.Proofs.Grammar.ReadExpression
import StructuralTypes.Proofs.Grammar.Written
import StructuralTypes.Proofs.Grouping

namespace StructuralTypes.TypeExpr

/-- The text shown for the type is read as its canonical form, alone and as part of a chain. -/
structure ReadBack (t : TypeExpr) (shown : String) : Prop where
  union : ∀ {rest}, Apart rest →
    Spells (.expression .union t.canonical) (shown.toList ++ rest) rest
  unionAfter : ∀ {l text after next rest}, Apart rest → Spells (.expression .union l) text after →
    Symbol '|' after next → skipBlank next = skipBlank (shown.toList ++ rest) →
      Spells (.expression .union (joinChain .or l t.canonical)) text rest
  intersection : ∀ {rest}, Apart rest → Spells (.expression .intersection t.closed.canonical)
    ((parenthesized t shown).toList ++ rest) rest
  intersectionAfter : ∀ {l text after next rest}, Apart rest →
    Spells (.expression .intersection l) text after → Symbol '&' after next →
      skipBlank next = skipBlank ((parenthesized t shown).toList ++ rest) →
        Spells (.expression .intersection (joinChain .and l t.closed.canonical)) text rest

variable {l r t : TypeExpr} {shown left right : String}

/-- A type that is no union is read back when it is as part of a chain of `&`. -/
theorem ReadBack.of_intersection (hclosed : t.closed = t) (hshown : parenthesized t shown = shown)
    (hor : t.canonical.chain .or = [t.canonical])
    (h : ∀ {rest}, Apart rest →
      Spells (.expression .intersection t.canonical) (shown.toList ++ rest) rest)
    (hafter : ∀ {l text after next rest}, Apart rest →
      Spells (.expression .intersection l) text after → Symbol '&' after next →
        skipBlank next = skipBlank (shown.toList ++ rest) →
          Spells (.expression .intersection (joinChain .and l t.canonical)) text rest) :
    ReadBack t shown where
  union hrest := .union (h hrest)
  unionAfter hrest hl hop hnext := by
    rw [joinChain_of_chain hor]
    exact .or hl hop ((h hrest).congr hnext.symm)
  intersection := by rwa [hclosed, hshown]
  intersectionAfter := by rwa [hclosed, hshown]

theorem ReadBack.of_operand (hclosed : t.closed = t) (hshown : parenthesized t shown = shown)
    (hand : t.canonical.chain .and = [t.canonical]) (hor : t.canonical.chain .or = [t.canonical])
    (h : ∀ {rest}, Apart rest →
      Spells (.expression .operand t.canonical) (shown.toList ++ rest) rest) :
    ReadBack t shown := by
  refine .of_intersection hclosed hshown hor (fun hrest => .intersection (h hrest)) ?_
  intro l text after next rest hrest hl hop hnext
  rw [joinChain_of_chain hand]
  exact .and hl hop ((h hrest).congr hnext.symm)

theorem ReadBack.and (hl : ReadBack l left) (hr : ReadBack r right) :
    ReadBack (.and l r) (parenthesized l left ++ " & " ++ parenthesized r right) := by
  have htext (rest : List Char) :
      (parenthesized l left ++ " & " ++ parenthesized r right).toList ++ rest =
        (parenthesized l left).toList ++
          ' ' :: '&' :: ' ' :: ((parenthesized r right).toList ++ rest) := by simp
  refine .of_intersection rfl rfl ?_ ?_ ?_
  · rw [canonical_and]
    exact chain_joinChain_of_ne nofun
  · intro rest hrest
    rw [htext, canonical_and]
    exact hr.intersectionAfter hrest (hl.intersection (apart_cons (by decide)))
      (symbol_space_cons (by decide)) (skipBlank_blank_cons (by decide))
  · intro x text after next rest hrest hx hop hnext
    rw [htext] at hnext
    rw [canonical_and, joinChain_joinChain]
    exact hr.intersectionAfter hrest (hl.intersectionAfter (apart_cons (by decide)) hx hop hnext)
      (symbol_space_cons (by decide)) (skipBlank_blank_cons (by decide))

theorem ReadBack.or (hl : ReadBack l left) (hr : ReadBack r right) :
    ReadBack (.or l r) (left ++ " | " ++ right) := by
  have htext (rest : List Char) : (left ++ " | " ++ right).toList ++ rest =
      left.toList ++ ' ' :: '|' :: ' ' :: (right.toList ++ rest) := by simp
  have hunion {rest : List Char} (hrest : Apart rest) :
      Spells (.expression .union (TypeExpr.or l r).canonical)
        ((left ++ " | " ++ right).toList ++ rest) rest := by
    rw [htext, canonical_or]
    exact hr.unionAfter hrest (hl.union (apart_cons (by decide)))
      (symbol_space_cons (by decide)) (skipBlank_blank_cons (by decide))
  have hgroup {rest : List Char} : Spells (.expression .operand (TypeExpr.or l r).closed.canonical)
      ((parenthesized (TypeExpr.or l r) (left ++ " | " ++ right)).toList ++ rest) rest := by
    have hshown : (parenthesized (TypeExpr.or l r) (left ++ " | " ++ right)).toList ++ rest =
        '(' :: ((left ++ " | " ++ right).toList ++ ')' :: rest) := by simp [parenthesized]
    rw [hshown]
    exact .group (symbol_cons (by decide)) (hunion (apart_cons (by decide)))
      (symbol_cons (by decide))
  refine ⟨hunion, ?_, fun _ => .intersection hgroup, ?_⟩
  · intro x text after next rest hrest hx hop hnext
    rw [htext] at hnext
    rw [canonical_or, joinChain_joinChain]
    exact hr.unionAfter hrest (hl.unionAfter (apart_cons (by decide)) hx hop hnext)
      (symbol_space_cons (by decide)) (skipBlank_blank_cons (by decide))
  · intro x text after next rest _ hx hop hnext
    rw [joinChain_of_chain rfl]
    exact .and hx hop (hgroup.congr hnext.symm)

variable {layout : Layout} {level : Nat} {rest : List Char}

theorem spells_renderField {f : Field TypeExpr} {fields : List (Field TypeExpr)}
    {after next : List Char} (h : ReadBack f.type (f.type.render layout level))
    (hafter : Apart after) (hseparator : Separator after next)
    (hfields : Spells (.fields fields) next rest) :
    Spells (.fields ({ f with type := f.type.canonical } :: fields))
      ((renderField layout level f).toList ++ after) rest := by
  obtain ⟨name, optional, type⟩ := f
  have htype : Spells (.expression .union type.canonical)
      (' ' :: ((type.render layout level).toList ++ after)) after :=
    (h.union hafter).congr (skipBlank_blank_cons (by decide)).symm
  cases optional with
  | true =>
    have htext : (renderField layout level ⟨name, true, type⟩).toList ++ after =
        (layout.gap level).toList ++ ((renderKey name).toList ++
          '?' :: ':' :: ' ' :: ((type.render layout level).toList ++ after)) := by
      simp [renderField]
    rw [htext]
    refine .field ?_ (.present (symbol_cons (by decide))) (symbol_cons (by decide)) htype hseparator
      hfields
    rw [skipBlank_gap]
    exact key_renderKey name (apart_cons (by decide))
  | false =>
    have htext : (renderField layout level ⟨name, false, type⟩).toList ++ after =
        (layout.gap level).toList ++ ((renderKey name).toList ++
          ':' :: ' ' :: ((type.render layout level).toList ++ after)) := by
      simp [renderField]
    rw [htext]
    refine .field ?_ .absent (symbol_cons (by decide)) htype hseparator hfields
    rw [skipBlank_gap]
    exact key_renderKey name (apart_cons (by decide))

theorem spells_renderFields {f : Field TypeExpr} {fields : List (Field TypeExpr)}
    (h : ∀ g ∈ f :: fields, ReadBack g.type (g.type.render layout (level + 1))) :
    Spells (.fields ((f :: fields).map fun g => { g with type := g.type.canonical }))
      ((renderField layout (level + 1) f).toList ++
        ((renderFields layout (level + 1) fields).toList ++
          ((layout.gap level).toList ++ '\x7d' :: rest))) rest := by
  induction fields generalizing f with
  | nil =>
    refine spells_renderField (h f List.mem_cons_self) (apart_gap _ _ _) .absent (.done ?_)
    exact (skipBlank_gap _ _ _).trans (symbol_cons (by decide))
  | cons g fields ih =>
    have htext (tail : List Char) : (renderFields layout (level + 1) (g :: fields)).toList ++ tail =
        ',' :: ((renderField layout (level + 1) g).toList ++
          ((renderFields layout (level + 1) fields).toList ++ tail)) := by
      simp [renderFields]
    rw [htext]
    refine spells_renderField (h f List.mem_cons_self) (apart_cons (by decide))
      (.comma (symbol_cons (by decide))) (ih fun g hg => h g (List.mem_cons_of_mem _ hg))

theorem ReadBack.array (h : ReadBack t shown) : ReadBack (.array t) ("Array<" ++ shown ++ ">") := by
  have htext (rest : List Char) : ("Array<" ++ shown ++ ">").toList ++ rest =
      "Array".toList ++ '<' :: (shown.toList ++ '>' :: rest) := by
    simp
  have hname (rest : List Char) : Lexeme.Longest Lexeme.isWordChar "Array".toList
      (skipBlank ("Array".toList ++ '<' :: rest)) ('<' :: rest) := by
    have hword : ∀ c ∈ "Array".toList, Lexeme.isWordChar c :=
      List.all_eq_true.1 (by decide +kernel)
    have hkey := fun c => Lexeme.isKeyChar_of_isWordChar (c := c)
    rw [skipBlank_append hkey (by simp) hword]
    exact (apart_cons (by decide)).longest hkey (by simp) hword
  refine .of_operand rfl rfl rfl rfl fun hrest => .leaf ?_
  rw [htext]
  exact .array (hname _) (symbol_cons (by decide)) (h.union (apart_cons (by decide)))
    (symbol_cons (by decide))

theorem ReadBack.group (h : ReadBack t shown) : ReadBack (.group t) ("(" ++ shown ++ ")") := by
  have htext (rest : List Char) :
      ("(" ++ shown ++ ")").toList ++ rest = '(' :: (shown.toList ++ ')' :: rest) := by
    simp
  refine .of_operand rfl rfl rfl rfl fun hrest => ?_
  rw [htext]
  exact .group (symbol_cons (by decide)) (h.union (apart_cons (by decide)))
    (symbol_cons (by decide))

theorem readBack_object {fields : List (Field TypeExpr)}
    (h : ∀ f ∈ fields, ReadBack f.type (f.type.render layout (level + 1))) :
    ReadBack (.object fields) ((object fields).render layout level) := by
  refine .of_operand rfl rfl (by simp [chain]) (by simp [chain]) fun hrest => .leaf ?_
  rw [canonical_object]
  cases fields with
  | nil =>
    have htext (rest : List Char) : ((object []).render layout level).toList ++ rest =
        '\x7b' :: '\x7d' :: rest := by
      simp [render]
    rw [htext]
    exact .object (symbol_cons (by decide)) (.done (symbol_cons (by decide)))
  | cons f fields =>
    have htext (rest : List Char) : ((object (f :: fields)).render layout level).toList ++ rest =
        '\x7b' :: ((renderField layout (level + 1) f).toList ++
          ((renderFields layout (level + 1) fields).toList ++
            ((layout.gap level).toList ++ '\x7d' :: rest))) := by
      simp [render]
    rw [htext]
    exact .object (symbol_cons (by decide)) (spells_renderFields h)

theorem readBack_render (h : t.PrintableLeaves) : ReadBack t (t.render layout level) := by
  -- an operand is read back in whatever chain it stands, so the induction needs all of `ReadBack`
  induction t generalizing level with
  | leaf k =>
    refine .of_operand rfl rfl rfl rfl fun hrest => .leaf ?_
    exact spells_leaf_render (printableLeaves_leaf.1 h) hrest
  | object fields ih =>
    rw [printableLeaves_object] at h
    exact readBack_object fun f hf => ih f hf (h f hf)
  | array item ih =>
    rw [printableLeaves_array] at h
    exact (ih h).array
  | and l r ihl ihr =>
    rw [printableLeaves_and] at h
    exact (ihl h.1).and (ihr h.2)
  | or l r ihl ihr =>
    rw [printableLeaves_or] at h
    exact (ihl h.1).or (ihr h.2)
  | group content ih =>
    rw [printableLeaves_group] at h
    exact (ih h).group

def IsRead : Phrase → Prop
  | .expression .operand t | .leaf t =>
    t.canonical = t ∧ t.closed = t ∧ t.chain .and = [t] ∧ t.chain .or = [t]
  | .expression .intersection t => t.canonical = t ∧ t.closed = t ∧ t.chain .or = [t]
  | .expression .union t => t.canonical = t
  | .fields fields => ∀ f ∈ fields, f.type.canonical = f.type

theorem isRead_of_spells {phrase : Phrase} {text rest : List Char} (h : Spells phrase text rest) :
    IsRead phrase := by
  induction h with
  | quoted | numeral | word => exact ⟨rfl, rfl, rfl, rfl⟩
  | array hname hopen hitem hclose ih => exact ⟨by rw [canonical_array, ih], rfl, rfl, rfl⟩
  | object hopen h ih =>
    refine ⟨?_, rfl, by simp [chain], by simp [chain]⟩
    rw [canonical_object]
    refine congrArg object ((List.map_congr_left fun f hf => ?_).trans (List.map_id _))
    rw [ih f hf, id]
  | done => simp [IsRead]
  | field hname hmark hcolon htype hseparator h iht ih => exact List.forall_mem_cons.2 ⟨iht, ih⟩
  | leaf h ih => exact ih
  | group hopen h hclose ih => exact ⟨by rw [canonical_group, ih], rfl, rfl, rfl⟩
  | intersection h ih => exact ⟨ih.1, ih.2.1, ih.2.2.2⟩
  | and hl hop hr ihl ihr =>
    refine ⟨?_, rfl, rfl⟩
    rw [canonical_and, ihl.2.1, ihl.1, ihr.2.1, ihr.1, joinChain_of_chain ihr.2.2.1,
      Connective.join_and]
  | union h ih => exact ih.1
  | or hl hop hr ihl ihr =>
    refine Eq.trans canonical_or ?_
    rw [ihl, ihr.1, joinChain_of_chain ihr.2.2, Connective.join_or]

theorem printableLeaves_of_spells {phrase : Phrase} {text rest : List Char}
    (h : Spells phrase text rest) : match phrase with
      | .expression _ t | .leaf t => t.PrintableLeaves
      | .fields fields => ∀ f ∈ fields, f.type.PrintableLeaves := by
  induction h with
  | quoted h => simp [Leaf.Printable]
  | numeral h =>
    obtain ⟨_, _, _, -, -, hcoefficient, -⟩ := h
    simp [Leaf.Printable, hcoefficient]
  | word h hname =>
    exact printableLeaves_leaf.2 (Leaf.printable_ofWord (by simpa using h.ne_nil) h.all hname)
  | array hname hopen hitem hclose ih => exact printableLeaves_array.2 ih
  | object hopen h ih => exact printableLeaves_object.2 ih
  | done => simp
  | field hname hmark hcolon htype hseparator h iht ih => exact List.forall_mem_cons.2 ⟨iht, ih⟩
  | leaf h ih => exact ih
  | group hopen h hclose ih => exact printableLeaves_group.2 ih
  | intersection h ih => exact ih
  | and hl hop hr ihl ihr => exact printableLeaves_and.2 ⟨ihl, ihr⟩
  | union h ih => exact ih
  | or hl hop hr ihl ihr => exact printableLeaves_or.2 ⟨ihl, ihr⟩

theorem parse_text (h : t.Printable) (hlevels : 1 + t.canonical.levels 0 ≤ maxDepth)
    (layout : Layout) : parse (t.text layout) = .ok (t.canonical, "") := by
  have hspells : Spells (.expression .union t.canonical) ((t.text layout).toList ++ []) [] :=
    (readBack_render h.2).union (by simp [Apart])
  rw [List.append_nil] at hspells
  exact parse_eq_ok.2 ⟨[], hspells, by simp [Ends, skipBlank],
    ⟨distinctNames_canonical.2 h.1, hlevels⟩, by simp [skipBlank]⟩

/-- What is read can be printed, is its own canonical form and nests as deep as a text may. -/
theorem of_parse {text rest : String} (h : parse text = .ok (t, rest)) :
    t.Printable ∧ t.canonical = t ∧ 1 + t.levels 0 ≤ maxDepth := by
  obtain ⟨_, hspells, -, hallowed, -⟩ := parse_eq_ok.1 h
  exact ⟨⟨hallowed.1, printableLeaves_of_spells hspells⟩, isRead_of_spells hspells, hallowed.2⟩

/-- Reading undoes printing: the text of a type is read as its canonical form, which a type that was
read is already. -/
theorem parse_text_eq_ok :
    (∀ t : TypeExpr, t.Printable → 1 + t.canonical.levels 0 ≤ maxDepth →
      ∀ layout, parse (t.text layout) = .ok (t.canonical, "")) ∧
    ∀ text t rest, parse text = .ok (t, rest) → ∀ layout, parse (t.text layout) = .ok (t, "") := by
  refine ⟨fun t => parse_text, fun text t rest h layout => ?_⟩
  obtain ⟨hprintable, hcanonical, hlevels⟩ := of_parse h
  have := parse_text hprintable (by rwa [hcanonical]) layout
  rwa [hcanonical] at this

/-- Below, `(x | 1.50) & { "a b"?: y }` is written for a union and two operands grouped
otherwise. -/
theorem parse_text_union_in_chain :
    let u := or (.leaf (.word "x")) (.leaf (.numeral ⟨150, 2, by decide, by decide⟩))
    let o := object [⟨"a b", true, .leaf (.word "y")⟩]
    let t := and u (.and (.leaf .string) o)
    let n := and (.and (.group u) (.leaf .string)) o
    t.Printable ∧ 1 + t.canonical.levels 0 ≤ maxDepth ∧ t.canonical = n ∧
      parse (t.text .compact) = .ok (n, "") ∧ parse (n.text .pretty) = .ok (n, "") := by
  intro u o t n
  have hprintable : t.Printable := by
    simp [t, u, o, Printable, Leaf.Printable, Leaf.keywords]
    decide
  have hread := parse_text_eq_ok.1 t hprintable (by decide) .compact
  exact ⟨hprintable, by decide, rfl, hread, parse_text_eq_ok.2 _ _ _ hread .pretty⟩

end StructuralTypes.TypeExpr
