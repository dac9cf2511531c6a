import StructuralTypes.Proofs.Grammar.ReadLeaf

namespace StructuralTypes.Reading

variable {leaf : Step TypeExpr} {opened : Nat} {done : List Term} {c d : Cursor}

/-- What reading the next term takes off the text. -/
def Takes (leaf : Step TypeExpr) (opened : Nat) (done : List Term) (c d : Cursor) :
    Option Term → Prop
  | none => d = c.skipBlank ∧ Ends c.rest ∧
      ∀ ch ∈ (StructuralTypes.skipBlank c.rest).head?, stops done ch
  | some .openGroup => Symbol '(' c.rest d.rest ∧ c.depth < maxDepth ∧ d.depth = c.depth + 1
  | some .closeGroup =>
    Symbol ')' c.rest d.rest ∧ d.depth = if opened = 0 then c.depth else c.depth - 1
  | some (.connective .and) => Symbol '&' c.rest d.rest ∧ d.depth = c.depth
  | some (.connective .or) => Symbol '|' c.rest d.rest ∧ d.depth = c.depth
  | some (.operand t) => Ends c.rest ∧ leaf.run c.skipBlank = .ok t d ∧
      ∃ ch ∈ (StructuralTypes.skipBlank c.rest).head?, stops done ch = false

theorem takes_of_term {x : Option Term} (h : term leaf opened done c = .ok x d) :
    Takes leaf opened done c d x := by
  simp only [term] at h
  split at h
  · next hc =>
    cases h
    exact ⟨rfl, ends_of_skipBlank_eq_nil hc, by simp [rest_skipBlank ▸ hc]⟩
  · next hc =>
    split at h <;> cases h
    exact ⟨hc, ‹_›, rfl⟩
  · next hc =>
    cases h
    exact ⟨hc, rfl⟩
  · next hc =>
    cases h
    exact ⟨hc, rfl⟩
  · next hc =>
    cases h
    exact ⟨hc, rfl⟩
  · next ch tail hopen hclose hand hor hc =>
    have hends : Ends c.rest := by
      apply Symbol.ends hc
      intro hmem
      simp only [List.mem_cons, List.not_mem_nil, or_false] at hmem
      exact hmem.elim hopen fun hmem => hmem.elim hclose fun hmem => hmem.elim hand hor
    have hhead : ch ∈ (StructuralTypes.skipBlank c.rest).head? := by
      rw [← rest_skipBlank, hc, List.head?_cons, Option.mem_some]
    split at h
    · next hstops =>
      cases h
      exact ⟨rfl, hends, by simpa [rest_skipBlank ▸ hc] using hstops⟩
    · next hstops =>
      split at h
      · cases h
      · next hleaf =>
        cases h
        exact ⟨hends, hleaf, ch, hhead, by simpa using hstops⟩

theorem term_of_ends {ch : Char} (hch : ch ∈ (StructuralTypes.skipBlank c.rest).head?)
    (hends : Ends c.rest) : term leaf opened done c = if stops done ch then .ok none c.skipBlank
      else match leaf.run c.skipBlank with
        | .error e d => .error e d
        | .ok t d => .ok (some (.operand t)) d := by
  have hne := hends ch hch
  obtain ⟨tail, hc⟩ := List.head?_eq_some_iff.1 hch
  simp only [term]
  split
  · next hc' => cases hc.symm.trans hc'
  · next hc' => cases hc.symm.trans hc'; simp at hne
  · next hc' => cases hc.symm.trans hc'; simp at hne
  · next hc' => cases hc.symm.trans hc'; simp at hne
  · next hc' => cases hc.symm.trans hc'; simp at hne
  · next hc' =>
    cases hc.symm.trans hc'
    rfl

theorem term_of_takes {x : Option Term} (h : Takes leaf opened done c d x) :
    term leaf opened done c = .ok x d := by
  have hsymbol {ch : Char} {rest : List Char} (h : Symbol ch c.rest rest) :
      c.skipBlank.rest = ch :: rest := h
  obtain ⟨rest, depth⟩ := d
  cases x with
  | none =>
    obtain ⟨hd, hends, hstops⟩ := h
    rw [hd]
    cases hc : (StructuralTypes.skipBlank c.rest).head? with
    | none => simp only [term, rest_skipBlank, List.head?_eq_none_iff.1 hc]
    | some ch => rw [term_of_ends hc hends, if_pos (hstops ch hc)]
  | some x =>
    cases x with
    | openGroup =>
      obtain ⟨hc, hdepth, hd⟩ := h
      cases hd
      simp only [term, hsymbol hc, depth_skipBlank, if_pos hdepth]
    | closeGroup =>
      obtain ⟨hc, hd⟩ := h
      cases hd
      simp only [term, hsymbol hc, depth_skipBlank]
      rfl
    | connective op =>
      cases op with
      | and =>
        obtain ⟨hc, hd⟩ := h
        cases hd
        simp only [term, hsymbol hc]
        rfl
      | or =>
        obtain ⟨hc, hd⟩ := h
        cases hd
        simp only [term, hsymbol hc]
        rfl
    | operand t =>
      obtain ⟨hends, ht, ch, hch, hstops⟩ := h
      rw [term_of_ends hch hends, hstops, ht]
      rfl

variable {ts more : List Term} {t : TypeExpr} {level : Level} {low : Nat}

theorem terms_of_takes {x : Term} (h : Takes leaf opened done c d (some x)) :
    terms leaf opened done c = terms leaf (x.openAfter opened) (x :: done) d := by
  rw [terms]
  split
  · next hx => cases (term_of_takes h).symm.trans hx
  · next hx => cases (term_of_takes h).symm.trans hx
  · next hx =>
    cases (term_of_takes h).symm.trans hx
    rfl

theorem terms_of_takes_none (h : Takes leaf opened done c d none) :
    terms leaf opened done c = .ok done.reverse { d with depth := d.depth - opened } := by
  rw [terms]
  split
  · next hx => cases (term_of_takes h).symm.trans hx
  · next hx =>
    cases (term_of_takes h).symm.trans hx
    rfl
  · next hx => cases (term_of_takes h).symm.trans hx

theorem exists_append_of_terms (h : terms leaf opened done c = .ok ts d) :
    ∃ more, ts = done.reverse ++ more := by
  fun_induction terms leaf opened done c with
  | case1 => cases h
  | case2 =>
    cases h
    exact ⟨[], (List.append_nil _).symm⟩
  | case3 opened done c x e hx ih =>
    obtain ⟨more, rfl⟩ := ih h
    exact ⟨x :: more, by simp⟩

/-- The terms that come after `done` are taken one by one. -/
theorem exists_takes_of_terms {x : Term}
    (h : terms leaf opened done c = .ok (done.reverse ++ x :: more) d) :
    ∃ e, Takes leaf opened done c e (some x) ∧
      terms leaf (x.openAfter opened) (x :: done) e = .ok ((x :: done).reverse ++ more) d := by
  rw [terms] at h
  split at h
  · cases h
  · rw [EStateM.Result.ok.injEq] at h
    simp at h
  · next y e hy =>
    obtain ⟨more', hmore⟩ := exists_append_of_terms h
    obtain rfl : x = y := by simpa using congrArg (·[done.length]?) hmore
    refine ⟨e, takes_of_term hy, ?_⟩
    rw [List.reverse_cons, List.append_assoc]
    exact h

/-- Where the terms `ts` are taken off the text, it spells an expression of the level. -/
def SpelledBy (leaf : Step TypeExpr) (low : Nat) (level : Level) (t : TypeExpr) (ts : List Term) :
    Prop :=
  ∀ {opened done more c d}, low ≤ c.depth → c.depth ≤ maxDepth →
    terms leaf opened done c = .ok (done.reverse ++ (ts ++ more)) d →
      ∃ rest, Spells (.expression level t) c.rest rest ∧ t.Allowed c.depth ∧
        terms leaf opened (ts.reverse ++ done) ⟨rest, c.depth⟩ =
          .ok ((ts.reverse ++ done).reverse ++ more) d

theorem SpelledBy.join (op : Connective) (ch : Char) {low : Nat} {high lower : Level}
    {l r : TypeExpr} {ls rs : List Term} (hl : SpelledBy leaf low high l ls)
    (hr : SpelledBy leaf low lower r rs)
    (hop : ∀ {opened done c d}, Takes leaf opened done c d (some (.connective op)) →
      Symbol ch c.rest d.rest ∧ d.depth = c.depth)
    (hspells : ∀ {text after next rest}, Spells (.expression high l) text after →
      Symbol ch after next → Spells (.expression lower r) next rest →
        Spells (.expression high (op.join l r)) text rest)
    (hallowed : ∀ {depth}, (op.join l r).Allowed depth ↔ l.Allowed depth ∧ r.Allowed depth) :
    SpelledBy leaf low high (op.join l r) (ls ++ .connective op :: rs) := by
  intro opened done more c d hlow hdepth hterms
  rw [List.append_assoc] at hterms
  obtain ⟨after, hl, hallowedl, hterms⟩ := hl hlow hdepth hterms
  obtain ⟨⟨next, depth⟩, htakes, hterms⟩ := exists_takes_of_terms hterms
  obtain ⟨hsymbol, rfl⟩ := hop htakes
  obtain ⟨rest, hr, hallowedr, hterms⟩ := hr (c := ⟨next, c.depth⟩) hlow hdepth hterms
  refine ⟨rest, hspells hl hsymbol hr, hallowed.2 ⟨hallowedl, hallowedr⟩, ?_⟩
  simpa [Term.openAfter] using hterms

theorem SpelledBy.group (h : SpelledBy leaf low .union t ts) :
    SpelledBy leaf low .operand (.group t) (.openGroup :: (ts ++ [.closeGroup])) := by
  intro opened done more c d hlow hdepth hterms
  rw [List.cons_append, List.append_assoc] at hterms
  obtain ⟨⟨inner, depth⟩, ⟨hopen, hlt, rfl⟩, hterms⟩ := exists_takes_of_terms hterms
  -- inside, the depth is one more, which the closing parenthesis gives back
  obtain ⟨last, hspells, hallowed, hterms⟩ :=
    h (c := ⟨inner, c.depth + 1⟩) (Nat.le_succ_of_le hlow) hlt hterms
  obtain ⟨⟨rest, depth⟩, ⟨hclose, hd⟩, hterms⟩ := exists_takes_of_terms hterms
  cases hd
  refine ⟨rest, .group hopen hspells hclose, TypeExpr.allowed_group.2 hallowed, ?_⟩
  simpa [Term.openAfter] using hterms

theorem spelledBy_of_derives (hleaf : ReadsLeaves low leaf.run) (h : Derives level t ts) :
    SpelledBy leaf low level t ts := by
  induction h with
  | operand =>
    intro opened done more c d hlow hdepth hterms
    obtain ⟨⟨rest, depth⟩, ⟨-, ht, -⟩, hterms⟩ := exists_takes_of_terms hterms
    obtain ⟨hspells, hallowed, rfl⟩ := (hleaf (c := c.skipBlank) hlow hdepth).1 ht
    exact ⟨rest, .leaf (hspells.congr skipBlank_skipBlank), hallowed, hterms⟩
  | group h ih => exact ih.group
  | intersection h ih =>
    intro opened done more c d hlow hdepth hterms
    obtain ⟨rest, hspells, h⟩ := ih hlow hdepth hterms
    exact ⟨rest, .intersection hspells, h⟩
  | and hl hr ihl ihr => exact ihl.join .and '&' ihr id .and TypeExpr.allowed_and
  | union h ih =>
    intro opened done more c d hlow hdepth hterms
    obtain ⟨rest, hspells, h⟩ := ih hlow hdepth hterms
    exact ⟨rest, .union hspells, h⟩
  | or hl hr ihl ihr => exact ihl.join .or '|' ihr id .or TypeExpr.allowed_or

theorem exists_takes_none_of_terms (h : terms leaf opened done c = .ok done.reverse d) :
    ∃ e, Takes leaf opened done c e none ∧ d = ⟨e.rest, e.depth - opened⟩ := by
  rw [terms] at h
  split at h
  · cases h
  · next e he =>
    rw [EStateM.Result.ok.injEq] at h
    exact ⟨e, takes_of_term he, h.2.symm⟩
  · next y e hy =>
    obtain ⟨more, hmore⟩ := exists_append_of_terms h
    simp at hmore

def TakesAll (leaf : Step TypeExpr) (low : Nat) (t : TypeExpr) (text rest : List Char)
    (ts : List Term) : Prop :=
  ∀ {opened done depth}, low ≤ depth → t.Allowed depth → (∀ x ∈ done.head?, x.endsOperand = false) →
    terms leaf opened done ⟨text, depth⟩ = terms leaf opened (ts.reverse ++ done) ⟨rest, depth⟩

theorem takes_operand (hleaf : ReadsLeaves low leaf.run) {rest : List Char}
    (h : Spells (.leaf t) c.rest rest) (hlow : low ≤ c.depth) (hallowed : t.Allowed c.depth)
    (hdone : ∀ x ∈ done.head?, x.endsOperand = false) :
    Takes leaf opened done c ⟨rest, c.depth⟩ (some (.operand t)) := by
  obtain ⟨ch, tail, hc, hch⟩ := h.exists_of_leaf
  have hne : ∀ p ∈ ['(', ')', '&', '|', '\x7d', '>', ',', ';'], ch ≠ p := by
    rintro p hp rfl
    rcases hch with rfl | hch
    · simp at hp
    · rw [startsWord_eq_false hp] at hch
      cases hch
  refine ⟨Symbol.ends hc fun hmem => hne ch ?_ rfl, ?_, ch, by simp [hc], ?_⟩
  · exact List.mem_append_left ['\x7d', '>', ',', ';'] hmem
  · refine (hleaf (c := c.skipBlank) hlow ?_).2 ⟨h.congr skipBlank_skipBlank.symm, hallowed, rfl⟩
    exact Nat.le_trans (Nat.le_add_right _ _) hallowed.2
  · cases done with
    | nil => rfl
    | cons x done =>
      have hx := hdone x rfl
      simp only [stops, hx, Bool.false_or, decide_eq_false_iff_not]
      exact fun hmem => hne ch (List.mem_append_right ['(', ')', '&', '|'] hmem) rfl

theorem TakesAll.join (op : Connective) {l r : TypeExpr} {text after next rest : List Char}
    {ls rs : List Term} (hl : TakesAll leaf low l text after ls)
    (hr : TakesAll leaf low r next rest rs)
    (hop : ∀ opened done depth,
      Takes leaf opened done ⟨after, depth⟩ ⟨next, depth⟩ (some (.connective op)))
    (hallowed : ∀ {depth}, (op.join l r).Allowed depth ↔ l.Allowed depth ∧ r.Allowed depth) :
    TakesAll leaf low (op.join l r) text rest (ls ++ .connective op :: rs) := by
  intro opened done depth hlow h hdone
  rw [hallowed] at h
  calc terms leaf opened done ⟨text, depth⟩
      = terms leaf opened (ls.reverse ++ done) ⟨after, depth⟩ := hl hlow h.1 hdone
    _ = terms leaf opened (.connective op :: (ls.reverse ++ done)) ⟨next, depth⟩ :=
      terms_of_takes (hop _ _ _)
    _ = terms leaf opened (rs.reverse ++ .connective op :: (ls.reverse ++ done)) ⟨rest, depth⟩ :=
      hr hlow h.2 (by simp [Term.endsOperand])
    _ = _ := by simp

theorem TakesAll.group {text inner last rest : List Char} (hopen : Symbol '(' text inner)
    (h : TakesAll leaf low t inner last ts) (hclose : Symbol ')' last rest) :
    TakesAll leaf low (.group t) text rest (.openGroup :: (ts ++ [.closeGroup])) := by
  intro opened done depth hlow hallowed hdone
  rw [TypeExpr.allowed_group] at hallowed
  have htakes : Takes leaf opened done ⟨text, depth⟩ ⟨inner, depth + 1⟩ (some .openGroup) :=
    ⟨hopen, Nat.le_trans (Nat.le_add_right _ _) hallowed.2, rfl⟩
  have htakes' : Takes leaf (opened + 1) (ts.reverse ++ .openGroup :: done) ⟨last, depth + 1⟩
    ⟨rest, depth⟩ (some .closeGroup) := ⟨hclose, by simp⟩
  calc terms leaf opened done ⟨text, depth⟩
      = terms leaf (opened + 1) (.openGroup :: done) ⟨inner, depth + 1⟩ := terms_of_takes htakes
    _ = terms leaf (opened + 1) (ts.reverse ++ .openGroup :: done) ⟨last, depth + 1⟩ :=
      h (Nat.le_succ_of_le hlow) hallowed (by simp [Term.endsOperand])
    _ = terms leaf opened (.closeGroup :: (ts.reverse ++ .openGroup :: done)) ⟨rest, depth⟩ :=
      terms_of_takes htakes'
    _ = _ := by simp

theorem exists_takesAll_of_spells (hleaf : ReadsLeaves low leaf.run) {text rest : List Char}
    (h : Spells (.expression level t) text rest) :
    ∃ ts, Derives level t ts ∧ TakesAll leaf low t text rest ts := by
  generalize hp : Phrase.expression level t = p at h
  induction h generalizing level t with
  | quoted | numeral | word | array | object | done | field => cases hp
  | leaf h =>
    cases hp
    refine ⟨_, .operand, fun {opened done depth} hlow hallowed hdone => ?_⟩
    exact terms_of_takes (takes_operand hleaf h hlow hallowed hdone)
  | group hopen h hclose ih =>
    cases hp
    obtain ⟨ts, hts, ih⟩ := ih rfl
    exact ⟨_, hts.group, ih.group hopen hclose⟩
  | intersection h ih =>
    cases hp
    obtain ⟨ts, hts, ih⟩ := ih rfl
    exact ⟨ts, hts.intersection, ih⟩
  | and hl hop hr ihl ihr =>
    cases hp
    obtain ⟨ls, hls, ihl⟩ := ihl rfl
    obtain ⟨rs, hrs, ihr⟩ := ihr rfl
    exact ⟨_, hls.and hrs, ihl.join .and ihr (fun _ _ _ => ⟨hop, rfl⟩) TypeExpr.allowed_and⟩
  | union h ih =>
    cases hp
    obtain ⟨ts, hts, ih⟩ := ih rfl
    exact ⟨ts, hts.union, ih⟩
  | or hl hop hr ihl ihr =>
    cases hp
    obtain ⟨ls, hls, ihl⟩ := ihl rfl
    obtain ⟨rs, hrs, ihr⟩ := ihr rfl
    exact ⟨_, hls.or hrs, ihl.join .or ihr (fun _ _ _ => ⟨hop, rfl⟩) TypeExpr.allowed_or⟩

theorem exists_last_of_derives (h : Derives level t ts) :
    ∃ last before, ts.reverse = last :: before ∧ last.endsOperand := by
  induction h with
  | operand => exact ⟨_, _, rfl, rfl⟩
  | group h ih => exact ⟨.closeGroup, _, by simp; rfl, rfl⟩
  | intersection h ih => exact ih
  | and hl hr ihl ihr =>
    obtain ⟨last, before, hlast, h⟩ := ihr
    exact ⟨last, _, by simp [hlast]; rfl, h⟩
  | union h ih => exact ih
  | or hl hr ihl ihr =>
    obtain ⟨last, before, hlast, h⟩ := ihr
    exact ⟨last, _, by simp [hlast]; rfl, h⟩

theorem spells_of_expression (hleaf : ReadsLeaves (low + 1) leaf.run) (hlow : low ≤ c.depth)
    (h : expression leaf c = .ok t d) : ∃ rest, Spells (.expression .union t) c.rest rest ∧
      Ends rest ∧ t.Allowed (c.depth + 1) ∧ d = ⟨StructuralTypes.skipBlank rest, c.depth⟩ := by
  simp only [expression] at h
  split at h
  · next hdepth =>
    split at h
    · cases h
    · cases h
    · next ts e hne hterms =>
      split at h
      · cases h
      · next t' ht =>
        cases h
        have hterms' :
            terms leaf 0 [] ⟨c.rest, c.depth + 1⟩ = .ok ([].reverse ++ (ts ++ [])) e := by
          simpa using hterms
        have hspelled : SpelledBy leaf (low + 1) .union t ts :=
          spelledBy_of_derives hleaf (Term.resolve_eq_ok_iff.1 ht)
        obtain ⟨rest, hspells, hallowed, hend⟩ :=
          hspelled (c := ⟨c.rest, c.depth + 1⟩) (Nat.succ_le_succ hlow) hdepth hterms'
        rw [List.append_nil, List.append_nil] at hend
        obtain ⟨e', ⟨rfl, hends, -⟩, rfl⟩ := exists_takes_none_of_terms hend
        exact ⟨rest, hspells, hends, hallowed, rfl⟩
  · cases h

theorem expression_of_terms (hdepth : c.depth < maxDepth) (ht : Term.resolve ts = .ok t)
    (hne : ts ≠ []) (h : terms leaf 0 [] ⟨c.rest, c.depth + 1⟩ = .ok ts d) :
    expression leaf c = .ok t ⟨d.rest, d.depth - 1⟩ := by
  cases ts with
  | nil => exact absurd rfl hne
  | cons x ts => simp only [expression, if_pos hdepth, h, ht]

theorem readsExpressions_expression (hleaf : ReadsLeaves (low + 1) leaf.run) :
    ReadsExpressions low (expression leaf) := by
  intro c d t hlow
  refine ⟨spells_of_expression hleaf hlow, ?_⟩
  rintro ⟨rest, hspells, hends, hallowed, rfl⟩
  obtain ⟨ts, hts, htakes⟩ := exists_takesAll_of_spells hleaf hspells
  obtain ⟨last, before, hlast, hend⟩ := exists_last_of_derives hts
  have hnone : Takes leaf 0 ts.reverse ⟨rest, c.depth + 1⟩
    ⟨StructuralTypes.skipBlank rest, c.depth + 1⟩ none :=
    ⟨rfl, hends, fun ch _ => by simp [hlast, stops, hend]⟩
  have hterms : terms leaf 0 [] ⟨c.rest, c.depth + 1⟩ =
      .ok ts ⟨StructuralTypes.skipBlank rest, c.depth + 1⟩ := by
    rw [htakes (Nat.succ_le_succ hlow) hallowed (by simp), List.append_nil,
      terms_of_takes_none hnone, List.reverse_reverse]
    rfl
  refine expression_of_terms ?_ (Term.resolve_eq_ok_iff.2 hts) ?_ hterms
  · exact Nat.le_trans (Nat.le_add_right _ _) hallowed.2
  · rintro rfl
    cases hlast

theorem readsExpressions_typeWithin {n : Nat} (h : maxDepth ≤ low + n) :
    ReadsExpressions low (typeWithin n).run := by
  induction n generalizing low with
  | zero =>
    intro c d t hlow
    refine ⟨nofun, ?_⟩
    rintro ⟨rest, -, -, hallowed, -⟩
    have := hallowed.2
    omega
  | succ n ih => exact readsExpressions_expression (readsLeaves_leaf (ih (by omega)))

theorem readsExpressions_type : ReadsExpressions 0 type :=
  readsExpressions_typeWithin (Nat.le_add_left _ _)

end StructuralTypes.Reading

namespace StructuralTypes.TypeExpr

theorem parse_eq_ok {text after : String} {t : TypeExpr} : parse text = .ok (t, after) ↔
    ∃ rest, Spells (.expression .union t) text.toList rest ∧ Ends rest ∧ t.Allowed 1 ∧
      after = .ofList (skipBlank rest) := by
  unfold parse
  constructor
  · intro h
    split at h
    · next t c hread =>
      cases h
      obtain ⟨rest, hspells, hends, hallowed, rfl⟩ := (Reading.readsExpressions_type (Nat.zero_le _)).1 hread
      exact ⟨rest, hspells, hends, hallowed, by simp [Cursor.remaining]⟩
    · cases h
  · rintro ⟨rest, hspells, hends, hallowed, rfl⟩
    have hread : Reading.type (.start text) = _ :=
      (Reading.readsExpressions_type (Nat.zero_le _)).2 ⟨rest, hspells, hends, hallowed, rfl⟩
    rw [hread]
    simp [Cursor.remaining]

/-- A whole text is a type exactly when it is a sentence of the grammar, with distinct names in
every object and no more levels of nesting than a text may have; the type is then the tree of the
sentence. -/
theorem parse_whole_eq_ok_iff (text : String) (t : TypeExpr) : parse text = .ok (t, "") ↔
    (∃ rest, Spells (.expression .union t) text.toList rest ∧ skipBlank rest = []) ∧
      t.DistinctNames ∧ 1 + t.levels 0 ≤ 128 := by
  rw [parse_eq_ok]
  constructor
  · rintro ⟨rest, hspells, -, hallowed, hrest⟩
    have hblank : skipBlank rest = [] := by simpa using congrArg String.toList hrest.symm
    exact ⟨⟨rest, hspells, hblank⟩, hallowed⟩
  · rintro ⟨⟨rest, hspells, hblank⟩, hallowed⟩
    exact ⟨rest, hspells, ends_of_skipBlank_eq_nil hblank, hallowed, by rw [hblank]⟩

theorem parse_whole_optional_field :
    let seven : Decimal := ⟨7, 0, by decide, by decide⟩
    parse " \x7b id? : ( string | 7 ) ; \x7d " = .ok
      (.object [⟨"id", true, .group (.or (.leaf .string) (.leaf (.numeral seven)))⟩], "") := by
  intro seven
  have hkeyword : Spells (.leaf (.leaf (.ofWord "string"))) " string | 7 ) ; \x7d ".toList
      " | 7 ) ; \x7d ".toList :=
    .word (Lexeme.run_eq_ok_iff.1 (rfl : Lexeme.word _ = _)) (by decide)
  have hseven : Spells (.leaf (.leaf (.numeral seven))) " 7 ) ; \x7d ".toList " ) ; \x7d ".toList :=
    .numeral (Lexeme.number_eq_ok_iff.1 rfl)
  have hunion : Spells (.expression .union (.or (.leaf .string) (.leaf (.numeral seven))))
      " string | 7 ) ; \x7d ".toList " ) ; \x7d ".toList :=
    .or (.union (.intersection (.leaf hkeyword))) rfl (.intersection (.leaf hseven))
  have hgroup : Spells (.expression .operand (.group _)) " ( string | 7 ) ; \x7d ".toList
      " ; \x7d ".toList :=
    .group rfl hunion rfl
  have hfields : Spells (.fields _) " id? : ( string | 7 ) ; \x7d ".toList " ".toList :=
    .field (Lexeme.key_eq_ok_iff.1 rfl) (.present rfl) rfl (.union (.intersection hgroup))
      (.semicolon rfl) (.done rfl)
  have hobject : Spells (.leaf (.object _)) " \x7b id? : ( string | 7 ) ; \x7d ".toList
      " ".toList :=
    .object rfl hfields
  exact (parse_whole_eq_ok_iff _ _).2
    ⟨⟨_, .union (.intersection (.leaf hobject)), rfl⟩, by simp, by decide⟩

end StructuralTypes.TypeExpr
