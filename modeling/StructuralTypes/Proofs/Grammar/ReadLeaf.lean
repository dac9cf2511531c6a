import Mathlib.Data.List.Nodup
import StructuralTypes.Proofs.Grammar.Sentence

namespace StructuralTypes.Reading

variable {α : Type} {a : α} {c d : Cursor} {ch : Char} {start : String}

theorem lexeme_eq_ok {read : Lexeme.Reader α} :
    lexeme read c = .ok a d ↔ read c.rest = .ok (a, d.rest) ∧ d.depth = c.depth := by
  obtain ⟨rest, depth⟩ := d
  rw [lexeme]
  split
  · next b after h =>
    simp [h, and_assoc, eq_comm]
  · next h => simp [h]

theorem eat_eq_ok {b : Bool} : eat ch c = .ok b d ↔
    if b then c.rest = ch :: d.rest ∧ d.depth = c.depth else c.rest.head? ≠ some ch ∧ d = c := by
  obtain ⟨rest, depth⟩ := d
  rw [eat]
  split
  · next h => cases b <;> simp [h, eq_comm]
  · next x after h =>
    by_cases hx : x = ch
    · cases b <;> simp [h, hx, eq_comm]
    · cases b <;> simp [h, hx, Ne.symm hx, eq_comm]

theorem skipBlank_bind {f : Unit → Reading α} : (skipBlank >>= f) c = f () c.skipBlank := rfl

theorem get_bind {f : Cursor → Reading α} : (get >>= f) c = f c c := rfl

theorem expect_eq_ok : expect ch c = .ok () d ↔ Symbol ch c.rest d.rest ∧ d.depth = c.depth := by
  rw [expect, skipBlank_bind, bind_eq_ok]
  constructor
  · rintro ⟨b, e, heat, h⟩
    cases b with
    | false => cases h
    | true =>
      cases h
      exact eat_eq_ok.1 heat
  · rintro ⟨h, hdepth⟩
    exact ⟨true, d, eat_eq_ok.2 ⟨h, hdepth⟩, rfl⟩

@[simp]
theorem rest_skipBlank : c.skipBlank.rest = StructuralTypes.skipBlank c.rest := rfl

@[simp]
theorem depth_skipBlank : c.skipBlank.depth = c.depth := rfl

theorem colon_eq_ok : colon start c = .ok () d ↔ Symbol ':' c.rest d.rest ∧ d.depth = c.depth := by
  rw [colon, skipBlank_bind, get_bind]
  split
  · next hempty =>
    rw [List.isEmpty_iff] at hempty
    refine ⟨nofun, ?_⟩
    rintro ⟨h, -⟩
    cases h.symm.trans hempty
  · rw [expect_eq_ok, rest_skipBlank, symbol_skipBlank, depth_skipBlank]

theorem fieldHead_eq_ok {name : String} {optional : Bool} :
    fieldHead start c = .ok (name, optional) d ↔
      ∃ afterName afterMark, Lexeme.Key name c.rest afterName ∧ Mark optional afterName afterMark ∧
        Symbol ':' afterMark d.rest ∧ d.depth = c.depth := by
  rw [fieldHead, bind_eq_ok]
  constructor
  · rintro ⟨_, e, hname, h⟩
    rw [skipBlank_bind] at h
    obtain ⟨b, e', hmark, h⟩ := bind_eq_ok.1 h
    obtain ⟨_, e'', hcolon, h⟩ := bind_eq_ok.1 h
    cases h
    rw [lexeme_eq_ok, Lexeme.key_eq_ok_iff] at hname
    rw [colon_eq_ok] at hcolon
    rw [eat_eq_ok] at hmark
    cases optional with
    | true =>
      rw [if_pos rfl] at hmark
      refine ⟨e.rest, e'.rest, hname.1, .present hmark.1, hcolon.1, ?_⟩
      rw [hcolon.2, hmark.2, depth_skipBlank, hname.2]
    | false =>
      obtain ⟨-, rfl⟩ := hmark
      rw [rest_skipBlank, symbol_skipBlank] at hcolon
      exact ⟨e.rest, e.rest, hname.1, .absent, hcolon.1, hcolon.2.trans hname.2⟩
  · rintro ⟨afterName, afterMark, hname, hmark, hcolon, hdepth⟩
    refine ⟨name, ⟨afterName, c.depth⟩, lexeme_eq_ok.2 ⟨Lexeme.key_eq_ok_iff.2 hname, rfl⟩, ?_⟩
    rw [skipBlank_bind, bind_eq_ok]
    cases hmark with
    | present h =>
      refine ⟨true, ⟨afterMark, c.depth⟩, eat_eq_ok.2 ⟨h, rfl⟩, ?_⟩
      exact bind_eq_ok.2 ⟨(), d, colon_eq_ok.2 ⟨hcolon, hdepth⟩, rfl⟩
    | absent =>
      have hne : (StructuralTypes.skipBlank afterName).head? ≠ some '?' := by
        rw [hcolon]
        simp
      refine ⟨false, _, eat_eq_ok.2 ⟨hne, rfl⟩, bind_eq_ok.2 ⟨(), d, colon_eq_ok.2 ?_, rfl⟩⟩
      exact ⟨symbol_skipBlank.2 hcolon, hdepth⟩

theorem discard_eq_ok {r : Reading α} : discard r c = .ok () d ↔ ∃ a, r c = .ok a d := by
  change EStateM.map _ r c = _ ↔ _
  unfold EStateM.map
  cases r c <;> simp

variable {text next : List Char}

theorem separator_of_eq_ok (h : separator c = .ok () d)
    (htext : StructuralTypes.skipBlank c.rest = StructuralTypes.skipBlank text) :
    ∃ next, Separator text next ∧
      StructuralTypes.skipBlank d.rest = StructuralTypes.skipBlank next ∧ d.depth = c.depth := by
  rw [separator, skipBlank_bind] at h
  obtain ⟨b, e, hcomma, h⟩ := bind_eq_ok.1 h
  rw [eat_eq_ok, rest_skipBlank, htext] at hcomma
  cases b with
  | true =>
    cases h
    exact ⟨d.rest, .comma hcomma.1, rfl, hcomma.2⟩
  | false =>
    obtain ⟨-, rfl⟩ := hcomma
    obtain ⟨b, hsemicolon⟩ := discard_eq_ok.1 h
    rw [eat_eq_ok, rest_skipBlank, htext] at hsemicolon
    cases b with
    | true => exact ⟨d.rest, .semicolon hsemicolon.1, rfl, hsemicolon.2⟩
    | false =>
      obtain ⟨-, rfl⟩ := hsemicolon
      exact ⟨text, .absent, skipBlank_skipBlank.trans htext, rfl⟩

theorem exists_separator_eq_ok (h : Separator text next)
    (htext : StructuralTypes.skipBlank c.rest = StructuralTypes.skipBlank text)
    {fs : List (Field TypeExpr)} {rest : List Char} (hfs : Spells (.fields fs) next rest) :
    ∃ d, separator c = .ok () d ∧ d.depth = c.depth ∧ Spells (.fields fs) d.rest rest := by
  rw [separator, skipBlank_bind]
  cases h with
  | comma h =>
    refine ⟨⟨next, c.depth⟩, ?_, rfl, hfs⟩
    exact bind_eq_ok.2 ⟨true, ⟨next, c.depth⟩, eat_eq_ok.2 ⟨htext.trans h, rfl⟩, rfl⟩
  | semicolon h =>
    have hne : (StructuralTypes.skipBlank c.rest).head? ≠ some ',' := by
      rw [htext, h]
      simp
    refine ⟨⟨next, c.depth⟩, bind_eq_ok.2 ⟨false, _, eat_eq_ok.2 ⟨hne, rfl⟩, ?_⟩, rfl, hfs⟩
    exact discard_eq_ok.2 ⟨true, eat_eq_ok.2 ⟨htext.trans h, rfl⟩⟩
  | absent =>
    obtain ⟨ch, tail, hch, hstart⟩ := hfs.exists_of_fields
    have hne (p : Char) (hp : p ≠ '\x7d' ∧ startsWord p = false) :
        (StructuralTypes.skipBlank c.rest).head? ≠ some p := by
      rw [htext, hch, List.head?_cons, ne_eq, Option.some_inj]
      rintro rfl
      simp [hp] at hstart
    refine ⟨c.skipBlank, ?_, rfl, hfs.congr (skipBlank_skipBlank.trans htext).symm⟩
    refine bind_eq_ok.2 ⟨false, _, eat_eq_ok.2 ⟨hne ',' (by decide), rfl⟩, ?_⟩
    exact discard_eq_ok.2 ⟨false, eat_eq_ok.2 ⟨hne ';' (by decide), rfl⟩⟩

/-- Reads exactly the expressions that a text spells, at least `low` levels deep. -/
def ReadsExpressions (low : Nat) (type : Reading TypeExpr) : Prop :=
  ∀ {c d t}, low ≤ c.depth → (type c = .ok t d ↔ ∃ rest, Spells (.expression .union t) c.rest rest ∧
    Ends rest ∧ t.Allowed (c.depth + 1) ∧ d = ⟨StructuralTypes.skipBlank rest, c.depth⟩)

def ReadsLeaves (low : Nat) (leaf : Reading TypeExpr) : Prop :=
  ∀ {c d t}, low ≤ c.depth → c.depth ≤ maxDepth →
    (leaf c = .ok t d ↔ Spells (.leaf t) c.rest d.rest ∧ t.Allowed c.depth ∧ d.depth = c.depth)

variable {low : Nat} {type : Step TypeExpr}

theorem spells_of_field (htype : ReadsExpressions low type.run) (hlow : low ≤ c.depth)
    {f : Field TypeExpr} (h : field start type c.skipBlank = .ok f d) :
    f.type.Allowed (c.depth + 1) ∧ d.depth = c.depth ∧ ∀ fs rest, Spells (.fields fs) d.rest rest →
      Spells (.fields (f :: fs)) c.rest rest := by
  rw [field, bind_eq_ok] at h
  obtain ⟨⟨name, optional⟩, e, hhead, h⟩ := h
  obtain ⟨t, e', ht, h⟩ := bind_eq_ok.1 h
  obtain ⟨_, e'', hseparator, h⟩ := bind_eq_ok.1 h
  cases h
  obtain ⟨afterName, afterMark, hname, hmark, hcolon, hdepth⟩ := fieldHead_eq_ok.1 hhead
  rw [depth_skipBlank] at hdepth
  obtain ⟨afterType, hspells, -, hallowed, rfl⟩ := (htype (hdepth ▸ hlow)).1 ht
  obtain ⟨next, hseparator, hnext, hdepth'⟩ := separator_of_eq_ok hseparator skipBlank_skipBlank
  refine ⟨hdepth ▸ hallowed, hdepth'.trans hdepth, fun fs rest hfs => ?_⟩
  exact .field hname hmark hcolon hspells hseparator (hfs.congr hnext)

theorem field_eq_ok (htype : ReadsExpressions low type.run) (hlow : low ≤ c.depth)
    {f : Field TypeExpr} {fs : List (Field TypeExpr)} {rest : List Char}
    (h : Spells (.fields (f :: fs)) c.rest rest) (hallowed : f.type.Allowed (c.depth + 1)) :
    ∃ d, field start type c.skipBlank = .ok f d ∧ d.depth = c.depth ∧
      Spells (.fields fs) d.rest rest := by
  cases h with
  | @field name optional t _ _ afterName afterMark afterColon afterType next _ hname hmark hcolon ht
      hseparator hfs =>
    have hread := (htype (c := ⟨afterColon, c.depth⟩) hlow).2
      ⟨afterType, ht, hseparator.ends hfs, hallowed, rfl⟩
    obtain ⟨d, hd, hdepth, hfs⟩ := exists_separator_eq_ok
      (c := ⟨StructuralTypes.skipBlank afterType, c.depth⟩) hseparator skipBlank_skipBlank hfs
    refine ⟨d, bind_eq_ok.2 ⟨(name, optional), ⟨afterColon, c.depth⟩, ?_, ?_⟩, hdepth, hfs⟩
    · exact fieldHead_eq_ok.2 ⟨_, _, hname, hmark, hcolon, rfl⟩
    · exact bind_eq_ok.2 ⟨t, _, hread, bind_eq_ok.2 ⟨(), d, hd, rfl⟩⟩

theorem spells_of_fields (htype : ReadsExpressions low type.run) (hlow : low ≤ c.depth)
    {done fs : List (Field TypeExpr)} (h : fields start type done c = .ok fs d)
    (hdone : (done.map Field.name).Nodup) :
    ∃ new, fs = done.reverse ++ new ∧ (fs.map Field.name).Nodup ∧
      (∀ f ∈ new, f.type.Allowed (c.depth + 1)) ∧ d.depth = c.depth ∧
      Spells (.fields new) c.rest d.rest := by
  fun_induction fields start type done c with
  | case1 => cases h
  | case2 done c rest hc =>
    cases h
    refine ⟨[], (List.append_nil _).symm, ?_, by simp, rfl, .done hc⟩
    rwa [List.map_reverse, List.nodup_reverse]
  | case3 => cases h
  | case4 => cases h
  | case5 done c f e hf hnew hend hclose ih =>
    obtain ⟨hallowed, hdepth, hspells⟩ := spells_of_field htype hlow hf
    have hdone' : ((f :: done).map Field.name).Nodup := by
      rw [List.map_cons, List.nodup_cons]
      exact ⟨by simpa using hnew, hdone⟩
    obtain ⟨new, rfl, hnames, hallowed', hdepth', hspells'⟩ := ih (hdepth ▸ hlow) h hdone'
    refine ⟨f :: new, by simp, hnames, ?_, hdepth'.trans hdepth, hspells _ _ hspells'⟩
    rw [hdepth] at hallowed'
    exact List.forall_mem_cons.2 ⟨hallowed, hallowed'⟩

theorem fields_of_close {done : List (Field TypeExpr)} {rest : List Char}
    (h : Symbol '\x7d' c.rest rest) :
    fields start type done c = .ok done.reverse ⟨rest, c.depth⟩ := by
  unfold fields
  split
  · next hc => cases h.symm.trans hc
  · next hc =>
    cases h.symm.trans hc
    rfl
  · next hclose => exact absurd h (hclose _)

theorem fields_of_field {done : List (Field TypeExpr)} {f : Field TypeExpr} {tail : List Char}
    (htext : StructuralTypes.skipBlank c.rest = ch :: tail) (hch : startsWord ch)
    (hf : field start type c.skipBlank = .ok f d) (hnew : f.name ∉ done.map Field.name) :
    fields start type done c = fields start type (f :: done) d := by
  rw [fields]
  split
  · next hc => cases htext.symm.trans hc
  · next hc =>
    cases htext.symm.trans hc
    cases hch
  · split
    · next hf' => cases hf.symm.trans hf'
    · next hf' =>
      cases hf.symm.trans hf'
      rw [if_neg]
      simpa using hnew

theorem fields_eq_ok (htype : ReadsExpressions low type.run) (hlow : low ≤ c.depth)
    {done new : List (Field TypeExpr)} {rest : List Char} (h : Spells (.fields new) c.rest rest)
    (hnames : ((done.reverse ++ new).map Field.name).Nodup)
    (hnew : ∀ f ∈ new, f.type.Allowed (c.depth + 1)) :
    fields start type done c = .ok (done.reverse ++ new) ⟨rest, c.depth⟩ := by
  induction new generalizing done c with
  | nil =>
    cases h with
    | done h => rw [fields_of_close h, List.append_nil]
  | cons f new ih =>
    obtain ⟨ch, tail, htext, hch⟩ := h.exists_of_field
    rw [List.forall_mem_cons] at hnew
    obtain ⟨d, hd, hdepth, hspells⟩ : ∃ d, field start type c.skipBlank = .ok f d ∧ _ :=
      field_eq_ok htype hlow h hnew.1
    rw [fields_of_field htext hch hd, ih (hdepth ▸ hlow) hspells, hdepth]
    · simp
    · simpa using hnames
    · exact hdepth ▸ hnew.2
    · rw [List.map_append, List.nodup_append', List.map_reverse,
        List.disjoint_reverse_left] at hnames
      exact fun hmem => hnames.2.2 hmem List.mem_cons_self

variable {t : TypeExpr}

theorem array_eq_ok (htype : ReadsExpressions low type.run) (hlow : low ≤ c.depth) :
    array type c = .ok t d ↔ ∃ item inner last, t = .array item ∧ Symbol '<' c.rest inner ∧
      Spells (.expression .union item) inner last ∧ Symbol '>' last d.rest ∧
      item.Allowed (c.depth + 1) ∧ d.depth = c.depth := by
  constructor
  · intro h
    rw [array, bind_eq_ok] at h
    obtain ⟨_, e, hopen, h⟩ := h
    obtain ⟨item, e', hitem, h⟩ := bind_eq_ok.1 h
    obtain ⟨_, e'', hclose, h⟩ := bind_eq_ok.1 h
    cases h
    rw [expect_eq_ok] at hopen hclose
    obtain ⟨last, hspells, -, hallowed, rfl⟩ := (htype (hopen.2 ▸ hlow)).1 hitem
    rw [symbol_skipBlank, hopen.2] at hclose
    exact ⟨item, e.rest, last, rfl, hopen.1, hspells, hclose.1, hopen.2 ▸ hallowed, hclose.2⟩
  · rintro ⟨item, inner, last, rfl, hopen, hspells, hclose, hallowed, hdepth⟩
    have hitem := (htype (c := ⟨inner, c.depth⟩) hlow).2
      ⟨last, hspells, hclose.ends (by simp), hallowed, rfl⟩
    refine bind_eq_ok.2 ⟨(), ⟨inner, c.depth⟩, expect_eq_ok.2 ⟨hopen, rfl⟩, ?_⟩
    refine bind_eq_ok.2 ⟨item, _, hitem, ?_⟩
    exact bind_eq_ok.2 ⟨(), d, expect_eq_ok.2 ⟨symbol_skipBlank.2 hclose, hdepth⟩, rfl⟩

theorem wordLeaf_eq_ok : wordLeaf type c = .ok t d ↔
    ∃ name after, Lexeme.Longest Lexeme.isWordChar name.toList c.rest after ∧
      (name = "Array" ∧ array type ⟨after, c.depth⟩ = .ok t d ∨
        name ≠ "Array" ∧ t = .leaf (.ofWord name) ∧ d = ⟨after, c.depth⟩) := by
  rw [wordLeaf, bind_eq_ok]
  apply exists_congr
  intro name
  constructor
  · rintro ⟨⟨after, depth⟩, hname, h⟩
    obtain ⟨hname, rfl⟩ := lexeme_eq_ok.1 hname
    refine ⟨after, Lexeme.run_eq_ok_iff.1 hname, ?_⟩
    by_cases harray : name = "Array"
    · rw [if_pos harray] at h
      exact .inl ⟨harray, h⟩
    · rw [if_neg harray] at h
      cases h
      exact .inr ⟨harray, rfl, rfl⟩
  · rintro ⟨after, hname, h⟩
    refine ⟨⟨after, c.depth⟩, lexeme_eq_ok.2 ⟨Lexeme.run_eq_ok_iff.2 hname, rfl⟩, ?_⟩
    rcases h with ⟨harray, h⟩ | ⟨harray, rfl, rfl⟩
    · rw [if_pos harray]
      exact h
    · rw [if_neg harray]
      rfl

/-- What is read may stand as deep as the cursor, or at any depth above. -/
theorem spells_of_atom (htype : ReadsExpressions low type.run) (hlow : low ≤ c.depth) {n : Nat}
    (hn : n ≤ c.depth) (hdepth : n ≤ maxDepth) (h : atom type ch c.skipBlank = .ok t d) :
    Spells (.leaf t) c.rest d.rest ∧ t.Allowed n ∧ d.depth = c.depth := by
  unfold atom at h
  split at h
  · obtain ⟨s, e, hs, h⟩ := bind_eq_ok.1 h
    cases h
    rw [lexeme_eq_ok, Lexeme.quoted_eq_ok_iff] at hs
    exact ⟨.quoted hs.1, TypeExpr.allowed_leaf.2 hdepth, hs.2⟩
  · split at h
    · obtain ⟨k, e, hk, h⟩ := bind_eq_ok.1 h
      cases h
      rw [lexeme_eq_ok, Lexeme.number_eq_ok_iff] at hk
      exact ⟨.numeral hk.1, TypeExpr.allowed_leaf.2 hdepth, hk.2⟩
    · split at h
      · obtain ⟨name, after, hname, ⟨rfl, h⟩ | ⟨hne, rfl, rfl⟩⟩ := wordLeaf_eq_ok.1 h
        · obtain ⟨item, inner, last, rfl, hopen, hitem, hclose, hallowed, hd⟩ :=
            (array_eq_ok (c := ⟨after, c.depth⟩) htype hlow).1 h
          have hallowed' := hallowed.of_le (Nat.succ_le_succ hn)
          exact ⟨.array hname hopen hitem hclose, TypeExpr.allowed_array.2 hallowed', hd⟩
        · exact ⟨.word hname hne, TypeExpr.allowed_leaf.2 hdepth, rfl⟩
      · cases h

theorem leaf_eq_atom {tail : List Char} (htext : StructuralTypes.skipBlank c.rest = ch :: tail)
    (hch : startsWord ch) : leaf type c = atom type ch c.skipBlank := by
  simp only [leaf]
  split
  · next hc => cases htext.symm.trans hc
  · next hc =>
    cases htext.symm.trans hc
    cases hch
  · next hc =>
    cases htext.symm.trans hc
    rfl

theorem leaf_eq_wordLeaf {name : String} {after : List Char}
    (h : Lexeme.Longest Lexeme.isWordChar name.toList (StructuralTypes.skipBlank c.rest) after) :
    leaf type c = wordLeaf type c.skipBlank := by
  obtain ⟨ch, tail, htext, hch⟩ := h.exists_cons
  have hkey := Lexeme.isKeyChar_of_isWordChar hch
  rw [leaf_eq_atom htext (startsWord_of_isKeyChar hkey), atom,
    if_neg (by simp [Lexeme.not_isQuote_of_isKeyChar hkey]),
    if_neg (by simp [Lexeme.not_isDigit_of_isWordChar hch]), if_pos hch]

theorem leaf_of_fields {inner : List Char} {fs : List (Field TypeExpr)}
    (hopen : Symbol '\x7b' c.rest inner)
    (hfs : ∀ start, fields start type [] ⟨inner, c.depth⟩ = .ok fs d) :
    leaf type c = .ok (.object fs) d := by
  simp only [leaf]
  split
  · next hc => cases hopen.symm.trans hc
  · next hc =>
    cases hopen.symm.trans hc
    rw [depth_skipBlank, hfs]
  · next hne hc =>
    cases hopen.symm.trans hc
    exact (hne rfl).elim

theorem leaf_eq_ok (htype : ReadsExpressions low type.run) (hlow : low ≤ c.depth)
    (h : Spells (.leaf t) c.rest d.rest) (hallowed : t.Allowed c.depth) (hd : d.depth = c.depth) :
    leaf type c = .ok t d := by
  obtain ⟨rest, depth⟩ := d
  cases hd
  cases h with
  | quoted h =>
    obtain ⟨quote, body, hquote, -, htext⟩ := id h
    rw [leaf_eq_atom htext (by simp [startsWord, hquote]), atom, if_pos hquote]
    exact bind_eq_ok.2 ⟨_, ⟨rest, c.depth⟩, lexeme_eq_ok.2 ⟨Lexeme.quoted_eq_ok_iff.2 h, rfl⟩, rfl⟩
  | numeral h =>
    obtain ⟨whole, places, after, hwhole, -⟩ := id h
    obtain ⟨ch, tail, htext, hch⟩ := hwhole.exists_cons
    have hkey := Lexeme.isKeyChar_of_isDigit hch
    rw [leaf_eq_atom htext (startsWord_of_isKeyChar hkey), atom,
      if_neg (by simp [Lexeme.not_isQuote_of_isKeyChar hkey]), if_pos hch]
    exact bind_eq_ok.2 ⟨_, ⟨rest, c.depth⟩, lexeme_eq_ok.2 ⟨Lexeme.number_eq_ok_iff.2 h, rfl⟩, rfl⟩
  | word h hname =>
    rw [leaf_eq_wordLeaf h]
    exact wordLeaf_eq_ok.2 ⟨_, _, h, .inr ⟨hname, rfl, rfl⟩⟩
  | @array item _ after inner last _ hname hopen hitem hclose =>
    rw [leaf_eq_wordLeaf hname]
    refine wordLeaf_eq_ok.2 ⟨_, after, hname, .inl ⟨rfl, ?_⟩⟩
    refine (array_eq_ok (c := ⟨after, c.depth⟩) htype hlow).2 ?_
    exact ⟨item, inner, last, rfl, hopen, hitem, hclose, TypeExpr.allowed_array.1 hallowed, rfl⟩
  | @object fields _ inner _ hopen hfields =>
    obtain ⟨-, hnames, hfields'⟩ := TypeExpr.allowed_object.1 hallowed
    exact leaf_of_fields hopen fun _ =>
      fields_eq_ok (c := ⟨inner, c.depth⟩) htype hlow hfields hnames hfields'

/-- Where more levels are open than a text may have, what is read may still stand at any depth. -/
theorem spells_of_leaf (htype : ReadsExpressions low type.run) (hlow : low ≤ c.depth) {n : Nat}
    (hn : n ≤ c.depth) (hdepth : n ≤ maxDepth) (h : leaf type c = .ok t d) :
    Spells (.leaf t) c.rest d.rest ∧ t.Allowed n ∧ d.depth = c.depth := by
  simp only [leaf] at h
  split at h
  · cases h
  · next rest hopen =>
    split at h
    · next fs e hfs =>
      cases h
      obtain ⟨new, rfl, hnames, hallowed, hd, hspells⟩ :=
        spells_of_fields (c := ⟨rest, c.depth⟩) htype hlow hfs List.nodup_nil
      refine ⟨.object hopen hspells, TypeExpr.allowed_object.2 ⟨hdepth, hnames, ?_⟩, hd⟩
      exact fun f hf => (hallowed f hf).of_le (Nat.succ_le_succ hn)
    · cases h
  · exact spells_of_atom htype hlow hn hdepth h

theorem readsLeaves_leaf (htype : ReadsExpressions low type.run) : ReadsLeaves low (leaf type) := by
  intro c d t hlow hdepth
  constructor
  · exact spells_of_leaf htype hlow (Nat.le_refl _) hdepth
  · rintro ⟨hspells, hallowed, hd⟩
    exact leaf_eq_ok htype hlow hspells hallowed hd

end StructuralTypes.Reading
