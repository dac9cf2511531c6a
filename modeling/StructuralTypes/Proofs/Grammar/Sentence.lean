import Mathlib.Data.List.DropRight
import StructuralTypes.Proofs.Grammar.Precedence
import StructuralTypes.Proofs.Grammar.Token
import StructuralTypes.Proofs.Subterm
import StructuralTypes.Reading.Expression

namespace StructuralTypes

def Symbol (c : Char) (text rest : List Char) : Prop :=
  skipBlank text = c :: rest

inductive Mark : Bool → List Char → List Char → Prop
  | present {text rest} (h : Symbol '?' text rest) : Mark true text rest
  | absent {text} : Mark false text text

inductive Separator : List Char → List Char → Prop
  | comma {text rest} (h : Symbol ',' text rest) : Separator text rest
  | semicolon {text rest} (h : Symbol ';' text rest) : Separator text rest
  | absent {text} : Separator text text

/-- What a part of a text may be: an expression of some level, an expression that no connective and
no parentheses build, or the fields of an object up to its closing brace. -/
inductive Phrase
  | expression (level : Level) (t : TypeExpr)
  | leaf (t : TypeExpr)
  | fields (fields : List (Field TypeExpr))

/-- The text begins with the phrase and goes on with the rest. -/
inductive Spells : Phrase → List Char → List Char → Prop
  | quoted {s text rest} (h : Lexeme.QuotedText s (skipBlank text) rest) :
    Spells (.leaf (.leaf (.text s))) text rest
  | numeral {d text rest} (h : Lexeme.Numeral d (skipBlank text) rest) :
    Spells (.leaf (.leaf (.numeral d))) text rest
  | word {name : String} {text rest}
    (h : Lexeme.Longest Lexeme.isWordChar name.toList (skipBlank text) rest)
    (hname : name ≠ "Array") : Spells (.leaf (.leaf (.ofWord name))) text rest
  | array {item text after inner last rest}
    (hname : Lexeme.Longest Lexeme.isWordChar "Array".toList (skipBlank text) after)
    (hopen : Symbol '<' after inner) (hitem : Spells (.expression .union item) inner last)
    (hclose : Symbol '>' last rest) : Spells (.leaf (.array item)) text rest
  | object {fields text inner rest} (hopen : Symbol '\x7b' text inner)
    (h : Spells (.fields fields) inner rest) : Spells (.leaf (.object fields)) text rest
  | done {text rest} (h : Symbol '\x7d' text rest) : Spells (.fields []) text rest
  | field {name optional type fields text afterName afterMark afterColon afterType next rest}
    (hname : Lexeme.Key name (skipBlank text) afterName) (hmark : Mark optional afterName afterMark)
    (hcolon : Symbol ':' afterMark afterColon)
    (htype : Spells (.expression .union type) afterColon afterType)
    (hseparator : Separator afterType next) (h : Spells (.fields fields) next rest) :
    Spells (.fields (⟨name, optional, type⟩ :: fields)) text rest
  | leaf {t text rest} (h : Spells (.leaf t) text rest) :
    Spells (.expression .operand t) text rest
  | group {t text inner last rest} (hopen : Symbol '(' text inner)
    (h : Spells (.expression .union t) inner last) (hclose : Symbol ')' last rest) :
    Spells (.expression .operand (.group t)) text rest
  | intersection {t text rest} (h : Spells (.expression .operand t) text rest) :
    Spells (.expression .intersection t) text rest
  | and {l r text after next rest} (hl : Spells (.expression .intersection l) text after)
    (hop : Symbol '&' after next) (hr : Spells (.expression .operand r) next rest) :
    Spells (.expression .intersection (.and l r)) text rest
  | union {t text rest} (h : Spells (.expression .intersection t) text rest) :
    Spells (.expression .union t) text rest
  | or {l r text after next rest} (hl : Spells (.expression .union l) text after)
    (hop : Symbol '|' after next) (hr : Spells (.expression .intersection r) next rest) :
    Spells (.expression .union (.or l r)) text rest

/-- No object declares a name twice, and the expression, which stands `depth` levels deep, goes no
deeper than a text may. -/
def TypeExpr.Allowed (depth : Nat) (t : TypeExpr) : Prop :=
  t.DistinctNames ∧ depth + t.levels 0 ≤ maxDepth

def Ends (rest : List Char) : Prop :=
  ∀ c ∈ (skipBlank rest).head?, c ∉ ['(', ')', '&', '|']

section

variable {text text' rest : List Char} {c : Char}

@[simp]
theorem skipBlank_skipBlank : skipBlank (skipBlank text) = skipBlank text :=
  List.dropWhile_idempotent _ _

@[simp]
theorem symbol_skipBlank : Symbol c (skipBlank text) rest ↔ Symbol c text rest := by
  simp [Symbol]

theorem Symbol.ends (h : Symbol c text rest) (hc : c ∉ ['(', ')', '&', '|']) : Ends text := by
  unfold Ends
  rw [h]
  simpa using hc

theorem ends_of_skipBlank_eq_nil (h : skipBlank rest = []) : Ends rest := by
  simp [Ends, h]

/-- Blanks in front of a phrase do not count. -/
theorem Spells.congr {phrase : Phrase} (h : Spells phrase text rest)
    (heq : skipBlank text = skipBlank text') : Spells phrase text' rest := by
  induction h generalizing text' with
  | quoted h => exact .quoted (heq ▸ h)
  | numeral h => exact .numeral (heq ▸ h)
  | word h hname => exact .word (heq ▸ h) hname
  | array hname hopen hitem hclose => exact .array (heq ▸ hname) hopen hitem hclose
  | object hopen h => exact .object (heq.symm.trans hopen) h
  | done h => exact .done (heq.symm.trans h)
  | field hname hmark hcolon htype hseparator h =>
    exact .field (heq ▸ hname) hmark hcolon htype hseparator h
  | leaf h ih => exact .leaf (ih heq)
  | group hopen h hclose => exact .group (heq.symm.trans hopen) h hclose
  | intersection h ih => exact .intersection (ih heq)
  | and hl hop hr ihl => exact .and (ihl heq) hop hr
  | union h ih => exact .union (ih heq)
  | or hl hop hr ihl => exact .or (ihl heq) hop hr

def startsWord (c : Char) : Bool :=
  Quoted.isQuote c || Lexeme.isKeyChar c

theorem startsWord_eq_false (h : c ∈ ['(', ')', '&', '|', '\x7d', '>', ',', ';']) :
    startsWord c = false := by
  have hall : ['(', ')', '&', '|', '\x7d', '>', ',', ';'].all (! startsWord ·) := by decide
  simpa using List.all_eq_true.1 hall c h

theorem startsWord_of_isKeyChar (h : Lexeme.isKeyChar c) : startsWord c := by
  simp [startsWord, h]

theorem Lexeme.Key.exists_cons {name : String} (h : Key name text rest) :
    ∃ c tail, text = c :: tail ∧ startsWord c := by
  rcases h with ⟨quote, body, hquote, -, htext⟩ | h
  · exact ⟨quote, _, htext, by simp [startsWord, hquote]⟩
  · obtain ⟨c, tail, htext, hc⟩ := h.exists_cons
    exact ⟨c, tail, htext, startsWord_of_isKeyChar hc⟩

theorem Spells.exists_of_field {f : Field TypeExpr} {fields : List (Field TypeExpr)}
    (h : Spells (.fields (f :: fields)) text rest) :
    ∃ c tail, skipBlank text = c :: tail ∧ startsWord c := by
  cases h with
  | field hname => exact hname.exists_cons

theorem Spells.exists_of_fields {fields : List (Field TypeExpr)}
    (h : Spells (.fields fields) text rest) :
    ∃ c tail, skipBlank text = c :: tail ∧ (c = '\x7d' ∨ startsWord c) := by
  cases fields with
  | nil =>
    cases h with
    | done h => exact ⟨_, _, h, .inl rfl⟩
  | cons f fields =>
    obtain ⟨c, tail, htext, hc⟩ := h.exists_of_field
    exact ⟨c, tail, htext, .inr hc⟩

theorem Separator.ends {fields : List (Field TypeExpr)} (h : Separator text text')
    (hfields : Spells (.fields fields) text' rest) : Ends text := by
  cases h with
  | comma h => exact h.ends (by simp)
  | semicolon h => exact h.ends (by simp)
  | absent =>
    obtain ⟨c, tail, htext, hc⟩ := hfields.exists_of_fields
    apply Symbol.ends htext
    intro hmem
    rcases hc with rfl | hc
    · simp at hmem
    · rw [startsWord_eq_false (List.mem_append_left ['\x7d', '>', ',', ';'] hmem)] at hc
      cases hc

theorem Spells.exists_of_leaf {t : TypeExpr} (h : Spells (.leaf t) text rest) :
    ∃ c tail, skipBlank text = c :: tail ∧ (c = '\x7b' ∨ startsWord c) := by
  cases h with
  | quoted h =>
    obtain ⟨quote, body, hquote, -, htext⟩ := h
    exact ⟨quote, _, htext, .inr (by simp [startsWord, hquote])⟩
  | numeral h =>
    obtain ⟨whole, places, after, hwhole, -⟩ := h
    obtain ⟨c, tail, htext, hc⟩ := hwhole.exists_cons
    exact ⟨c, tail, htext, .inr (startsWord_of_isKeyChar (Lexeme.isKeyChar_of_isDigit hc))⟩
  | word h =>
    obtain ⟨c, tail, htext, hc⟩ := h.exists_cons
    exact ⟨c, tail, htext, .inr (startsWord_of_isKeyChar (Lexeme.isKeyChar_of_isWordChar hc))⟩
  | array hname =>
    obtain ⟨c, tail, htext, hc⟩ := hname.exists_cons
    exact ⟨c, tail, htext, .inr (startsWord_of_isKeyChar (Lexeme.isKeyChar_of_isWordChar hc))⟩
  | object hopen => exact ⟨_, _, hopen, .inl rfl⟩

end

namespace TypeExpr

variable {depth : Nat} {l r t : TypeExpr}

theorem Allowed.of_le {n : Nat} (h : t.Allowed depth) (hn : n ≤ depth) : t.Allowed n :=
  ⟨h.1, Nat.le_trans (Nat.add_le_add_right hn _) h.2⟩

theorem allowed_leaf {k : Leaf} : Allowed depth (.leaf k) ↔ depth ≤ maxDepth := by
  simp [Allowed, levels]

theorem allowed_object {fields : List (Field TypeExpr)} : Allowed depth (.object fields) ↔
    depth ≤ maxDepth ∧ (fields.map Field.name).Nodup ∧
      ∀ f ∈ fields, Allowed (depth + 1) f.type := by
  have hlevels : depth + fieldLevels 0 fields ≤ maxDepth ↔
      depth ≤ maxDepth ∧ ∀ f ∈ fields, depth + 1 + f.type.levels 0 ≤ maxDepth := by
    by_cases hdepth : depth ≤ maxDepth
    · rw [← Nat.le_sub_iff_add_le' hdepth, fieldLevels_le]
      simp only [Nat.zero_le, hdepth, true_and]
      exact forall₂_congr fun f _ => by omega
    · have : ¬ depth + fieldLevels 0 fields ≤ maxDepth := by omega
      simp [this, hdepth]
  simp only [Allowed, distinctNames_object, levels, hlevels, forall_and]
  constructor
  · rintro ⟨⟨hnames, hdistinct⟩, hdepth, hfields⟩
    exact ⟨hdepth, hnames, hdistinct, hfields⟩
  · rintro ⟨hdepth, hnames, hdistinct, hfields⟩
    exact ⟨⟨hnames, hdistinct⟩, hdepth, hfields⟩

theorem allowed_array : Allowed depth (.array t) ↔ Allowed (depth + 1) t := by
  rw [Allowed, Allowed, distinctNames_array, levels, Nat.add_right_comm, Nat.add_assoc]

theorem allowed_group : Allowed depth (.group t) ↔ Allowed (depth + 1) t := by
  rw [Allowed, Allowed, distinctNames_group, levels, Nat.add_right_comm, Nat.add_assoc]

theorem allowed_and : Allowed depth (.and l r) ↔ Allowed depth l ∧ Allowed depth r := by
  rw [Allowed, Allowed, Allowed, distinctNames_and, levels, ← Nat.add_max_add_left,
    Nat.max_le]
  exact and_and_and_comm

theorem allowed_or : Allowed depth (.or l r) ↔ Allowed depth l ∧ Allowed depth r := by
  rw [Allowed, Allowed, Allowed, distinctNames_or, levels, ← Nat.add_max_add_left,
    Nat.max_le]
  exact and_and_and_comm

end TypeExpr

end StructuralTypes
