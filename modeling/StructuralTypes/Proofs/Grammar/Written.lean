import StructuralTypes.Proofs.Canonical
import StructuralTypes.Proofs.Grammar.Sentence

namespace StructuralTypes

/-- A word, a name or a number in front of the text ends there. -/
def Apart (rest : List Char) : Prop :=
  ∀ c ∈ rest.head?, Lexeme.isKeyChar c = false ∧ c ≠ '.'

section

variable {p : Char → Bool} {c : Char} {body text rest : List Char}

theorem not_isBlank_of_isKeyChar (h : Lexeme.isKeyChar c) : isBlank c = false := by
  rw [Bool.eq_false_iff]
  intro hblank
  have heq (d : Char) : c = d ↔ c.val.toNat = d.val.toNat := by
    rw [UInt32.toNat_inj, Char.ext_iff]
  simp only [Lexeme.isKeyChar, isBlank, Char.isAlphanum, Lexeme.isAlpha_iff, Char.isDigit,
    Bool.or_eq_true, Bool.and_eq_true, decide_eq_true_eq, beq_iff_eq, ge_iff_le, Char.le_def,
    UInt32.le_iff_toNat_le, heq] at h hblank
  simp only [↓Char.isValue, Char.reduceVal, UInt32.reduceToNat, Char.toNat_val] at h hblank
  omega

theorem skipBlank_cons (h : isBlank c = false) : skipBlank (c :: text) = c :: text := by
  simp [skipBlank, h]

theorem skipBlank_blank_cons (h : isBlank c) : skipBlank (c :: text) = skipBlank text := by
  simp [skipBlank, h]

theorem apart_cons (h : Lexeme.isKeyChar c = false ∧ c ≠ '.') : Apart (c :: rest) := by
  intro d hd
  obtain rfl := Option.some_inj.1 hd
  exact h

theorem symbol_cons (h : isBlank c = false) : Symbol c (c :: rest) rest :=
  skipBlank_cons h

theorem symbol_space_cons (h : isBlank c = false) : Symbol c (' ' :: c :: rest) rest :=
  (skipBlank_blank_cons (by decide)).trans (skipBlank_cons h)

theorem Apart.longest (h : Apart rest) (hp : ∀ c, p c → Lexeme.isKeyChar c) (hne : body ≠ [])
    (hbody : ∀ c ∈ body, p c) : Lexeme.Longest p body (body ++ rest) rest := by
  refine ⟨hne, hbody, rfl, fun c hc => ?_⟩
  have := (h c hc).1
  rw [Bool.eq_false_iff] at this ⊢
  exact fun hpc => this (hp c hpc)

/-- What begins with a character of a name has no blanks in front. -/
theorem skipBlank_append (hp : ∀ c, p c → Lexeme.isKeyChar c) (hne : body ≠ [])
    (hbody : ∀ c ∈ body, p c) : skipBlank (body ++ rest) = body ++ rest := by
  obtain ⟨c, cs, rfl⟩ := List.exists_cons_of_ne_nil hne
  exact skipBlank_cons (not_isBlank_of_isKeyChar (hp c (hbody c List.mem_cons_self)))

end

theorem Quoted.encodes_escape (value : List Char) : Encodes '\x22' value (escape value) := by
  induction value with
  | nil => exact .nil
  | cons c value ih =>
    rw [escape]
    split
    · exact .escaped ih
    · next h =>
      rw [not_or] at h
      exact .plain h.1 h.2 ih

theorem Quoted.toList_write (text : String) :
    (write text).toList = '\x22' :: (escape text.toList ++ ['\x22']) := by
  simp [write]

theorem Lexeme.quotedText_write (text : String) (rest : List Char) :
    QuotedText text ((Quoted.write text).toList ++ rest) rest := by
  refine ⟨'\x22', _, rfl, Quoted.encodes_escape _, ?_⟩
  rw [Quoted.toList_write]
  simp

namespace Decimal

variable {d : Decimal}

theorem isDigit_of_mem_digits {c : Char} (h : c ∈ d.digits) : c.isDigit := by
  rw [digits, List.mem_append] at h
  rcases h with h | h
  · rw [List.eq_of_mem_replicate h]
    rfl
  · exact Nat.isDigit_of_mem_toDigits (by decide) (by decide) h

theorem scale_lt_length_digits : d.scale < d.digits.length := by
  rw [digits, List.length_append, List.length_replicate]
  omega

theorem ofDigitChars_digits : Nat.ofDigitChars 10 d.digits 0 = d.coefficient.natAbs := by
  rw [digits, Nat.ofDigitChars_append, Nat.ofDigitChars_replicate_zero, Nat.mul_zero,
    Nat.ofDigitChars_ten_toDigits]

theorem numeral_text (h : 0 ≤ d.coefficient) {rest : List Char} (hrest : Apart rest) :
    Lexeme.Numeral d (d.text.toList ++ rest) rest := by
  obtain ⟨whole, fraction, hdigits, hne, hscale, htext⟩ : ∃ whole fraction,
      d.digits = whole ++ fraction ∧ whole ≠ [] ∧ d.scale = fraction.length ∧
        d.text.toList = whole ++ (if fraction.isEmpty then [] else '.' :: fraction) := by
    have hlt := d.scale_lt_length_digits
    refine ⟨_, _, (List.take_append_drop (d.digits.length - d.scale) _).symm, ?_, ?_, ?_⟩
    · rw [← List.length_pos_iff, List.length_take]
      omega
    · rw [List.length_drop]
      omega
    · simp only [text, if_neg (Int.not_lt.2 h)]
      split <;> simp
  have hall : ∀ c ∈ whole ++ fraction, c.isDigit := fun c hc => isDigit_of_mem_digits (hdigits ▸ hc)
  rw [List.forall_mem_append] at hall
  have hcoefficient : d.coefficient = Nat.ofDigitChars 10 (whole ++ fraction) 0 := by
    rw [← hdigits, ofDigitChars_digits, Int.natAbs_of_nonneg h]
  have hkey := fun c => Lexeme.isKeyChar_of_isDigit (c := c)
  rw [htext]
  cases fraction with
  | nil =>
    have hwhole := hrest.longest hkey hne hall.1
    refine ⟨whole, [], rest, by simpa using hwhole, .none fun c after heq => ?_, hcoefficient,
      hscale⟩
    exact absurd rfl (hrest '.' (by simp [heq])).2
  | cons c cs =>
    refine ⟨whole, c :: cs, '.' :: (c :: cs ++ rest), ?_, .point ?_, hcoefficient, hscale⟩
    · exact ⟨hne, hall.1, by simp, by simp⟩
    · exact hrest.longest hkey (by simp) hall.2

end Decimal

variable {rest : List Char}

theorem spells_word {name : String} (hne : name ≠ "")
    (hname : ∀ c ∈ name.toList, Lexeme.isWordChar c) (harray : name ≠ "Array")
    (hrest : Apart rest) : Spells (.leaf (.leaf (.ofWord name))) (name.toList ++ rest) rest := by
  have hne' : name.toList ≠ [] := by simpa using hne
  have hkey := fun c => Lexeme.isKeyChar_of_isWordChar (c := c)
  refine .word ?_ harray
  rw [skipBlank_append hkey hne' hname]
  exact hrest.longest hkey hne' hname

theorem spells_keyword {name : String} (h : name ∈ Leaf.keywords) (hrest : Apart rest) :
    Spells (.leaf (.leaf (.ofWord name))) (name.toList ++ rest) rest := by
  simp only [Leaf.keywords, List.mem_cons, List.not_mem_nil, or_false] at h
  rcases h with rfl | rfl | rfl | rfl | rfl | rfl | rfl <;>
    exact spells_word (by decide) (List.all_eq_true.1 (by decide +kernel)) (by decide) hrest

theorem skipBlank_write (s : String) :
    skipBlank ((Quoted.write s).toList ++ rest) = (Quoted.write s).toList ++ rest := by
  rw [Quoted.toList_write, List.cons_append, skipBlank_cons (by decide)]

theorem spells_leaf_render {l : Leaf} (h : l.Printable) (hrest : Apart rest) :
    Spells (.leaf (.leaf l)) (l.render.toList ++ rest) rest := by
  have hkeyword (name : String) (h : name ∈ Leaf.keywords) := spells_keyword h hrest
  cases l with
  | text value =>
    apply Spells.quoted
    rw [Leaf.render, skipBlank_write]
    exact Lexeme.quotedText_write value rest
  | numeral value =>
    have hnumeral := Decimal.numeral_text h hrest
    obtain ⟨whole, places, after, hwhole, -⟩ := id hnumeral
    obtain ⟨c, tail, htext, hc⟩ := hwhole.exists_cons
    have hblank := not_isBlank_of_isKeyChar (Lexeme.isKeyChar_of_isDigit hc)
    apply Spells.numeral
    rwa [Leaf.render, htext, skipBlank_cons hblank, ← htext]
  | word name =>
    obtain ⟨hne, hname, hnew, harray⟩ := h
    have hword := spells_word hne hname harray hrest
    rwa [Leaf.ofWord_of_not_mem hnew] at hword
  | string => exact hkeyword "string" (by decide)
  | number => exact hkeyword "number" (by decide)
  | boolean => exact hkeyword "boolean" (by decide)
  | date => exact hkeyword "Date" (by decide)
  | true => exact hkeyword "true" (by decide)
  | false => exact hkeyword "false" (by decide)
  | null => exact hkeyword "null" (by decide)

theorem key_renderKey (name : String) (hrest : Apart rest) :
    Lexeme.Key name (skipBlank ((TypeExpr.renderKey name).toList ++ rest)) rest := by
  unfold TypeExpr.renderKey
  split
  · next h =>
    have hne : name.toList ≠ [] := by simpa using h.1
    have hname := List.all_eq_true.1 h.2
    rw [skipBlank_append (fun _ => id) hne hname]
    exact .inr (hrest.longest (fun _ => id) hne hname)
  · rw [skipBlank_write]
    exact .inl (Lexeme.quotedText_write name rest)

theorem Layout.exists_gap (layout : Layout) (level : Nat) :
    ∃ c n, (layout.gap level).toList = c :: List.replicate n ' ' ∧ isBlank c ∧
      Lexeme.isKeyChar c = false ∧ c ≠ '.' := by
  cases layout with
  | compact => exact ⟨' ', 0, by simp [gap], by decide⟩
  | pretty => exact ⟨'\n', 2 * level, by simp [gap], by decide⟩

theorem skipBlank_gap (layout : Layout) (level : Nat) (text : List Char) :
    skipBlank ((layout.gap level).toList ++ text) = skipBlank text := by
  obtain ⟨c, n, hgap, hc, -⟩ := layout.exists_gap level
  apply List.dropWhile_append_of_pos
  intro d hd
  rw [hgap, List.mem_cons] at hd
  rcases hd with rfl | hd
  · exact hc
  · rw [List.eq_of_mem_replicate hd]
    rfl

theorem apart_gap (layout : Layout) (level : Nat) (text : List Char) :
    Apart ((layout.gap level).toList ++ text) := by
  obtain ⟨c, n, hgap, -, hc⟩ := layout.exists_gap level
  intro d hd
  rw [hgap, List.cons_append, List.head?_cons, Option.mem_some] at hd
  exact hd ▸ hc

end StructuralTypes
