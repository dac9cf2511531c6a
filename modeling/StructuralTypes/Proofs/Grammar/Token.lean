import StructuralTypes.Reading.Lexeme

namespace StructuralTypes

namespace Quoted

/-- The body of quoted text that means `value`: a backslash may stand before any character, and has
to before the quote and another backslash. -/
inductive Encodes (quote : Char) : List Char → List Char → Prop
  | nil : Encodes quote [] []
  | plain {c value body} (hquote : c ≠ quote) (hslash : c ≠ '\\') (h : Encodes quote value body) :
    Encodes quote (c :: value) (c :: body)
  | escaped {c value body} (h : Encodes quote value body) :
    Encodes quote (c :: value) ('\\' :: c :: body)

variable {quote : Char}

theorem read_cons {c : Char} (hc : c ≠ '\\') (rest : List Char) :
    read quote (c :: rest) = if c = quote then some ([], rest)
      else (read quote rest).map fun (text, after) => (c :: text, after) := by
  rw [read] <;> simp [hc]

theorem read_of_encodes (hquote : quote ≠ '\\') {value body : List Char}
    (h : Encodes quote value body) (rest : List Char) :
    read quote (body ++ quote :: rest) = some (value, rest) := by
  induction h with
  | nil => rw [List.nil_append, read_cons hquote, if_pos rfl]
  | plain hc hslash h ih => rw [List.cons_append, read_cons hslash, if_neg hc, ih, Option.map_some]
  | escaped h ih => rw [List.cons_append, List.cons_append, read, ih, Option.map_some]

theorem exists_encodes_of_read {text value rest : List Char}
    (h : read quote text = some (value, rest)) :
    ∃ body, Encodes quote value body ∧ text = body ++ quote :: rest := by
  fun_induction read quote text generalizing value with
  | case1 => cases h
  | case2 c text ih =>
    obtain ⟨⟨u, after⟩, hu, hv⟩ := Option.map_eq_some_iff.1 h
    cases hv
    obtain ⟨body, hbody, rfl⟩ := ih hu
    exact ⟨_, .escaped hbody, rfl⟩
  | case3 => cases h
  | case4 text =>
    cases h
    exact ⟨[], .nil, rfl⟩
  | case5 c text hpair hlast hc ih =>
    obtain ⟨⟨u, after⟩, hu, hv⟩ := Option.map_eq_some_iff.1 h
    cases hv
    obtain ⟨body, hbody, rfl⟩ := ih hu
    have hslash : c ≠ '\\' := by
      rintro rfl
      cases body with
      | nil => exact hpair _ _ rfl rfl
      | cons d body => exact hpair _ _ rfl rfl
    exact ⟨_, .plain hc hslash hbody, rfl⟩

theorem ne_backslash_of_isQuote (h : isQuote quote) : quote ≠ '\\' := by
  rintro rfl
  revert h
  decide

theorem read_eq_some_iff (h : isQuote quote) {text value rest : List Char} :
    read quote text = some (value, rest) ↔
      ∃ body, Encodes quote value body ∧ text = body ++ quote :: rest := by
  refine ⟨exists_encodes_of_read, ?_⟩
  rintro ⟨body, hbody, rfl⟩
  exact read_of_encodes (ne_backslash_of_isQuote h) hbody rest

end Quoted

namespace Decimal

theorem ofDigits_eq_some_iff {whole places : List Char} {d : Decimal} :
    ofDigits whole places = some d ↔
      d.coefficient = Nat.ofDigitChars 10 (whole ++ places) 0 ∧ d.scale = places.length := by
  unfold ofDigits
  dsimp only
  split
  · rw [Option.some_inj, eq_comm, Decimal.mk.injEq]
  · next hinexact =>
    refine ⟨nofun, fun ⟨hcoefficient, hscale⟩ => absurd ⟨?_, ?_⟩ hinexact⟩
    · have := d.coefficient_lt
      rwa [hcoefficient, Int.natAbs_natCast] at this
    · exact hscale ▸ d.scale_le

end Decimal

namespace Lexeme

variable {p : Char → Bool} {body text rest : List Char} {s : String}

/-- `body` is the longest run of `p` at the front of the text, and is not empty. -/
structure Longest (p : Char → Bool) (body text rest : List Char) : Prop where
  ne_nil : body ≠ []
  all : ∀ c ∈ body, p c
  split : text = body ++ rest
  ends : ∀ c ∈ rest.head?, p c = false

inductive Fraction : List Char → List Char → List Char → Prop
  | point {places digits after} (h : Longest Char.isDigit places digits after) :
    Fraction places ('.' :: digits) after
  | none {after} (h : ∀ d rest, after = '.' :: d :: rest → d.isDigit = false) :
    Fraction [] after after

def Numeral (d : Decimal) (text rest : List Char) : Prop :=
  ∃ whole places after, Longest Char.isDigit whole text after ∧ Fraction places after rest ∧
    d.coefficient = Nat.ofDigitChars 10 (whole ++ places) 0 ∧ d.scale = places.length

def QuotedText (s : String) (text rest : List Char) : Prop :=
  ∃ quote body, Quoted.isQuote quote ∧ Quoted.Encodes quote s.toList body ∧
    text = quote :: (body ++ quote :: rest)

def Key (name : String) (text rest : List Char) : Prop :=
  QuotedText name text rest ∨ Longest isKeyChar name.toList text rest

theorem Longest.exists_cons (h : Longest p body text rest) : ∃ c tail, text = c :: tail ∧ p c := by
  obtain ⟨c, tail, rfl⟩ := List.exists_cons_of_ne_nil h.ne_nil
  exact ⟨c, tail ++ rest, h.split, h.all c List.mem_cons_self⟩

theorem longest_iff :
    Longest p body text rest ↔ body ≠ [] ∧ text.takeWhile p = body ∧ text.dropWhile p = rest := by
  constructor
  · rintro ⟨hne, hall, rfl, hends⟩
    have hrest : rest.takeWhile p = [] ∧ rest.dropWhile p = rest := by
      cases rest with
      | nil => simp
      | cons c rest => simp [hends c (by simp)]
    rw [List.takeWhile_append_of_pos hall, List.dropWhile_append_of_pos hall, hrest.1, hrest.2]
    simp [hne]
  · rintro ⟨hne, rfl, rfl⟩
    refine ⟨hne, fun c hc => ?_, List.takeWhile_append_dropWhile.symm, fun c hc => ?_⟩
    · exact List.all_eq_true.1 List.all_takeWhile c hc
    · have := List.head?_dropWhile_not p text
      rw [Option.mem_def.1 hc] at this
      simpa using this

theorem run_eq_ok_iff {missing : String → ReadError} :
    run p missing text = .ok (s, rest) ↔ Longest p s.toList text rest := by
  rw [longest_iff, run]
  split
  · next hnil =>
    rw [hnil]
    simp +contextual
  · next c cs hcs =>
    rw [hcs, Except.ok.injEq, Prod.mk.injEq, ← String.toList_inj, String.toList_ofList]
    constructor
    · rintro ⟨hs, rfl⟩
      simp [← hs]
    · rintro ⟨-, hs, rfl⟩
      exact ⟨hs, rfl⟩

theorem fraction_eq_iff {places : List Char} :
    fraction text = (places, rest) ↔ Fraction places text rest := by
  constructor
  · intro h
    unfold fraction at h
    split at h
    · next d after =>
      split at h
      · next hd =>
        cases h
        exact .point (longest_iff.2 ⟨by simp [hd], rfl, rfl⟩)
      · next hd =>
        cases h
        exact .none fun _ _ heq => by cases heq; simpa using hd
    · next hne =>
      cases h
      exact .none fun d after heq => absurd heq (hne d after)
  · intro h
    cases h with
    | @point _ digits _ h =>
      obtain ⟨hne, rfl, rfl⟩ := longest_iff.1 h
      cases digits with
      | nil => simp at hne
      | cons d after =>
        by_cases hd : d.isDigit
        · simp only [fraction, if_pos hd]
        · simp [hd] at hne
    | none h =>
      unfold fraction
      split
      · next d after => simp [h d after rfl]
      · rfl

theorem number_eq_ok_iff {d : Decimal} : number text = .ok (d, rest) ↔ Numeral d text rest := by
  unfold number numberBy
  split
  · next hnil =>
    refine ⟨nofun, ?_⟩
    rintro ⟨whole, places, after, hwhole, -⟩
    exact absurd ((longest_iff.1 hwhole).2.1.symm.trans hnil) hwhole.ne_nil
  · next hne =>
    obtain ⟨places, after, hfraction⟩ : ∃ places after,
      fraction (text.dropWhile Char.isDigit) = (places, after) := ⟨_, _, rfl⟩
    have hwhole : Longest Char.isDigit (text.takeWhile Char.isDigit) text _ :=
      longest_iff.2 ⟨hne, rfl, rfl⟩
    simp only [hfraction]
    constructor
    · intro h
      split at h
      · next e hd =>
        cases h
        rw [Decimal.ofDigits_eq_some_iff] at hd
        exact ⟨_, _, _, hwhole, fraction_eq_iff.1 hfraction, hd⟩
      · cases h
    · rintro ⟨whole', places', after', hwhole', hfraction', hd⟩
      obtain ⟨-, rfl, rfl⟩ := longest_iff.1 hwhole'
      rw [← fraction_eq_iff, hfraction, Prod.mk.injEq] at hfraction'
      obtain ⟨rfl, rfl⟩ := hfraction'
      simp only [Decimal.ofDigits_eq_some_iff.2 hd]

theorem quoted_cons_eq_ok_iff {quote : Char} (hquote : Quoted.isQuote quote) :
    quoted (quote :: text) = .ok (s, rest) ↔ Quoted.read quote text = some (s.toList, rest) := by
  rw [quoted, if_pos hquote]
  rcases Quoted.read quote text with _ | ⟨value, after⟩
  · simp
  · rw [Except.ok.injEq, Prod.mk.injEq, Option.some_inj, Prod.mk.injEq, ← String.toList_inj,
      String.toList_ofList]

theorem quoted_eq_ok_iff : quoted text = .ok (s, rest) ↔ QuotedText s text rest := by
  constructor
  · intro h
    cases text with
    | nil => cases h
    | cons quote body =>
      by_cases hquote : Quoted.isQuote quote
      · rw [quoted_cons_eq_ok_iff hquote, Quoted.read_eq_some_iff hquote] at h
        obtain ⟨inside, hinside, rfl⟩ := h
        exact ⟨quote, inside, hquote, hinside, rfl⟩
      · rw [quoted, if_neg hquote] at h
        cases h
  · rintro ⟨quote, body, hquote, hbody, rfl⟩
    rw [quoted_cons_eq_ok_iff hquote, Quoted.read_eq_some_iff hquote]
    exact ⟨body, hbody, rfl⟩

theorem not_isQuote_of_isKeyChar {c : Char} (h : isKeyChar c) : Quoted.isQuote c = false := by
  rw [Bool.eq_false_iff]
  intro hquote
  simp only [Quoted.isQuote, Bool.or_eq_true, beq_iff_eq] at hquote
  rcases hquote with rfl | rfl <;> revert h <;> decide

theorem isKeyChar_of_isDigit {c : Char} (h : c.isDigit) : isKeyChar c := by
  simp [isKeyChar, Char.isAlphanum, h]

theorem isKeyChar_of_isWordChar {c : Char} (h : isWordChar c) : isKeyChar c := by
  simp only [isWordChar, Bool.or_eq_true] at h
  rcases h with h | h <;> simp [isKeyChar, Char.isAlphanum, h]

theorem isAlpha_iff {c : Char} : c.isAlpha ↔
    (65 ≤ c.val ∧ c.val ≤ 90) ∨ (97 ≤ c.val ∧ c.val ≤ 122) := by
  have hlower : c.isLower ↔ 97 ≤ c.val ∧ c.val ≤ 122 :=
    (Bool.and_eq_true _ _).to_iff.trans (and_congr decide_eq_true_iff decide_eq_true_iff)
  exact (Bool.or_eq_true _ _).to_iff.trans (or_congr decide_eq_true_iff hlower)

theorem not_isDigit_of_isWordChar {c : Char} (h : isWordChar c) : c.isDigit = false := by
  rw [Bool.eq_false_iff]
  intro hdigit
  simp only [isWordChar, isAlpha_iff, Char.isDigit, Bool.or_eq_true, Bool.and_eq_true,
    decide_eq_true_eq, beq_iff_eq, ge_iff_le] at h hdigit
  rcases h with (h | h) | rfl
  · have := UInt32.le_trans h.1 hdigit.2
    revert this
    decide
  · have := UInt32.le_trans h.1 hdigit.2
    revert this
    decide
  · revert hdigit
    decide

theorem key_eq_ok_iff : key text = .ok (s, rest) ↔ Key s text rest := by
  cases text with
  | nil =>
    refine ⟨nofun, ?_⟩
    rintro (⟨quote, body, -, -, heq⟩ | h)
    · cases heq
    · obtain ⟨c, tail, heq, -⟩ := h.exists_cons
      cases heq
  | cons c text =>
    rw [key]
    split
    · next hquote =>
      refine quoted_eq_ok_iff.trans (or_iff_left fun h => ?_).symm
      obtain ⟨_, tail, heq, hc⟩ := h.exists_cons
      cases heq
      exact absurd hquote (by simp [not_isQuote_of_isKeyChar hc])
    · next hquote =>
      refine run_eq_ok_iff.trans (or_iff_right ?_).symm
      rintro ⟨_, body, hquote', -, heq⟩
      cases heq
      exact hquote hquote'

end Lexeme
end StructuralTypes
