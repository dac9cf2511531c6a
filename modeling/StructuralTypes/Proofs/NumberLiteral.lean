import Mathlib.Algebra.Field.Rat
import Mathlib.Data.Rat.Cast.Order
import Mathlib.Tactic.FieldSimp
import Mathlib.Tactic.NormNum
import StructuralTypes.Proofs.Acceptance
import StructuralTypes.Proofs.Grammar.Token

namespace StructuralTypes

namespace Decimal

def value (d : Decimal) : ℚ :=
  d.coefficient / 10 ^ d.scale

variable {d : Decimal} {n : Int}

theorem unit_pos : 0 < d.unit :=
  Nat.pow_pos (by decide)

theorem value_eq_div : d.value = d.coefficient / d.unit := by
  have hunit : (d.unit : ℚ) = 10 ^ d.scale := by
    change ((10 ^ d.scale : ℕ) : ℚ) = _
    push_cast
    rfl
  rw [value, hunit]

theorem eq_value_iff : (n : ℚ) = d.value ↔ n * d.unit = d.coefficient := by
  have hne : (d.unit : ℚ) ≠ 0 := Nat.cast_ne_zero.2 unit_pos.ne'
  rw [value_eq_div, eq_div_iff hne]
  exact_mod_cast Iff.rfl

end Decimal

namespace Lexeme

inductive Literal : List Char → List Char → List Char → Prop
  | whole {whole} (hne : whole ≠ []) (h : ∀ c ∈ whole, c.isDigit) : Literal whole [] whole
  | point {whole places} (hne : whole ≠ []) (h : ∀ c ∈ whole, c.isDigit) (hplaces : places ≠ [])
    (hdigits : ∀ c ∈ places, c.isDigit) : Literal whole places (whole ++ '.' :: places)

/-- Of all number literals at the front of the text this is the longest, and `rest` is what comes
after it. -/
structure LongestLiteral (whole places spelled text rest : List Char) : Prop where
  literal : Literal whole places spelled
  split : text = spelled ++ rest
  longest : ∀ whole' places' other, Literal whole' places' other → other <+: text →
    other.length ≤ spelled.length

def literalValue (whole places : List Char) : ℚ :=
  Nat.ofDigitChars 10 whole 0 + Nat.ofDigitChars 10 places 0 / 10 ^ places.length

/-- A literal with these digits is exact with 28 decimal places and 96 bits. -/
def Fits (whole places : List Char) : Prop :=
  places.length ≤ 28 ∧ Nat.ofDigitChars 10 (whole ++ places) 0 < 2 ^ 96

variable {p : Char → Bool} {whole places text rest after body other tail : List Char} {c : Char}
  {d : Decimal} {n : Int}

theorem Longest.prefix_of (h : Longest p body text rest) (hother : ∀ x ∈ other, p x)
    (hfront : other <+: text) : other <+: body := by
  rw [h.split] at hfront
  rcases List.prefix_or_prefix_of_prefix hfront (List.prefix_append body rest) with hle | hle
  · exact hle
  · obtain ⟨more, rfl⟩ := hle
    cases more with
    | nil => simp
    | cons x more =>
      have hx : x ∈ rest.head? := by
        obtain ⟨last, hlast⟩ := (List.prefix_append_right_inj body).1 hfront
        rw [← hlast]
        rfl
      have hp := hother x (by simp)
      rw [h.ends x hx] at hp
      cases hp

/-- A run that another character ends is the longest one. -/
theorem Longest.eq_of_append (h : Longest p body text rest) (hother : ∀ x ∈ other, p x)
    (hc : p c = false) (hfront : other ++ c :: tail <+: text) :
    other = body ∧ c :: tail <+: rest := by
  obtain ⟨more, rfl⟩ := h.prefix_of hother ((List.prefix_append _ _).trans hfront)
  rw [h.split, List.append_assoc, List.prefix_append_right_inj] at hfront
  cases more with
  | nil => exact ⟨(List.append_nil other).symm, hfront⟩
  | cons x more =>
    obtain rfl : c = x := (List.cons_prefix_cons.1 hfront).1
    have hp := h.all c (by simp)
    rw [hc] at hp
    cases hp

/-- The digits that reading takes are those of the longest literal. -/
theorem longestLiteral_of (hwhole : Longest Char.isDigit whole text after)
    (hfraction : Fraction places after rest) :
    LongestLiteral whole places (whole ++ (if places.isEmpty then [] else ['.']) ++ places) text
      rest := by
  cases hfraction with
  | @point places digits rest hplaces =>
    have hne : places.isEmpty = false := by simpa using hplaces.ne_nil
    simp only [hne, Bool.false_eq_true, if_false, List.append_assoc, List.singleton_append]
    refine ⟨.point hwhole.ne_nil hwhole.all hplaces.ne_nil hplaces.all, ?_, ?_⟩
    · rw [hwhole.split, hplaces.split, List.append_assoc, List.cons_append]
    · intro whole' places' other hother hfront
      cases hother with
      | whole _ hall =>
        have hle := (hwhole.prefix_of hall hfront).length_le
        simp only [List.length_append, List.length_cons]
        omega
      | point _ hall _ hdigits =>
        obtain ⟨rfl, hrest⟩ := hwhole.eq_of_append hall rfl hfront
        have hle := (hplaces.prefix_of hdigits (List.cons_prefix_cons.1 hrest).2).length_le
        simp only [List.length_append, List.length_cons]
        omega
  | none hnone =>
    simp only [List.isEmpty_nil, if_true, List.append_nil]
    refine ⟨.whole hwhole.ne_nil hwhole.all, hwhole.split, ?_⟩
    intro whole' places' other hother hfront
    cases hother with
    | whole _ hall => exact (hwhole.prefix_of hall hfront).length_le
    | point _ hall hplaces hdigits =>
      obtain ⟨rfl, hrest⟩ := hwhole.eq_of_append hall rfl hfront
      obtain ⟨x, more, rfl⟩ := List.exists_cons_of_ne_nil hplaces
      obtain ⟨last, hlast⟩ := hrest
      have hx := hnone x (more ++ last) hlast.symm
      rw [hdigits x (by simp)] at hx
      cases hx

theorem numberBy_of_longest {ofDigits : List Char → List Char → Option Decimal}
    (hwhole : Longest Char.isDigit whole text after) (hfraction : Fraction places after rest) :
    numberBy ofDigits text = match ofDigits whole places with
      | some d => .ok (d, rest)
      | none => .error (.inexactNumber
          (.ofList (whole ++ (if places.isEmpty then [] else ['.']) ++ places))) := by
  obtain ⟨hne, hbody, rfl⟩ := longest_iff.1 hwhole
  unfold numberBy
  rw [hbody]
  split
  · next hnil => exact absurd rfl hne
  · cases hd : ofDigits whole places <;> simp only [fraction_eq_iff.2 hfraction, hd]

theorem exists_longest_of_isDigit (hc : c.isDigit) (cs : List Char) :
    ∃ whole places after rest,
      Longest Char.isDigit whole (c :: cs) after ∧ Fraction places after rest := by
  have hne : (c :: cs).takeWhile Char.isDigit ≠ [] := by simp [hc]
  exact ⟨_, _, _, _, longest_iff.2 ⟨hne, rfl, rfl⟩, fraction_eq_iff.1 rfl⟩

end Lexeme

namespace Decimal

open Lexeme

/-- What is relied on of decimals: digits are never rounded, an integer is a decimal exactly if 96
bits hold it, and two decimals are the same if their values are. -/
structure Laws (ofDigits : List Char → List Char → Option Decimal) (ofInt? : Int → Option Decimal)
    (same : Decimal → Decimal → Bool) : Prop where
  ofDigits_isSome : ∀ whole places, (ofDigits whole places).isSome ↔ Fits whole places
  of_ofDigits : ∀ {whole places d}, ofDigits whole places = some d →
    d.value = literalValue whole places ∧ d.scale = places.length
  ofInt?_isSome : ∀ n, (ofInt? n).isSome ↔ n.natAbs < 2 ^ 96
  value_of_ofInt? : ∀ {n d}, ofInt? n = some d → d.value = n
  same_iff : ∀ d e, same d e ↔ d.value = e.value

variable {d e : Decimal} {n : Int} {whole places : List Char}

theorem value_of_ofDigits (h : ofDigits whole places = some d) :
    d.value = literalValue whole places := by
  obtain ⟨hcoefficient, hscale⟩ := ofDigits_eq_some_iff.1 h
  rw [value, literalValue, hcoefficient, hscale, Nat.ofDigitChars_append,
    Nat.ofDigitChars_eq_ofDigitChars_zero]
  push_cast
  field_simp

theorem same_iff : d.same e ↔ d.value = e.value := by
  have hd : (d.unit : ℚ) ≠ 0 := Nat.cast_ne_zero.2 unit_pos.ne'
  have he : (e.unit : ℚ) ≠ 0 := Nat.cast_ne_zero.2 unit_pos.ne'
  rw [same, beq_iff_eq, value_eq_div, value_eq_div, div_eq_div_iff hd he]
  exact_mod_cast Iff.rfl

theorem laws : Laws ofDigits ofInt? same where
  ofDigits_isSome whole places := by
    unfold ofDigits
    dsimp only
    split
    · next h => exact iff_of_true rfl h.symm
    · next h => exact iff_of_false (by simp) fun hfits => h hfits.symm
  of_ofDigits h := ⟨value_of_ofDigits h, (ofDigits_eq_some_iff.1 h).2⟩
  ofInt?_isSome n := by
    unfold ofInt?
    split
    · next h => exact iff_of_true rfl h
    · next h => exact iff_of_false (by simp) h
  value_of_ofInt? h := by
    unfold ofInt? at h
    split at h
    · cases h
      simp [value]
    · cases h
  same_iff _ _ := same_iff

variable {makes : List Char → List Char → Option Decimal} {makesInt? : Int → Option Decimal}
  {equals : Decimal → Decimal → Bool}

/-- An integer of more than 96 bits is no decimal, and the others are compared exactly. -/
theorem Laws.isIntBy_iff (h : Laws makes makesInt? equals) :
    isIntBy makesInt? equals d n ↔ (n : ℚ) = d.value := by
  unfold isIntBy
  cases hn : makesInt? n with
  | some e =>
    dsimp only
    rw [h.same_iff, h.value_of_ofInt? hn]
  | none =>
    refine iff_of_false (by simp) fun hvalue => ?_
    have hlarge : ¬ n.natAbs < 2 ^ 96 := by
      rw [← h.ofInt?_isSome, hn]
      exact nofun
    rw [eq_value_iff] at hvalue
    have hsize : n.natAbs * d.unit = d.coefficient.natAbs := by
      rw [← hvalue, Int.natAbs_mul, Int.natAbs_natCast]
    have hlt : n.natAbs < 1 <<< 96 :=
      calc n.natAbs ≤ n.natAbs * d.unit := Nat.le_mul_of_pos_right _ unit_pos
        _ = d.coefficient.natAbs := hsize
        _ < 1 <<< 96 := d.coefficient_lt
    exact hlarge hlt

/-- Of a text that starts with a digit the longest number literal is read, and nothing else: as the
number that it means, with its decimal places, if it fits. A literal that does not fit is refused as
a whole. -/
theorem Laws.numberBy_exact (h : Laws makes makesInt? equals) {c : Char} (hc : c.isDigit)
    (cs : List Char) : ∃ whole places spelled rest,
      LongestLiteral whole places spelled (c :: cs) rest ∧
      (Fits whole places → ∃ d, numberBy makes (c :: cs) = .ok (d, rest) ∧
        d.value = literalValue whole places ∧ d.scale = places.length ∧
        ∀ n : Int, isIntBy makesInt? equals d n ↔ (n : ℚ) = literalValue whole places) ∧
      (¬ Fits whole places →
        numberBy makes (c :: cs) = .error (.inexactNumber (String.ofList spelled))) := by
  obtain ⟨whole, places, after, rest, hwhole, hfraction⟩ := exists_longest_of_isDigit hc cs
  have hnumber : numberBy makes (c :: cs) = _ := numberBy_of_longest hwhole hfraction
  refine ⟨whole, places, _, rest, longestLiteral_of hwhole hfraction, fun hfits => ?_,
    fun hfits => ?_⟩
  · obtain ⟨d, hd⟩ := Option.isSome_iff_exists.1 ((h.ofDigits_isSome whole places).2 hfits)
    obtain ⟨hvalue, hscale⟩ := h.of_ofDigits hd
    rw [hd] at hnumber
    refine ⟨d, hnumber, hvalue, hscale, fun n => ?_⟩
    rw [h.isIntBy_iff, hvalue]
  · rw [← h.ofDigits_isSome, Option.not_isSome_iff_eq_none] at hfits
    rw [hnumber, hfits]

end Decimal

namespace Lexeme

theorem check_numeral_eq_ok {o : Options} {d : Decimal} {n : Int} :
    (TypeExpr.leaf (.numeral d)).check o (.integer n) = .ok () ↔ d.isInt n := by
  rw [TypeExpr.check_leaf_eq_ok]
  rfl

/-- Of a text that starts with a digit the longest number literal is read, and nothing else: as the
number that it means, with its decimal places, if it fits, and an integer matches that literal
exactly if it is this number. A literal that does not fit is refused as a whole. -/
theorem number_exact {c : Char} (hc : c.isDigit) (cs : List Char) :
    ∃ whole places spelled rest, LongestLiteral whole places spelled (c :: cs) rest ∧
      (Fits whole places → ∃ d, number (c :: cs) = .ok (d, rest) ∧
        d.value = literalValue whole places ∧ d.scale = places.length ∧
        ∀ o (n : Int), (TypeExpr.leaf (.numeral d)).check o (.integer n) = .ok () ↔
          (n : ℚ) = literalValue whole places) ∧
      (¬ Fits whole places →
        number (c :: cs) = .error (.inexactNumber (String.ofList spelled))) := by
  obtain ⟨whole, places, spelled, rest, hlongest, hexact, hinexact⟩ :=
    Decimal.laws.numberBy_exact hc cs
  refine ⟨whole, places, spelled, rest, hlongest, fun hfits => ?_, hinexact⟩
  obtain ⟨d, hnumber, hvalue, hscale, hint⟩ := hexact hfits
  exact ⟨d, hnumber, hvalue, hscale, fun o n => check_numeral_eq_ok.trans (hint n)⟩

/-- The literal `07.00` is the integer 7 with two decimal places. -/
theorem number_exact_trailing_zeros : '0'.isDigit ∧ ∃ d,
    number ['0', '7', '.', '0', '0', '.', 'x'] = .ok (d, ['.', 'x']) ∧ d.scale = 2 ∧
      (∀ o, (TypeExpr.leaf (.numeral d)).check o (.integer 7) = .ok ()) ∧
      ∀ o, (TypeExpr.leaf (.numeral d)).check o (.integer 700) ≠ .ok () := by
  have hdigit : '0'.isDigit := rfl
  let e : Decimal := ⟨700, 2, by decide, by decide⟩
  have hread : number ['0', '7', '.', '0', '0', '.', 'x'] = .ok (e, ['.', 'x']) := rfl
  obtain ⟨whole, places, spelled, rest, -, hexact, hinexact⟩ :=
    number_exact hdigit ['7', '.', '0', '0', '.', 'x']
  have hfits : Fits whole places := by
    by_contra h
    cases hread.symm.trans (hinexact h)
  obtain ⟨d, hd, hvalue, -, hcheck⟩ := hexact hfits
  obtain rfl : e = d := by
    cases hread.symm.trans hd
    rfl
  have hseven : literalValue whole places = 7 := by
    rw [← hvalue]
    norm_num [e, Decimal.value]
  refine ⟨hdigit, e, hread, rfl, fun o => ?_, fun o => ?_⟩
  · rw [hcheck, hseven]
    norm_num
  · rw [Ne, hcheck, hseven]
    norm_num

end Lexeme
end StructuralTypes
