import Mathlib.Algebra.Ring.Int.Defs
import Mathlib.Data.List.Basic
import Mathlib.Data.List.TakeWhile
import StructuralTypes.Json.Reader
import StructuralTypes.Value.OfJson

namespace StructuralTypes

namespace Json

variable {m : Number} {n : Int}

namespace Number

def int? : Number → Option Int
  | .natural n => some n.toNat
  | .negative n _ => some n.toInt
  | .float _ _ => none

theorem int?_of_ofInt? (h : ofInt? n = some m) : m.int? = some n := by
  unfold ofInt? at h
  split at h
  · next hn =>
    cases h
    rw [int?, UInt64.toNat_ofNatLT, Int.toNat_of_nonneg hn.1]
  · split at h
    · next hn =>
      cases h
      rw [int?, Int64.toInt_ofIntLE]
    · cases h

theorem exists_ofInt? (hlow : -2 ^ 63 ≤ n) (hhigh : n < 2 ^ 64) : ∃ m, ofInt? n = some m := by
  have hsize : UInt64.size = 2 ^ 64 := rfl
  have hmin : Int64.minValue.toInt = -2 ^ 63 := rfl
  unfold ofInt?
  by_cases hn : 0 ≤ n
  · have hnat : n.toNat < UInt64.size := by omega
    exact ⟨_, dif_pos ⟨hn, hnat⟩⟩
  · have hneg : n < 0 ∧ Int64.minValue.toInt ≤ n := by omega
    have hnot : ¬ (0 ≤ n ∧ n.toNat < UInt64.size) := fun h => hn h.1
    exact ⟨_, (dif_neg hnot).trans (dif_pos hneg)⟩

end Number

namespace Token

variable {c : Char} {cs ds : List Char} {t : Token} {negative : Bool}

/-- The digits of a positive number do not start with a zero. -/
theorem head?_toDigits_ne {k : Nat} (h : 0 < k) : (Nat.toDigits 10 k).head? ≠ some '0' := by
  induction k using Nat.strongRecOn with
  | ind k ih =>
    rw [Nat.toDigits_eq_if (by decide)]
    by_cases hk : k < 10
    · rw [if_pos hk, List.head?_cons]
      intro hzero
      have hdigit := Nat.toNat_digitChar_of_lt_ten hk
      rw [Option.some.inj hzero] at hdigit
      have : '0'.toNat = 48 := rfl
      omega
    · rw [if_neg hk, List.head?_append_of_ne_nil _ Nat.toDigits_ne_nil]
      exact ih (k / 10) (by omega) (by omega)

theorem isSpace_of_isDigit (h : c.isDigit) : isSpace c = false := by
  rw [Bool.eq_false_iff]
  intro hspace
  simp only [isSpace, Bool.or_eq_true, beq_iff_eq] at hspace
  rcases hspace with ((rfl | rfl) | rfl) | rfl <;> revert h <;> decide

theorem first_of_isDigit (h : c.isDigit) :
    first (c :: cs) = (number false (c :: cs)).map fun (v, rest) => (.scalar v, rest) := by
  rw [first]
  all_goals
    rintro rest ⟨⟩
    revert h
    decide

theorem number_of_digits (hne : ds ≠ []) (hdigits : ∀ c ∈ ds, c.isDigit)
    (hzero : ds.head? ≠ some '0' ∨ ds.length = 1) (hint : integer? negative ds = some m) :
    number negative ds = some (.number m, []) := by
  have htake : ds.takeWhile Char.isDigit = ds := List.takeWhile_eq_self_iff.2 hdigits
  have hdrop : ds.dropWhile Char.isDigit = [] := List.dropWhile_eq_nil_iff.2 hdigits
  have hread : digits ds = some (ds, []) := by
    unfold digits
    split
    · next hnil => exact absurd (htake.symm.trans hnil) hne
    · rw [htake, hdrop]
  unfold number
  rw [hread]
  simp [guard, hzero, fraction, exponent, hint]

theorem number_toDigits {k : Nat} (hint : integer? negative (Nat.toDigits 10 k) = some m) :
    number negative (Nat.toDigits 10 k) = some (.number m, []) := by
  have hdigits : ∀ c ∈ Nat.toDigits 10 k, c.isDigit := fun c hc =>
    Nat.isDigit_of_mem_toDigits (by decide) (by decide) hc
  refine number_of_digits Nat.toDigits_ne_nil hdigits ?_ hint
  by_cases hk : 0 < k
  · exact .inl (head?_toDigits_ne hk)
  · obtain rfl : k = 0 := by omega
    exact .inr rfl

/-- A text that is one token. -/
theorem all_of_first (hspace : isSpace c = false) (hfirst : first (c :: cs) = some (t, [])) :
    all [] (c :: cs) = some [t] := by
  have hend : all [t] [] = some [t] := by
    rw [all]
    rfl
  rw [all]
  simp [hspace, hfirst, hend]

theorem all_toDigits {k : Nat} (hint : integer? false (Nat.toDigits 10 k) = some m) :
    all [] (Nat.toDigits 10 k) = some [.scalar (.number m)] := by
  have hdigits : ∀ c ∈ Nat.toDigits 10 k, c.isDigit := fun c hc =>
    Nat.isDigit_of_mem_toDigits (by decide) (by decide) hc
  have hread := number_toDigits hint
  generalize Nat.toDigits 10 k = ds at hdigits hread
  cases ds with
  | nil => cases hread
  | cons c cs =>
    have hc := hdigits c List.mem_cons_self
    apply all_of_first (isSpace_of_isDigit hc)
    rw [first_of_isDigit hc, hread]
    rfl

theorem all_sign_toDigits {k : Nat} (hint : integer? true (Nat.toDigits 10 k) = some m) :
    all [] ('-' :: Nat.toDigits 10 k) = some [.scalar (.number m)] := by
  apply all_of_first rfl
  rw [first, number_toDigits hint]
  rfl

end Token

theorem ofText?_of_all {text : String} {v : Json}
    (h : Token.all [] text.toList = some [.scalar v]) : ofText? text = some v := by
  rw [ofText?, h, Option.bind_eq_bind, Option.bind_some, value, following]
  rfl

/-- An integer of 64 bits, with a sign or without, is read from its text as itself. -/
def ReadsIntegers (read : String → Option Json) : Prop :=
  ∀ n : Int, -2 ^ 63 ≤ n → n < 2 ^ 64 →
    ∃ m : Number, m.int? = some n ∧ read (toString n) = some (.number m)

theorem readsIntegers_ofText? : ReadsIntegers ofText? := by
  intro n hlow hhigh
  obtain ⟨m, hm⟩ := Number.exists_ofInt? hlow hhigh
  refine ⟨m, Number.int?_of_ofInt? hm, ofText?_of_all ?_⟩
  rw [Int.toString_eq_repr, Int.repr_eq_if]
  by_cases hn : 0 ≤ n
  · have hnat : (n.toNat : Int) = n := Int.toNat_of_nonneg hn
    rw [if_pos hn, Nat.toList_repr]
    apply Token.all_toDigits
    simpa only [Token.integer?, Nat.ofDigitChars_ten_toDigits, hnat, Bool.false_eq_true,
      if_false] using hm
  · have hnat : ((-n).toNat : Int) = -n := Int.toNat_of_nonneg (by omega)
    have hne : (-n).toNat ≠ 0 := by omega
    have hsign : "-".toList = ['-'] := rfl
    rw [if_neg hn, String.toList_append, Nat.toList_repr, hsign]
    apply Token.all_sign_toDigits
    simpa only [Token.integer?, Nat.ofDigitChars_ten_toDigits, if_true, if_neg hne, hnat,
      Int.neg_neg] using hm

end Json

namespace Value

variable {m : Json.Number} {n : Int}

/-- Whether an integer needs a sign or not, its value is the integer. -/
theorem ofNumber_of_int? (h : m.int? = some n) : ofNumber m = .integer n := by
  cases m with
  | natural u =>
    cases h
    unfold ofNumber
    by_cases hu : u ≤ Int64.maxValue.toUInt64
    · have hlt : u.toNat < 2 ^ 63 := Nat.lt_of_le_of_lt (UInt64.le_iff_toNat_le.1 hu) (by decide)
      have hint : u.toInt64.toInt = u.toNat :=
        BitVec.toInt_eq_toNat_of_lt (x := u.toBitVec) (by rw [UInt64.toNat_toBitVec]; omega)
      simp only [Json.Number.toInt64?, if_pos hu, hint]
    · simp only [Json.Number.toInt64?, if_neg hu, Json.Number.toUInt64?]
  | negative i =>
    cases h
    rfl
  | float => cases h

end Value

end StructuralTypes
