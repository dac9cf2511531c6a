import Mathlib
import StructuralTypes.Number.Binary64

namespace StructuralTypes.Binary64

variable {b : UInt64} {num den : Nat} {n : Int}

/-- A number other than NaN has the bits that it is made from. -/
theorem toBits_ofBits (h : Float.ofBits b ≠ Float.nan) : (Float.ofBits b).toBits = b := by
  have hbits : (Float.ofBits b).toBits.toBitVec = _ :=
    @Float.Model.UnpackedFloat.pack_unpack .binary64 b.toBitVec (by decide)
  split at hbits
  · refine absurd ?_ h
    rw [← Float.toBits_inj]
    exact UInt64.toBitVec_inj.1 hbits
  · exact UInt64.toBitVec_inj.1 hbits

theorem toNat_of_ofBits_beq_one (h : Float.ofBits b == 1) : b.toNat = 1023 <<< 52 := by
  obtain ⟨hnan, -, heq⟩ := Float.beq_iff_ne_nan_and_eq.1 h
  rw [← toBits_ofBits hnan]
  rcases heq with heq | ⟨-, heq⟩ | ⟨-, heq⟩
  · rw [heq]
    decide
  · exact absurd heq (by decide)
  · exact absurd heq (by decide)

theorem toNat_of_ofBits_beq_zero (h : Float.ofBits b == 0) :
    b.toNat = 0 ∨ b.toNat = 1 <<< 63 := by
  obtain ⟨hnan, -, heq⟩ := Float.beq_iff_ne_nan_and_eq.1 h
  rw [← toBits_ofBits hnan]
  rcases heq with heq | ⟨heq, -⟩ | ⟨heq, -⟩
  all_goals
    rw [heq]
    decide

theorem nearestBits_le : nearestBits num den ≤ 2047 <<< 52 := by
  unfold nearestBits
  split
  · exact Nat.zero_le _
  · exact Nat.min_le_right _ _

theorem le_roundDiv : num / den ≤ roundDiv num den := by
  unfold roundDiv
  dsimp only
  split
  · exact Nat.le_refl _
  · exact Nat.le_succ _

theorem logRatio_one (h : num ≠ 0) : logRatio num 1 = num.log2 := by
  have hlog : Nat.log2 1 = 0 := rfl
  have hle : 1 <<< num.log2 ≤ num := by
    rw [Nat.one_shiftLeft]
    exact Nat.log2_self_le h
  simp [logRatio, hlog, hle]

theorem one_le_roundDiv {k l : Nat} (h : num ≠ 0) (hl : l ≤ num.log2) :
    1 ≤ roundDiv (num <<< k) (1 <<< l) := by
  have hpow : 1 <<< l ≤ num <<< k := by
    rw [Nat.one_shiftLeft]
    calc 2 ^ l ≤ 2 ^ num.log2 := Nat.pow_le_pow_right (by decide) hl
      _ ≤ num := Nat.log2_self_le h
      _ ≤ num <<< k := Nat.le_shiftLeft
  have hpos : 0 < 1 <<< l := by
    rw [Nat.one_shiftLeft]
    exact Nat.two_pow_pos l
  exact (Nat.div_pos hpow hpos).trans_le le_roundDiv

/-- From 2 on the nearest number is above one. -/
theorem lt_nearestBits (h : 2 ≤ num) : 1023 <<< 52 < nearestBits num 1 := by
  have hne : num ≠ 0 := by omega
  have hlog : 1 ≤ num.log2 := (Nat.le_log2 hne).2 h
  have hexponent : max (logRatio num 1 - 52) (-1074) = (num.log2 : Int) - 52 := by
    rw [logRatio_one hne]
    omega
  have hmantissa : 1 ≤ roundDiv (num <<< (-((num.log2 : Int) - 52)).toNat)
      (1 <<< ((num.log2 : Int) - 52).toNat) := one_le_roundDiv hne (by omega)
  have hfield : 1023 ≤ ((num.log2 : Int) - 52 + 1074).toNat := by omega
  have hshift : 1023 <<< 52 ≤ ((num.log2 : Int) - 52 + 1074).toNat <<< 52 := by
    rw [Nat.shiftLeft_eq, Nat.shiftLeft_eq]
    exact Nat.mul_le_mul_right _ hfield
  unfold nearestBits
  simp only [if_neg hne, hexponent]
  exact Nat.lt_min.2 ⟨by omega, by decide⟩

theorem lt_two_of_nearestBits_le (h : nearestBits num 1 ≤ 1023 <<< 52) : num < 2 := by
  by_contra hle
  exact Nat.not_lt.2 h (lt_nearestBits (Nat.not_lt.1 hle))

theorem nearestBits_eq_zero (h : nearestBits num 1 = 0) : num = 0 := by
  have hlt : num < 2 := lt_two_of_nearestBits_le (by omega)
  by_contra hne
  obtain rfl : num = 1 := by omega
  revert h
  decide

theorem nearestBits_eq_one (h : nearestBits num 1 = 1023 <<< 52) : num = 1 := by
  have hlt : num < 2 := lt_two_of_nearestBits_le (by omega)
  by_contra hne
  obtain rfl : num = 0 := by omega
  revert h
  decide

/-- The bits of a converted integer: those of its size, and above them its sign. -/
theorem exists_ofInt_eq (n : Int) : ∃ b : UInt64, ofInt n = Float.ofBits b ∧
    b.toNat = nearestBits n.natAbs 1 + if n < 0 then 1 <<< 63 else 0 := by
  refine ⟨_, rfl, ?_⟩
  have hle : nearestBits n.natAbs 1 ≤ 2047 <<< 52 := nearestBits_le
  rw [UInt64.toNat_ofNat', Nat.mod_eq_of_lt]
  · simp only [decide_eq_true_eq]
  · split <;> omega

theorem ofInt_beq_zero_iff : (ofInt n == 0) = true ↔ n = 0 := by
  constructor
  · intro h
    obtain ⟨b, hn, hb⟩ := exists_ofInt_eq n
    rw [hn] at h
    have hle : nearestBits n.natAbs 1 ≤ 2047 <<< 52 := nearestBits_le
    have hbits : nearestBits n.natAbs 1 = 0 := by
      rcases toNat_of_ofBits_beq_zero h with h | h <;> split at hb <;> omega
    exact Int.natAbs_eq_zero.1 (nearestBits_eq_zero hbits)
  · rintro rfl
    decide

theorem ofInt_beq_one_iff : (ofInt n == 1) = true ↔ n = 1 := by
  constructor
  · intro h
    obtain ⟨b, hn, hb⟩ := exists_ofInt_eq n
    rw [hn] at h
    have hone := toNat_of_ofBits_beq_one h
    split at hb
    · omega
    · have hsize := nearestBits_eq_one (hb.symm.trans hone)
      omega
  · rintro rfl
    decide

end StructuralTypes.Binary64
