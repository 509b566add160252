import Mathlib
import SwapPricing.Proofs.Roots

/-!
# Accuracy of ratios

A ratio whose divisor has at most 68 binary digits is the exact one, rounded down.  Of a
longer divisor the low bits are dropped, and as many of the dividend.  What the dividend
loses costs less than a hundredth of the last digit.  What the divisor loses raises the
ratio by up to one part in `2 ^ 67` of itself: that is within the last digit as long as the
ratio is below about 147, and beyond it the digits at the end are wrong.
-/

namespace SwapPricing
namespace Arithmetic

/-- The exact ratio of two fractions, in units of the last digit of a fraction. -/
def exactRatio (num den : Nat) : ℚ :=
  num * wad / den

theorem exactRatio_nonneg (num den : Nat) : 0 ≤ exactRatio num den := by
  unfold exactRatio
  positivity

theorem exactRatio_le {num num' den den' : Nat} (hnum : num ≤ num') (hpos : 0 < den')
    (hden : den' ≤ den) : exactRatio num den ≤ exactRatio num' den' := by
  have hpos' : (0 : ℚ) < den' := by exact_mod_cast hpos
  unfold exactRatio
  gcongr

theorem exactRatio_scaled (num den : Nat) {scale : Nat} (hscale : 0 < scale) :
    exactRatio (num * scale) (den * scale) = exactRatio num den := by
  have hne : (scale : ℚ) ≠ 0 := by exact_mod_cast Nat.ne_of_gt hscale
  unfold exactRatio
  push_cast
  rw [mul_right_comm, mul_div_mul_right _ _ hne]

theorem exactRatio_succ_num (num den : Nat) :
    exactRatio (num + 1) den = exactRatio num den + wad / den := by
  unfold exactRatio
  push_cast
  rw [add_mul, one_mul, add_div]

theorem exactRatio_eq_succ_den (num : Nat) {den : Nat} (hden : 0 < den) :
    exactRatio num den = exactRatio num (den + 1) + exactRatio num (den + 1) / den := by
  have hpos : (0 : ℚ) < den := by exact_mod_cast hden
  unfold exactRatio
  push_cast
  field_simp

/-!
# Dropped bits
-/

section Dropped

variable {num den scale : Nat}

/-- What the dividend loses is at most one of what is left of the divisor. -/
theorem exactRatio_le_shortened_add (num : Nat) (hscale : 0 < scale) (hleft : 0 < den / scale) :
    exactRatio num den ≤
      exactRatio (num / scale) (den / scale) + wad / ((den / scale : ℕ) : ℚ) := by
  have hnum : num ≤ (num / scale + 1) * scale :=
    Nat.le_of_lt (Nat.lt_mul_of_div_lt (Nat.lt_succ_self _) hscale)
  calc exactRatio num den
      ≤ exactRatio ((num / scale + 1) * scale) (den / scale * scale) :=
        exactRatio_le hnum (Nat.mul_pos hleft hscale) (Nat.div_mul_le_self den scale)
    _ = exactRatio (num / scale) (den / scale) + wad / ((den / scale : ℕ) : ℚ) := by
        rw [exactRatio_scaled _ _ hscale, exactRatio_succ_num]

/-- A dividend that loses nothing makes no ratio smaller. -/
theorem exactRatio_le_shortened (hscale : 0 < scale) (hleft : 0 < den / scale)
    (hwhole : scale ∣ num) : exactRatio num den ≤ exactRatio (num / scale) (den / scale) := by
  have hnum : num ≤ num / scale * scale := Nat.le_of_eq (Nat.div_mul_cancel hwhole).symm
  calc exactRatio num den
      ≤ exactRatio (num / scale * scale) (den / scale * scale) :=
        exactRatio_le hnum (Nat.mul_pos hleft hscale) (Nat.div_mul_le_self den scale)
    _ = exactRatio (num / scale) (den / scale) := exactRatio_scaled _ _ hscale

/-- What the divisor loses is at most one part in what is left of it. -/
theorem shortened_le_exactRatio (num : Nat) (hscale : 0 < scale) (hleft : 0 < den / scale) :
    exactRatio (num / scale) (den / scale) ≤
      exactRatio num den + exactRatio num den / ((den / scale : ℕ) : ℚ) := by
  have hden : den ≤ (den / scale + 1) * scale :=
    Nat.le_of_lt (Nat.lt_mul_of_div_lt (Nat.lt_succ_self _) hscale)
  have hbelow : exactRatio (num / scale) (den / scale + 1) ≤ exactRatio num den := by
    rw [← exactRatio_scaled _ _ hscale]
    exact exactRatio_le (Nat.div_mul_le_self num scale) (Nat.pos_of_div_pos hleft) hden
  rw [exactRatio_eq_succ_den _ hleft]
  gcongr

end Dropped

/-!
# Ratios in words
-/

section Ratios

variable {num den : Nat}

/-- The scale by which both operands of a ratio are shortened. -/
def droppedScale (den : Nat) : Nat :=
  2 ^ (bitLength den - 68)

theorem droppedScale_of_lt (h : den < 2 ^ 68) : droppedScale den = 1 := by
  rw [droppedScale, Nat.sub_eq_zero_of_le (bitLength_le_of_lt h)]
  rfl

theorem wadRatio_eq (num den : Nat) :
    wadRatio num den = num / droppedScale den * wad / (den / droppedScale den) := by
  unfold wadRatio droppedScale
  rw [Nat.shiftRight_eq_div_pow, Nat.shiftRight_eq_div_pow]

theorem droppedScale_pos (den : Nat) : 0 < droppedScale den :=
  Nat.two_pow_pos _

theorem left_pos (hden : 0 < den) : 0 < den / droppedScale den := by
  have hpos := shiftRight_pos hden
  rwa [Nat.shiftRight_eq_div_pow] at hpos

/-- A divisor that loses bits keeps 68 of them. -/
theorem two_pow_le_left (h : 2 ^ 68 ≤ den) : 2 ^ 67 ≤ den / droppedScale den := by
  have hlong : 68 < bitLength den := by
    by_contra hshort
    have hlt := lt_two_pow_bitLength den
    have hle := Nat.pow_le_pow_right (show 0 < 2 by decide) (Nat.le_of_not_lt hshort)
    omega
  have hkept := two_pow_le_shiftRight hlong
  rwa [Nat.shiftRight_eq_div_pow] at hkept

/-- A ratio is the exact one of what is left of its operands, rounded down. -/
theorem wadRatio_floor (num : Nat) (hden : 0 < den) :
    (wadRatio num den : ℚ) ≤ exactRatio (num / droppedScale den) (den / droppedScale den) ∧
      exactRatio (num / droppedScale den) (den / droppedScale den) < wadRatio num den + 1 := by
  have hpos := left_pos hden
  rw [wadRatio_eq]
  unfold exactRatio
  generalize num / droppedScale den = n
  generalize den / droppedScale den = d at hpos ⊢
  constructor
  · have hfloor : ((n * wad / d : ℕ) : ℚ) ≤ ((n * wad : ℕ) : ℚ) / d := Nat.cast_div_le
    rwa [Nat.cast_mul] at hfloor
  · rw [div_lt_iff₀ (by exact_mod_cast hpos)]
    exact_mod_cast Nat.lt_mul_of_div_lt (Nat.lt_succ_self (n * wad / d)) hpos

theorem wadRatio_near_of_lt (num : Nat) (hden : 0 < den) (h : den < 2 ^ 68) :
    (wadRatio num den : ℚ) ≤ exactRatio num den ∧
      exactRatio num den < wadRatio num den + 1 := by
  have hfloor := wadRatio_floor num hden
  rwa [droppedScale_of_lt h, Nat.div_one, Nat.div_one] at hfloor

/-- A ratio exceeds the exact one by at most one part in `2 ^ 67` of it. -/
theorem wadRatio_le_exactRatio (num : Nat) (hden : 0 < den) :
    (wadRatio num den : ℚ) ≤ exactRatio num den + exactRatio num den / 2 ^ 67 := by
  have hnonneg := exactRatio_nonneg num den
  rcases Nat.lt_or_ge den (2 ^ 68) with hshort | hlong
  · have hpart : 0 ≤ exactRatio num den / 2 ^ 67 := by positivity
    linarith [(wadRatio_near_of_lt num hden hshort).1]
  · have hkept : (2 ^ 67 : ℚ) ≤ ((den / droppedScale den : ℕ) : ℚ) := by
      exact_mod_cast two_pow_le_left hlong
    calc (wadRatio num den : ℚ)
        ≤ exactRatio (num / droppedScale den) (den / droppedScale den) :=
          (wadRatio_floor num hden).1
      _ ≤ exactRatio num den + exactRatio num den / ((den / droppedScale den : ℕ) : ℚ) :=
          shortened_le_exactRatio num (droppedScale_pos den) (left_pos hden)
      _ ≤ exactRatio num den + exactRatio num den / 2 ^ 67 := by gcongr

/-- A ratio is less than the last digit and one part in 147 of it below the exact one. -/
theorem exactRatio_lt_wadRatio (num : Nat) (hden : 0 < den) :
    exactRatio num den < wadRatio num den + 1 + wad / 2 ^ 67 := by
  rcases Nat.lt_or_ge den (2 ^ 68) with hshort | hlong
  · have hpart : (0 : ℚ) ≤ wad / 2 ^ 67 := by positivity
    linarith [(wadRatio_near_of_lt num hden hshort).2]
  · have hkept : (2 ^ 67 : ℚ) ≤ ((den / droppedScale den : ℕ) : ℚ) := by
      exact_mod_cast two_pow_le_left hlong
    have hpart : (wad / ((den / droppedScale den : ℕ) : ℚ) : ℚ) ≤ wad / 2 ^ 67 := by gcongr
    linarith [exactRatio_le_shortened_add num (droppedScale_pos den) (left_pos hden),
      (wadRatio_floor num hden).2]

/-- Where the bits that the dividend loses are all zero, a ratio is less than the last digit
below the exact one. -/
theorem exactRatio_lt_wadRatio_of_dvd (hden : 0 < den) (hwhole : droppedScale den ∣ num) :
    exactRatio num den < wadRatio num den + 1 :=
  lt_of_le_of_lt (exactRatio_le_shortened (droppedScale_pos den) (left_pos hden) hwhole)
    (wadRatio_floor num hden).2

end Ratios

/-- A ratio overflows only where the exact one does, but for one part in `2 ^ 67` of it. -/
theorem wideSize_le_of_ratioWad_error {num den : BitVec 128} {reason : MathError}
    (hden : den.toNat ≠ 0) (h : ratioWad num den = .error reason) :
    reason = .overflow ∧ (wideSize : ℚ) ≤
      exactRatio num.toNat den.toNat + exactRatio num.toNat den.toNat / 2 ^ 67 := by
  rw [ratioWad_eq hden] at h
  rcases Nat.lt_or_ge (wadRatio num.toNat den.toNat) wideSize with hfit | hwide
  · rcases exists_wide .overflow hfit with ⟨w, hw, -⟩
    rw [hw] at h
    cases h
  · rw [wide_eq_error hwide] at h
    injection h with hoverflow
    have hwide' : (wideSize : ℚ) ≤ wadRatio num.toNat den.toNat := by exact_mod_cast hwide
    exact ⟨hoverflow.symm, hwide'.trans (wadRatio_le_exactRatio _ (Nat.pos_of_ne_zero hden))⟩

/-- A ratio fails only where the exact one does not fit in 128 bits, or nearly so.  Otherwise
it differs from the exact one by at most the last digit, if its divisor has no more than 68
binary digits, or if it is below `2 ^ 67` last digits and the dividend loses zeros only.
Where other bits are dropped it may be low by one part in 147 of the last digit more, and
high by one part in `2 ^ 67` of itself. -/
theorem ratio_near_exact {num den : BitVec 128} (hden : den.toNat ≠ 0) :
    (∀ reason, ratioWad num den = .error reason → reason = .overflow ∧
      (wideSize : ℚ) ≤
        exactRatio num.toNat den.toNat + exactRatio num.toNat den.toNat / 2 ^ 67) ∧
    ∀ r, ratioWad num den = .ok r →
      (den.toNat < 2 ^ 68 ∨
          exactRatio num.toNat den.toNat ≤ 2 ^ 67 ∧ droppedScale den.toNat ∣ num.toNat →
        |(r.toNat : ℚ) - exactRatio num.toNat den.toNat| ≤ 1) ∧
      (exactRatio num.toNat den.toNat ≤ 2 ^ 67 →
        |(r.toNat : ℚ) - exactRatio num.toNat den.toNat| < 1 + wad / 2 ^ 67) ∧
      exactRatio num.toNat den.toNat - r.toNat < 1 + wad / 2 ^ 67 ∧
      r.toNat - exactRatio num.toNat den.toNat ≤ exactRatio num.toNat den.toNat / 2 ^ 67 := by
  have hpos : 0 < den.toNat := Nat.pos_of_ne_zero hden
  have hhigh := wadRatio_le_exactRatio num.toNat hpos
  have hlow := exactRatio_lt_wadRatio num.toNat hpos
  refine ⟨fun reason => wideSize_le_of_ratioWad_error hden, fun r hr => ?_⟩
  rw [(ratioWad_eq_ok_iff.mp hr).2]
  have hunit (h : exactRatio num.toNat den.toNat ≤ 2 ^ 67) :
      exactRatio num.toNat den.toNat / 2 ^ 67 ≤ 1 :=
    div_le_one_of_le₀ h (by positivity)
  refine ⟨?_, fun hsmall => ?_, by linarith, by linarith⟩
  · intro hkept
    rcases hkept with hshort | ⟨hsmall, hwhole⟩
    · have hnear := wadRatio_near_of_lt num.toNat hpos hshort
      exact abs_le.mpr ⟨by linarith [hnear.2], by linarith [hnear.1]⟩
    · have hnear := exactRatio_lt_wadRatio_of_dvd hpos hwhole
      exact abs_le.mpr ⟨by linarith, by linarith [hunit hsmall]⟩
  · have hpart : (0 : ℚ) < wad / 2 ^ 67 := by norm_num [wad]
    exact abs_lt.mpr ⟨by linarith, by linarith [hunit hsmall]⟩

/-- The ratio of two prices around a hundred, whose last bits are dropped. -/
theorem ratio_near_exact_of_prices :
    ∃ r, ratioWad 40000000000000000000003 400000000000000000001 = .ok r ∧
      |(r.toNat : ℚ) - exactRatio 40000000000000000000003 400000000000000000001| <
        1 + wad / 2 ^ 67 := by
  have hden : (400000000000000000001 : BitVec 128).toNat ≠ 0 := by decide
  have hr : ratioWad 40000000000000000000003 400000000000000000001 =
      .ok 100000000000000000000 := by decide +kernel
  have hsmall : exactRatio 40000000000000000000003 400000000000000000001 ≤ 2 ^ 67 := by
    norm_num [exactRatio, wad]
  exact ⟨_, hr, ((ratio_near_exact hden).2 _ hr).2.1 hsmall⟩

/-- Of these operands one bit each is dropped, and the ratio comes out nearly `10 ^ 15` last
digits too high. -/
theorem ratio_far_from_exact :
    ∃ r, ratioWad 340282366920938463463374607431768211455 590295810358705651711 = .ok r ∧
      exactRatio 340282366920938463463374607431768211455 590295810358705651711 +
        976562499999999 < r.toNat := by
  refine ⟨576460752303423488001953124999999999, by decide +kernel, ?_⟩
  have hnat : (576460752303423488001953124999999999 : BitVec 128).toNat =
      576460752303423488001953124999999999 := by decide
  rw [hnat]
  norm_num [exactRatio, wad]

end Arithmetic
end SwapPricing
