import Mathlib
import SwapPricing.Proofs.Refusals

/-!
# Roots and ratios of fractions

Newton's iteration from above ends at the integer square root, and a ratio is the
floored quotient of what is left of its operands when low bits of both are dropped.
Ratios are monotone in both operands, and so are roots but for one place: where the
root of a fraction changes to the coarser formula, it may lose up to the last nine
digits.
-/

namespace SwapPricing
namespace Arithmetic

/-!
# Widths and bit lengths
-/

theorem wide_eq_ok_iff {reason : MathError} {n : Nat} {w : BitVec 128} :
    wide reason n = .ok w ↔ w.toNat = n := by
  unfold wide
  split
  · rw [Except.ok.injEq]
    constructor
    · rintro rfl
      exact BitVec.toNat_ofNatLT n _
    · rintro rfl
      exact BitVec.ofNatLT_toNat w
  · rename_i hfit
    refine ⟨nofun, ?_⟩
    rintro rfl
    exact absurd w.isLt hfit

theorem exists_wide (reason : MathError) {n : Nat} (h : n < wideSize) :
    ∃ w, wide reason n = .ok w ∧ w.toNat = n :=
  ⟨BitVec.ofNatLT n h, dif_pos h, BitVec.toNat_ofNatLT n h⟩

theorem wide_eq_error {reason : MathError} {n : Nat} (h : wideSize ≤ n) :
    wide reason n = .error reason :=
  dif_neg (Nat.not_lt_of_le h)

theorem lt_two_pow_bitLength (n : Nat) : n < 2 ^ bitLength n := by
  unfold bitLength
  split
  · rename_i hzero
    rw [hzero]
    decide
  · exact Nat.lt_log2_self

theorem two_pow_le_of_lt_bitLength {n k : Nat} (h : k < bitLength n) : 2 ^ k ≤ n := by
  unfold bitLength at h
  split at h
  · omega
  · rename_i hne
    calc 2 ^ k ≤ 2 ^ n.log2 := Nat.pow_le_pow_right (by decide) (by omega)
      _ ≤ n := Nat.log2_self_le hne

theorem bitLength_le_of_lt {n k : Nat} (h : n < 2 ^ k) : bitLength n ≤ k := by
  by_contra hlt
  exact Nat.not_lt_of_le (two_pow_le_of_lt_bitLength (Nat.lt_of_not_le hlt)) h

theorem bitLength_mono {m n : Nat} (h : m ≤ n) : bitLength m ≤ bitLength n :=
  bitLength_le_of_lt (Nat.lt_of_le_of_lt h (lt_two_pow_bitLength n))

/-!
# Integer square roots
-/

/-- A step of Newton's iteration never goes below the root. -/
theorem sqrt_le_step {n x : Nat} (hx : 0 < x) : Nat.sqrt n ≤ (x + n / x) / 2 := by
  rw [Nat.le_div_iff_mul_le (by decide)]
  -- The mean of `x` and `n / x` lies above the root, since `(2 * root - x) * x` is at most
  -- the square of the root.
  have hquotient : 2 * Nat.sqrt n - x ≤ n / x := by
    rw [Nat.le_div_iff_mul_le hx]
    refine Nat.le_trans ?_ (Nat.sqrt_le n)
    rcases Nat.le_total (2 * Nat.sqrt n) x with hle | hle
    · rw [Nat.sub_eq_zero_of_le hle, Nat.zero_mul]
      exact Nat.zero_le _
    · zify [hle]
      nlinarith [sq_nonneg ((Nat.sqrt n : Int) - x)]
  omega

/-- The quotient that a step forms is hardly larger than an iterate that the root does not
exceed. -/
theorem div_le_add_two {n x : Nat} (hroot : Nat.sqrt n ≤ x) : n / x ≤ x + 2 := by
  have hbelow : n < (x + 1) * (x + 1) := Nat.sqrt_lt.mp (Nat.lt_succ_of_le hroot)
  apply Nat.div_le_of_le_mul
  nlinarith

/-- A step descends as long as the iterate lies above the root. -/
theorem step_lt_iff {n x : Nat} (hx : 0 < x) : (x + n / x) / 2 < x ↔ Nat.sqrt n < x := by
  constructor
  · exact Nat.lt_of_le_of_lt (sqrt_le_step hx)
  · intro habove
    have hquotient : n / x < x := (Nat.div_lt_iff_lt_mul hx).mpr (Nat.sqrt_lt.mp habove)
    omega

/-- Newton's iteration ends at the root from every start above it whose double fits. -/
theorem newton_eq_ok {n x : Nat} (hn : 0 < n) (hroot : Nat.sqrt n ≤ x)
    (hfit : 2 * x + 2 < wideSize) : newton n x = .ok (Nat.sqrt n) := by
  induction x using Nat.strong_induction_on with
  | _ x ih =>
      have hx : 0 < x := Nat.lt_of_lt_of_le (Nat.sqrt_pos.mpr hn) hroot
      have hquotient := div_le_add_two hroot
      rw [newton, quotient_eq_ok (Nat.ne_of_gt hx), ok_bind, exact_eq_ok (by omega), ok_bind]
      split
      · rename_i hdescends
        exact ih _ hdescends (sqrt_le_step hx) (by omega)
      · rename_i hstops
        rw [step_lt_iff hx, Nat.not_lt] at hstops
        rw [Nat.le_antisymm hroot hstops]

/-- The power of two that the iteration starts from lies above the root. -/
theorem sqrt_lt_guess (n : Nat) : Nat.sqrt n < 2 ^ ((bitLength n + 1) / 2) := by
  rw [Nat.sqrt_lt, ← Nat.pow_add]
  calc n < 2 ^ bitLength n := lt_two_pow_bitLength n
    _ ≤ 2 ^ ((bitLength n + 1) / 2 + (bitLength n + 1) / 2) :=
      Nat.pow_le_pow_right (by decide) (by omega)

theorem isqrt_eq_ok_iff {n r : BitVec 128} :
    isqrt n = .ok r ↔ r.toNat = Nat.sqrt n.toNat := by
  unfold isqrt
  split
  · rename_i hsmall
    have hroot : Nat.sqrt n.toNat = n.toNat := by
      rcases (by omega : n.toNat = 0 ∨ n.toNat = 1) with h | h
      · rw [h, Nat.sqrt_zero]
      · rw [h, Nat.sqrt_one]
    rw [Except.ok.injEq, hroot, BitVec.toNat_inj, eq_comm]
  · have hbits : bitLength n.toNat ≤ 128 := bitLength_le_of_lt n.isLt
    have hguess : 1 <<< ((bitLength n.toNat + 1) / 2) ≤ 2 ^ 64 := by
      rw [Nat.one_shiftLeft]
      exact Nat.pow_le_pow_right (by decide) (by omega)
    have hfit : 2 * 2 ^ 64 + 2 < wideSize := by decide
    have hroot : Nat.sqrt n.toNat ≤ 1 <<< ((bitLength n.toNat + 1) / 2) := by
      rw [Nat.one_shiftLeft]
      exact Nat.le_of_lt (sqrt_lt_guess _)
    rw [exact_eq_ok (by omega), ok_bind, newton_eq_ok (by omega) hroot (by omega), ok_bind]
    exact wide_eq_ok_iff

theorem exists_isqrt (n : BitVec 128) :
    ∃ r, isqrt n = .ok r ∧ r.toNat = Nat.sqrt n.toNat := by
  rcases exists_wide .fault (Nat.lt_of_le_of_lt (Nat.sqrt_le_self _) n.isLt) with ⟨r, -, hr⟩
  exact ⟨r, isqrt_eq_ok_iff.mpr hr, hr⟩

/-!
# Roots of fractions
-/

/-- The root of the fraction `x`, floored to the last digit where the scaled radicand
fits in 128 bits, and to the ninth digit from the last elsewhere. -/
def wadRoot (x : Nat) : Nat :=
  if x * wad < wideSize then Nat.sqrt (x * wad) else Nat.sqrt x * 1000000000

theorem wadRoot_of_lt {x : Nat} (h : x * wad < wideSize) :
    wadRoot x = Nat.sqrt (x * wad) :=
  if_pos h

theorem wadRoot_of_le {x : Nat} (h : wideSize ≤ x * wad) :
    wadRoot x = Nat.sqrt x * 1000000000 :=
  if_neg (Nat.not_lt_of_le h)

theorem sqrtWad_eq_ok_iff {x r : BitVec 128} :
    sqrtWad x = .ok r ↔ r.toNat = wadRoot x.toNat := by
  rw [sqrtWad]
  split
  · rename_i hfit
    rcases exists_wide .fault hfit with ⟨scaled, hscaled, hnat⟩
    rw [hscaled, ok_bind, wadRoot_of_lt hfit, ← hnat]
    exact isqrt_eq_ok_iff
  · rename_i hwide
    rcases exists_isqrt x with ⟨root, hroot, hnat⟩
    rw [hroot, ok_bind, wadRoot_of_le (Nat.le_of_not_lt hwide), ← hnat]
    exact wide_eq_ok_iff

theorem exists_sqrtWad (x : BitVec 128) :
    ∃ r, sqrtWad x = .ok r ∧ r.toNat = wadRoot x.toNat := by
  have hfit : wadRoot x.toNat < wideSize := by
    unfold wadRoot
    split
    · rename_i hscaled
      exact Nat.lt_of_le_of_lt (Nat.sqrt_le_self _) hscaled
    · have hroot : Nat.sqrt x.toNat < 2 ^ 64 :=
        Nat.sqrt_lt.mpr (Nat.lt_of_lt_of_eq x.isLt (by norm_num))
      exact Nat.lt_trans (Nat.mul_lt_mul_of_pos_right hroot (by decide))
        (show 2 ^ 64 * 1000000000 < wideSize by decide)
  rcases exists_wide .fault hfit with ⟨r, -, hr⟩
  exact ⟨r, sqrtWad_eq_ok_iff.mpr hr, hr⟩

/-- The root of `x` keeps its last digits, that of `y` does not, and no other digit tells
them apart. -/
def RootsCoarsen (x y : Nat) : Prop :=
  x * wad < wideSize ∧ wideSize ≤ y * wad ∧ Nat.sqrt x = Nat.sqrt y

/-- The root of a fraction lies less than one unit of the ninth digit from the last above
the root of its integer part. -/
theorem sqrt_mul_wad_lt (x : Nat) : Nat.sqrt (x * wad) < (Nat.sqrt x + 1) * 1000000000 := by
  have hwad : wad = 1000000000 * 1000000000 := by decide
  have hx : x < (Nat.sqrt x + 1) * (Nat.sqrt x + 1) := Nat.lt_succ_sqrt x
  rw [Nat.sqrt_lt]
  calc x * wad < (Nat.sqrt x + 1) * (Nat.sqrt x + 1) * wad :=
        Nat.mul_lt_mul_of_pos_right hx (by decide)
    _ = (Nat.sqrt x + 1) * 1000000000 * ((Nat.sqrt x + 1) * 1000000000) := by
        rw [hwad, Nat.mul_mul_mul_comm]

/-- Roots grow with the fraction, except where they coarsen. -/
theorem wadRoot_mono {x y : Nat} (hle : x ≤ y) (h : ¬ RootsCoarsen x y) :
    wadRoot x ≤ wadRoot y := by
  rcases Nat.lt_or_ge (y * wad) wideSize with hy | hy
  · have hx : x * wad < wideSize := Nat.lt_of_le_of_lt (Nat.mul_le_mul_right _ hle) hy
    rw [wadRoot_of_lt hx, wadRoot_of_lt hy]
    exact Nat.sqrt_le_sqrt (Nat.mul_le_mul_right _ hle)
  · rw [wadRoot_of_le hy]
    rcases Nat.lt_or_ge (x * wad) wideSize with hx | hx
    · have hlt : Nat.sqrt x < Nat.sqrt y :=
        Nat.lt_of_le_of_ne (Nat.sqrt_le_sqrt hle) fun heq => h ⟨hx, hy, heq⟩
      rw [wadRoot_of_lt hx]
      exact Nat.le_trans (Nat.le_of_lt (sqrt_mul_wad_lt x)) (Nat.mul_le_mul_right _ hlt)
    · rw [wadRoot_of_le hx]
      exact Nat.mul_le_mul_right _ (Nat.sqrt_le_sqrt hle)

/-- Where they coarsen, roots lose less than one unit of the ninth digit from the last. -/
theorem wadRoot_lt_of_coarsen {x y : Nat} (h : RootsCoarsen x y) :
    wadRoot x < wadRoot y + 1000000000 := by
  rcases h with ⟨hx, hy, heq⟩
  rw [wadRoot_of_lt hx, wadRoot_of_le hy, ← heq]
  have hlt := sqrt_mul_wad_lt x
  omega

/-- Coarse roots are those of large fractions. -/
theorem le_sqrt_of_wide {y : Nat} (h : wideSize ≤ y * wad) : 18446744073 ≤ Nat.sqrt y := by
  have hbound : 18446744073 * 18446744073 * wad < wideSize := by decide
  rw [Nat.le_sqrt]
  by_contra hlt
  have hle : y * wad ≤ 18446744073 * 18446744073 * wad :=
    Nat.mul_le_mul_right _ (Nat.le_of_lt (Nat.lt_of_not_le hlt))
  omega

/-!
# Ratios
-/

theorem shiftRight_lt (den : Nat) : den >>> (bitLength den - 68) < 2 ^ 68 := by
  rw [Nat.shiftRight_eq_div_pow, Nat.div_lt_iff_lt_mul (Nat.two_pow_pos _), ← Nat.pow_add]
  calc den < 2 ^ bitLength den := lt_two_pow_bitLength den
    _ ≤ 2 ^ (68 + (bitLength den - 68)) := Nat.pow_le_pow_right (by decide) (by omega)

theorem two_pow_le_shiftRight {den : Nat} (h : 68 < bitLength den) :
    2 ^ 67 ≤ den >>> (bitLength den - 68) := by
  rw [Nat.shiftRight_eq_div_pow, Nat.le_div_iff_mul_le (Nat.two_pow_pos _), ← Nat.pow_add]
  exact two_pow_le_of_lt_bitLength (by omega)

theorem shiftRight_pos {den : Nat} (h : 0 < den) : 0 < den >>> (bitLength den - 68) := by
  rcases Nat.lt_or_ge 68 (bitLength den) with hlong | hshort
  · exact Nat.lt_of_lt_of_le (Nat.two_pow_pos 67) (two_pow_le_shiftRight hlong)
  · rw [Nat.sub_eq_zero_of_le hshort]
    exact h

/-- The ratio of two fractions, of which so many low bits are dropped that 68 are left of
the divisor. -/
def wadRatio (num den : Nat) : Nat :=
  (num >>> (bitLength den - 68)) * wad / (den >>> (bitLength den - 68))

/-- Whole and remainder are scaled apart, which makes no difference. -/
theorem whole_add_remainder (n : Nat) {d : Nat} (hd : 0 < d) :
    n / d * wad + n % d * wad / d = n * wad / d := by
  have hsplit : n * wad = d * (n / d * wad) + n % d * wad := by
    conv_lhs => rw [← Nat.div_add_mod n d, Nat.add_mul, Nat.mul_assoc]
  rw [hsplit, Nat.mul_add_div hd]

/-- Of a ratio only the outcome may leave its width: what is scaled in front of the last
division is no larger. -/
theorem ratioWad_eq {num den : BitVec 128} (hden : den.toNat ≠ 0) :
    ratioWad num den = wide .overflow (wadRatio num.toNat den.toNat) := by
  have hpos := shiftRight_pos (Nat.pos_of_ne_zero hden)
  rw [ratioWad, if_neg hden]
  dsimp only
  unfold wadRatio
  generalize num.toNat >>> (bitLength den.toNat - 68) = n
  have hshort := shiftRight_lt den.toNat
  generalize den.toNat >>> (bitLength den.toNat - 68) = d at hpos hshort ⊢
  have hremainder : n % d * wad < wideSize :=
    Nat.lt_trans (Nat.mul_lt_mul_of_pos_right (Nat.lt_trans (Nat.mod_lt n hpos) hshort) (by decide))
      (show 2 ^ 68 * wad < wideSize by decide)
  have hwhole := whole_add_remainder n hpos
  rw [quotient_eq_ok (Nat.ne_of_gt hpos), ok_bind]
  rcases Nat.lt_or_ge (n / d * wad) wideSize with hfit | hwide
  · rw [within_eq_ok hfit, ok_bind, exact_eq_ok hremainder, ok_bind,
      quotient_eq_ok (Nat.ne_of_gt hpos), ok_bind, hwhole]
  · have hscaled : within .overflow (n / d * wad) = .error .overflow :=
      if_neg (Nat.not_lt_of_le hwide)
    have hlarge : wideSize ≤ n * wad / d :=
      Nat.le_trans hwide (hwhole ▸ Nat.le_add_right _ _)
    rw [hscaled, error_bind, wide_eq_error hlarge]

theorem ratioWad_eq_ok_iff {num den r : BitVec 128} :
    ratioWad num den = .ok r ↔ den.toNat ≠ 0 ∧ r.toNat = wadRatio num.toNat den.toNat := by
  by_cases hden : den.toNat = 0
  · simp [ratioWad, hden]
  · rw [ratioWad_eq hden, wide_eq_ok_iff]
    simp [hden]

/-- A larger dividend has a larger ratio. -/
theorem wadRatio_mono {num num' : Nat} (h : num ≤ num') (den : Nat) :
    wadRatio num den ≤ wadRatio num' den := by
  unfold wadRatio
  rw [Nat.shiftRight_eq_div_pow, Nat.shiftRight_eq_div_pow num']
  exact Nat.div_le_div_right (Nat.mul_le_mul_right _ (Nat.div_le_div_right h))

/-- A smaller divisor has a larger ratio, also where fewer low bits are dropped. -/
theorem wadRatio_anti (num : Nat) {den den' : Nat} (hpos : 0 < den') (hle : den' ≤ den) :
    wadRatio num den ≤ wadRatio num den' := by
  unfold wadRatio
  have hshift : bitLength den' - 68 ≤ bitLength den - 68 :=
    Nat.sub_le_sub_right (bitLength_mono hle) 68
  rcases Nat.eq_or_lt_of_le hshift with hsame | hfewer
  · rw [hsame]
    have hdivisor : den' >>> (bitLength den - 68) ≤ den >>> (bitLength den - 68) := by
      rw [Nat.shiftRight_eq_div_pow, Nat.shiftRight_eq_div_pow]
      exact Nat.div_le_div_right hle
    exact Nat.div_le_div_left hdivisor (hsame ▸ shiftRight_pos hpos)
  · -- What is left of the larger divisor, moved back by the bits dropped in excess, is
    -- longer than what is left of the smaller one.
    obtain ⟨extra, hextra⟩ := Nat.exists_eq_add_of_lt hfewer
    have hscale : 2 ≤ 2 ^ (extra + 1) := Nat.le_self_pow (Nat.succ_ne_zero _) 2
    have hdivisor : den' >>> (bitLength den' - 68) ≤
        den >>> (bitLength den - 68) * 2 ^ (extra + 1) := by
      have hlow : 2 ^ 67 ≤ den >>> (bitLength den - 68) := two_pow_le_shiftRight (by omega)
      calc den' >>> (bitLength den' - 68) ≤ 2 ^ 67 * 2 := Nat.le_of_lt (shiftRight_lt den')
        _ ≤ den >>> (bitLength den - 68) * 2 ^ (extra + 1) := Nat.mul_le_mul hlow hscale
    have hdividend : num >>> (bitLength den - 68) * 2 ^ (extra + 1) ≤
        num >>> (bitLength den' - 68) := by
      have hbits : bitLength den - 68 = bitLength den' - 68 + (extra + 1) := hextra
      rw [hbits, Nat.shiftRight_add, Nat.shiftRight_eq_div_pow _ (extra + 1)]
      exact Nat.div_mul_le_self _ _
    calc (num >>> (bitLength den - 68)) * wad / (den >>> (bitLength den - 68))
        = num >>> (bitLength den - 68) * wad * 2 ^ (extra + 1) /
            (den >>> (bitLength den - 68) * 2 ^ (extra + 1)) :=
          (Nat.mul_div_mul_right _ _ (Nat.two_pow_pos _)).symm
      _ ≤ num >>> (bitLength den' - 68) * wad /
            (den >>> (bitLength den - 68) * 2 ^ (extra + 1)) := by
          rw [Nat.mul_right_comm]
          exact Nat.div_le_div_right (Nat.mul_le_mul_right _ hdividend)
      _ ≤ num >>> (bitLength den' - 68) * wad / (den' >>> (bitLength den' - 68)) :=
          Nat.div_le_div_left hdivisor (shiftRight_pos hpos)

end Arithmetic
end SwapPricing
