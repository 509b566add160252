import Mathlib
import SwapPricing.Proofs.Roots

/-!
# Rounds of a root

A step of Newton's iteration squares the part by which its iterate exceeds the root, and
halves it.  The first guess exceeds the root by no more than the root itself, so six steps
leave less than one of a 64-bit root, two more end the iteration, and there are radicands
for which it takes all eight.
-/

namespace SwapPricing
namespace Arithmetic

/-- Newton's iteration, broken off after so many rounds.  There is no root if it has not
stopped by then. -/
def newtonWithin (n : Nat) : (rounds x : Nat) → Except MathError (Option Nat)
  | 0, _ => .ok none
  | rounds + 1, x => do
      let sum ← exact (x + (← quotient n x))
      if sum / 2 < x then newtonWithin n rounds (sum / 2) else .ok (some x)

/-- The iteration itself gives what it gives when it is broken off after it has stopped. -/
theorem newton_of_newtonWithin {n rounds x r : Nat}
    (h : newtonWithin n rounds x = .ok (some r)) : newton n x = .ok r := by
  induction rounds generalizing x with
  | zero => cases h
  | succ rounds ih =>
      rw [newtonWithin] at h
      simp only [bind_eq_ok_iff] at h
      rcases h with ⟨q, hq, sum, hsum, hrest⟩
      rw [newton, hq, ok_bind, hsum, ok_bind]
      split at hrest
      · rename_i hdescends
        rw [dif_pos hdescends]
        exact ih hrest
      · rename_i hstops
        rw [dif_neg hstops]
        injection hrest with hsome
        exact congrArg Except.ok (Option.some.inj hsome)

section Steps

variable {n x : Nat}

theorem newtonWithin_descend (hx : 0 < x) (habove : Nat.sqrt n < x) (hfit : 2 * x + 2 < wideSize)
    (rounds : Nat) :
    newtonWithin n (rounds + 1) x = newtonWithin n rounds ((x + n / x) / 2) := by
  have hroot := Nat.le_of_lt habove
  have hquotient := div_le_add_two hroot
  rw [newtonWithin, quotient_eq_ok (Nat.ne_of_gt hx), ok_bind, exact_eq_ok (by omega), ok_bind,
    if_pos ((step_lt_iff hx).mpr habove)]

theorem newtonWithin_stop (hn : 0 < n) (hfit : 2 * Nat.sqrt n + 2 < wideSize) (rounds : Nat) :
    newtonWithin n (rounds + 1) (Nat.sqrt n) = .ok (some (Nat.sqrt n)) := by
  have hx : 0 < Nat.sqrt n := Nat.sqrt_pos.mpr hn
  have hroot := Nat.le_refl (Nat.sqrt n)
  have hquotient := div_le_add_two hroot
  rw [newtonWithin, quotient_eq_ok (Nat.ne_of_gt hx), ok_bind, exact_eq_ok (by omega), ok_bind,
    if_neg fun h => Nat.lt_irrefl _ ((step_lt_iff hx).mp h)]

/-!
# Accuracy of the iterates
-/

/-- The iterate exceeds the exact root of `n` by at most one part in `grain` of it. -/
def Near (n grain x : Nat) : Prop :=
  (grain * x) ^ 2 ≤ (grain + 1) ^ 2 * n

/-- The accuracy that so many steps give. -/
def grainAfter : Nat → Nat
  | 0 => 1
  | steps + 1 => 2 * grainAfter steps * (grainAfter steps + 1)

/-- The square of a step, cleared of its divisor.  Both sides differ by the product of what
`x` falls short of the allowed excess by and of what it exceeds the allowed shortfall by. -/
theorem Near.mul_sum_le {grain : Nat} (habove : n ≤ x ^ 2) (h : Near n grain x) :
    (grain * (grain + 1)) ^ 2 * (x ^ 2 + n) ^ 2 ≤
      x ^ 2 * n * (grain ^ 2 + (grain + 1) ^ 2) ^ 2 := by
  have hlow : grain ^ 2 * n ≤ (grain + 1) ^ 2 * x ^ 2 :=
    Nat.mul_le_mul (Nat.pow_le_pow_left (Nat.le_succ _) 2) habove
  unfold Near at h
  rw [Nat.mul_pow] at h
  zify at h hlow ⊢
  nlinarith only [mul_nonneg (sub_nonneg.mpr h) (sub_nonneg.mpr hlow)]

/-- A step from above the root squares the excess. -/
theorem Near.step {grain : Nat} (hx : 0 < x) (habove : n ≤ x ^ 2) (h : Near n grain x) :
    Near n (2 * grain * (grain + 1)) ((x + n / x) / 2) := by
  have hstep : 2 * x * ((x + n / x) / 2) ≤ x ^ 2 + n := by
    have hhalf : (x + n / x) / 2 * 2 ≤ x + n / x := Nat.div_mul_le_self _ _
    have hquotient : n / x * x ≤ n := Nat.div_mul_le_self _ _
    nlinarith
  generalize (x + n / x) / 2 = y at hstep ⊢
  have hsquare : (2 * x * y) ^ 2 ≤ (x ^ 2 + n) ^ 2 := Nat.pow_le_pow_left hstep 2
  have hscaled : (2 * x) ^ 2 * (2 * grain * (grain + 1) * y) ^ 2 ≤
      (2 * x) ^ 2 * ((2 * grain * (grain + 1) + 1) ^ 2 * n) := by
    calc (2 * x) ^ 2 * (2 * grain * (grain + 1) * y) ^ 2
        = 4 * ((grain * (grain + 1)) ^ 2 * (2 * x * y) ^ 2) := by ring
      _ ≤ 4 * ((grain * (grain + 1)) ^ 2 * (x ^ 2 + n) ^ 2) :=
          Nat.mul_le_mul_left _ (Nat.mul_le_mul_left _ hsquare)
      _ ≤ 4 * (x ^ 2 * n * (grain ^ 2 + (grain + 1) ^ 2) ^ 2) :=
          Nat.mul_le_mul_left _ (h.mul_sum_le habove)
      _ = (2 * x) ^ 2 * ((2 * grain * (grain + 1) + 1) ^ 2 * n) := by ring
  exact Nat.le_of_mul_le_mul_left hscaled (by positivity)

/-- An iterate whose accuracy is finer than the root is the root or one more. -/
theorem Near.le_succ_sqrt {grain : Nat} (h : Near n grain x) (hfine : Nat.sqrt n < grain) :
    x ≤ Nat.sqrt n + 1 := by
  by_contra hfar
  have hbelow : n < (Nat.sqrt n + 1) ^ 2 := by
    rw [Nat.pow_two]
    exact Nat.lt_succ_sqrt n
  have hlt : (grain * x) ^ 2 < ((grain + 1) * (Nat.sqrt n + 1)) ^ 2 := by
    rw [Nat.mul_pow (grain + 1)]
    exact Nat.lt_of_le_of_lt h (Nat.mul_lt_mul_of_pos_left hbelow (by positivity))
  have hroots := lt_of_pow_lt_pow_left₀ 2 (Nat.zero_le _) hlt
  nlinarith

/-- The power of two that the iteration starts from is at most twice the root. -/
theorem near_guess (hn : 0 < n) : Near n (grainAfter 0) (2 ^ ((bitLength n + 1) / 2)) := by
  have hbits : 0 < bitLength n := by
    by_contra hzero
    have hone := lt_two_pow_bitLength n
    rw [Nat.eq_zero_of_not_pos hzero] at hone
    omega
  have hlow : 2 ^ (bitLength n - 1) ≤ n := two_pow_le_of_lt_bitLength (Nat.sub_one_lt_of_lt hbits)
  unfold Near grainAfter
  calc (1 * 2 ^ ((bitLength n + 1) / 2)) ^ 2 = 2 ^ ((bitLength n + 1) / 2 * 2) := by
        rw [Nat.one_mul, Nat.pow_mul]
    _ ≤ 2 ^ (2 + (bitLength n - 1)) := Nat.pow_le_pow_right (by decide) (by omega)
    _ ≤ (1 + 1) ^ 2 * n := by
        rw [Nat.pow_add]
        exact Nat.mul_le_mul_left _ hlow

/-!
# Rounds until the root
-/

/-- Two rounds are left for an iterate whose accuracy is finer than the root: one may bring
it down by one, and the last finds that nothing is to be gained. -/
theorem newtonWithin_of_fine {steps : Nat} (hn : 0 < n) (hroot : Nat.sqrt n ≤ x)
    (hfit : 2 * x + 2 < wideSize) (hnear : Near n (grainAfter steps) x)
    (hfine : Nat.sqrt n < grainAfter steps) :
    newtonWithin n 2 x = .ok (some (Nat.sqrt n)) := by
  have hclose := hnear.le_succ_sqrt hfine
  rcases Nat.eq_or_lt_of_le hroot with heq | habove
  · rw [← heq]
    exact newtonWithin_stop hn (by omega) 1
  · have hx : 0 < x := Nat.zero_lt_of_lt habove
    have hlow := sqrt_le_step (n := n) hx
    have hlt := (step_lt_iff hx).mpr habove
    have hlands : (x + n / x) / 2 = Nat.sqrt n := by omega
    rw [newtonWithin_descend hx habove hfit, hlands]
    exact newtonWithin_stop hn (by omega) 0

/-- Every round that does not stop makes one more step, until the accuracy is finer than the
root. -/
theorem newtonWithin_of_near (left : Nat) {steps : Nat} (hn : 0 < n) (hroot : Nat.sqrt n ≤ x)
    (hfit : 2 * x + 2 < wideSize) (hnear : Near n (grainAfter steps) x)
    (hfine : Nat.sqrt n < grainAfter (steps + left)) :
    newtonWithin n (left + 2) x = .ok (some (Nat.sqrt n)) := by
  induction left generalizing steps x with
  | zero => exact newtonWithin_of_fine hn hroot hfit hnear hfine
  | succ left ih =>
      rcases Nat.eq_or_lt_of_le hroot with heq | habove
      · rw [← heq]
        exact newtonWithin_stop hn (by omega) _
      · have hx : 0 < x := Nat.zero_lt_of_lt habove
        have hbelow : n ≤ x ^ 2 := by
          rw [Nat.pow_two]
          exact Nat.le_of_lt (Nat.sqrt_lt.mp habove)
        have hlt := (step_lt_iff hx).mpr habove
        have hfiner : Near n (grainAfter (steps + 1)) ((x + n / x) / 2) := hnear.step hx hbelow
        rw [← Nat.add_assoc, Nat.add_right_comm] at hfine
        rw [newtonWithin_descend hx habove hfit]
        exact ih (sqrt_le_step hx) (by omega) hfiner hfine

end Steps

/-- Newton's iteration stops after at most eight rounds, none of which leaves 128 bits, and
what it gives is the root rounded down. -/
theorem root_within_eight_rounds (n : BitVec 128) :
    ∃ r, isqrt n = .ok r ∧
      r.toNat * r.toNat ≤ n.toNat ∧ n.toNat < (r.toNat + 1) * (r.toNat + 1) ∧
      (2 ≤ n.toNat →
        newtonWithin n.toNat 8 (1 <<< ((bitLength n.toNat + 1) / 2)) = .ok (some r.toNat)) := by
  rcases exists_isqrt n with ⟨r, hr, hnat⟩
  refine ⟨r, hr, ?_, ?_, fun htwo => ?_⟩
  · rw [hnat]
    exact Nat.sqrt_le n.toNat
  · rw [hnat]
    exact Nat.lt_succ_sqrt n.toNat
  · have hbits : bitLength n.toNat ≤ 128 := bitLength_le_of_lt n.isLt
    have hguess : 2 ^ ((bitLength n.toNat + 1) / 2) ≤ 2 ^ 64 :=
      Nat.pow_le_pow_right (by decide) (by omega)
    have hroot := sqrt_lt_guess n.toNat
    have hfit : 2 * 2 ^ 64 + 2 < wideSize := by decide
    have hfine : 2 ^ 64 ≤ grainAfter (0 + 6) := by decide
    rw [hnat, Nat.one_shiftLeft]
    exact newtonWithin_of_near 6 (by omega) (Nat.le_of_lt hroot) (by omega)
      (near_guess (by omega)) (by omega)

/-- A root that takes all eight rounds. -/
example : newtonWithin ((2 ^ 63 + 1) * (2 ^ 63 + 1) - 1) 7 (2 ^ 64) = .ok none := by
  decide +kernel

end Arithmetic
end SwapPricing
