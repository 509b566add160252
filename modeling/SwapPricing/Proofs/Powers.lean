import SwapPricing.Proofs.Rounding

/-!
# Floored powers

Square and multiply takes a different path for every exponent, and floors each
product on it.  Even so, the power of a fraction of at most one never grows with the
exponent: adding one to an exponent either multiplies in one more factor, or moves
the carry one round on, where the square is no larger than what it replaces.
-/

namespace SwapPricing
namespace Arithmetic

/-!
# Powers without widths
-/

/-- Square and multiply over natural numbers, with every product floored.  All rounds
are made, also those that no digit of the exponent is left for. -/
def flooredPower : (rounds : Nat) → (result power exponent : Nat) → Nat
  | 0, result, _, _ => result
  | rounds + 1, result, power, exponent =>
      flooredPower rounds (if exponent % 2 = 1 then result * power / wad else result)
        (power * power / wad) (exponent / 2)

theorem flooredPower_even {exponent : Nat} (h : exponent % 2 = 0) (rounds result power : Nat) :
    flooredPower (rounds + 1) result power exponent =
      flooredPower rounds result (power * power / wad) (exponent / 2) := by
  rw [flooredPower, if_neg (by omega)]

theorem flooredPower_odd {exponent : Nat} (h : exponent % 2 = 1) (rounds result power : Nat) :
    flooredPower (rounds + 1) result power exponent =
      flooredPower rounds (result * power / wad) (power * power / wad) (exponent / 2) := by
  rw [flooredPower, if_pos h]

/-- Rounds that no digit is left for change nothing. -/
theorem flooredPower_exponent_zero (rounds result power : Nat) :
    flooredPower rounds result power 0 = result := by
  induction rounds generalizing power with
  | zero => rfl
  | succ rounds ih => exact (flooredPower_even rfl rounds result power).trans (ih _)

/-- A result of zero stays zero. -/
theorem flooredPower_result_zero (rounds power exponent : Nat) :
    flooredPower rounds 0 power exponent = 0 := by
  induction rounds generalizing power exponent with
  | zero => rfl
  | succ rounds ih =>
      rw [flooredPower]
      split
      · rw [Nat.zero_mul, Nat.zero_div]
        exact ih _ _
      · exact ih _ _

theorem mul_div_wad_le {a b : Nat} (hb : b ≤ wad) : a * b / wad ≤ a := by
  apply Nat.div_le_of_le_mul
  rw [Nat.mul_comm]
  exact Nat.mul_le_mul_right _ hb

theorem flooredPower_mono {result result' power power' : Nat} (hresult : result ≤ result')
    (hpower : power ≤ power') (rounds exponent : Nat) :
    flooredPower rounds result power exponent ≤ flooredPower rounds result' power' exponent := by
  induction rounds generalizing result result' power power' exponent with
  | zero => exact hresult
  | succ rounds ih =>
      have hsquare : power * power / wad ≤ power' * power' / wad :=
        Nat.div_le_div_right (Nat.mul_le_mul hpower hpower)
      rw [flooredPower, flooredPower]
      split
      · exact ih (Nat.div_le_div_right (Nat.mul_le_mul hresult hpower)) hsquare _
      · exact ih hresult hsquare _

/-!
# One more factor
-/

/-- One more factor is worth no more than any result that the power does not exceed. -/
theorem flooredPower_succ_le {rounds result power exponent : Nat} (hresult : power ≤ result)
    (hpower : power ≤ wad) (hexponent : exponent + 1 < 2 ^ rounds) :
    flooredPower rounds wad power (exponent + 1) ≤
      flooredPower rounds result power exponent := by
  have hwad : 0 < wad := by decide
  induction rounds generalizing result power exponent with
  | zero => exact absurd hexponent (by omega)
  | succ rounds ih =>
      rcases Nat.mod_two_eq_zero_or_one exponent with heven | hodd
      · -- The last digit becomes one, and the rest stays as it is.
        have hhalf : (exponent + 1) / 2 = exponent / 2 := by omega
        rw [flooredPower_odd (by omega), flooredPower_even heven, hhalf,
          Nat.mul_div_cancel_left power hwad]
        exact flooredPower_mono hresult (Nat.le_refl _) _ _
      · -- The carry meets the square, where the other side has multiplied the power in.
        have hhalf : (exponent + 1) / 2 = exponent / 2 + 1 := by omega
        rw [flooredPower_even (by omega), flooredPower_odd hodd, hhalf]
        refine ih (Nat.div_le_div_right (Nat.mul_le_mul_right _ hresult))
          (Nat.le_trans (mul_div_wad_le hpower) hpower) ?_
        rw [Nat.pow_succ] at hexponent
        omega

/-- The power of a fraction of at most one never grows with the exponent. -/
theorem flooredPower_anti {rounds power exponent more : Nat} (hpower : power ≤ wad)
    (hle : exponent ≤ more) (hmore : more < 2 ^ rounds) :
    flooredPower rounds wad power more ≤ flooredPower rounds wad power exponent := by
  induction more, hle using Nat.le_induction with
  | base => exact Nat.le_refl _
  | succ more hle ih =>
      exact Nat.le_trans (flooredPower_succ_le hpower hpower hmore)
        (ih (Nat.lt_of_succ_lt hmore))

/-!
# Powers in words
-/

theorem wadProduct_eq_ok {a b : Nat} (ha : a ≤ wad) (hb : b ≤ wad) :
    wadProduct a b = .ok (a * b / wad) := by
  have hfit : a * b < wideSize :=
    Nat.lt_of_le_of_lt (Nat.mul_le_mul ha hb) (show wad * wad < wideSize by decide)
  rw [wadProduct, within_eq_ok hfit, ok_bind]
  exact quotient_eq_ok (by decide)

/-- Of fractions of at most one, no product is too wide, and a round that is left out
would change nothing. -/
theorem powerRounds_eq_ok {result power : Nat} (hresult : result ≤ wad) (hpower : power ≤ wad)
    (rounds exponent : Nat) :
    powerRounds rounds result power exponent =
      .ok (flooredPower rounds result power exponent) := by
  induction rounds generalizing result power exponent with
  | zero => rfl
  | succ rounds ih =>
      have hsquare := Nat.le_trans (mul_div_wad_le (a := power) hpower) hpower
      have hround : ∀ result ≤ wad, (do
          let power ← if exponent / 2 = 0 then .ok power else wadProduct power power
          if result = 0 then .ok 0 else powerRounds rounds result power (exponent / 2) :
            Except MathError Nat) =
          .ok (flooredPower rounds result (power * power / wad) (exponent / 2)) := by
        intro result hresult
        by_cases hlast : exponent / 2 = 0
        · rw [if_pos hlast, ok_bind]
          show (if result = 0 then _ else _) = _
          split
          · rename_i hzero
            rw [hzero, flooredPower_result_zero]
          · rw [ih hresult hpower, hlast, flooredPower_exponent_zero, flooredPower_exponent_zero]
        · rw [if_neg hlast, wadProduct_eq_ok hpower hpower, ok_bind]
          split
          · rename_i hzero
            rw [hzero, flooredPower_result_zero]
          · exact ih hresult hsquare _
      rw [powerRounds]
      by_cases hzero : exponent = 0
      · rw [if_pos hzero, hzero, flooredPower_exponent_zero]
      · rw [if_neg hzero, flooredPower]
        by_cases hodd : exponent % 2 = 1
        · rw [if_pos hodd, if_pos hodd, wadProduct_eq_ok hresult hpower, ok_bind]
          exact hround _ (Nat.le_trans (mul_div_wad_le hpower) hresult)
        · rw [if_neg hodd, if_neg hodd, ok_bind]
          exact hround _ hresult

theorem wadPower_eq_ok_iff {base exponent factor : UInt64} (hbase : base.toNat ≤ wad) :
    wadPower base exponent = .ok factor ↔
      factor.toNat = flooredPower 64 wad base.toNat exponent.toNat := by
  rw [wadPower, powerRounds_eq_ok (Nat.le_refl wad) hbase, ok_bind]
  exact narrow_eq_ok_iff

/-- Fading for longer never leaves more. -/
theorem wadPower_anti {base exponent more factor faded : UInt64} (hbase : base.toNat ≤ wad)
    (hle : exponent ≤ more) (hfactor : wadPower base exponent = .ok factor)
    (hfaded : wadPower base more = .ok faded) : faded ≤ factor := by
  rw [UInt64.le_iff_toNat_le, (wadPower_eq_ok_iff hbase).mp hfactor,
    (wadPower_eq_ok_iff hbase).mp hfaded]
  exact flooredPower_anti hbase (UInt64.le_iff_toNat_le.mp hle) more.toNat_lt

end Arithmetic
end SwapPricing
