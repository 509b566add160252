import Mathlib
import SwapPricing.Proofs.Powers
import SwapPricing.Proofs.Refusals

/-!
# Accuracy of floored powers

Every product of square and multiply is floored, so a power never comes out above its
exact value, and where a product leaves 128 bits, the exact value is beyond every amount.
Below one, the error of the power doubles with each square that it goes through, and so
does the number of factors that the square stands for: in the end each factor costs less
than one unit.
-/

namespace SwapPricing
namespace Arithmetic

/-- A round takes the last digit of an exponent apart and the other factors two at a
time. -/
theorem pow_eq_round {M : Type} [Monoid M] (x : M) (exponent : Nat) :
    x ^ exponent = x ^ (exponent % 2) * (x * x) ^ (exponent / 2) := by
  conv_lhs => rw [← Nat.mod_add_div exponent 2, pow_add, pow_mul, pow_two]

/-- The result of a round: the power is multiplied in if the last digit is one. -/
def multiplied (exponent result power : Nat) : Nat :=
  if exponent % 2 = 1 then result * power / wad else result

theorem flooredPower_succ (rounds result power exponent : Nat) :
    flooredPower (rounds + 1) result power exponent =
      flooredPower rounds (multiplied exponent result power) (power * power / wad)
        (exponent / 2) :=
  rfl

theorem half_lt_of_lt {rounds exponent : Nat} (h : exponent < 2 ^ (rounds + 1)) :
    exponent / 2 < 2 ^ rounds := by
  rw [Nat.pow_succ] at h
  omega

/-!
# From below
-/

theorem multiplied_mul_le (exponent result power : Nat) :
    multiplied exponent result power * wad ^ (exponent % 2) ≤
      result * power ^ (exponent % 2) := by
  unfold multiplied
  split
  · rename_i hodd
    rw [hodd, Nat.pow_one, Nat.pow_one]
    exact Nat.div_mul_le_self _ _
  · rename_i heven
    rw [Nat.mod_two_ne_one.mp heven, Nat.pow_zero, Nat.pow_zero]

/-- What the exact value of the rounds left reaches, the exact value from this round on
reaches as well. -/
theorem scaled_le_of_round {n result power exponent : Nat}
    (h : n * wad ^ (exponent / 2) ≤
      multiplied exponent result power * (power * power / wad) ^ (exponent / 2)) :
    n * wad ^ exponent ≤ result * power ^ exponent := by
  have hsquare : power * power / wad * wad ≤ power * power := Nat.div_mul_le_self _ _
  calc n * wad ^ exponent
      = n * wad ^ (exponent / 2) * (wad ^ (exponent % 2) * wad ^ (exponent / 2)) := by
        rw [pow_eq_round wad, Nat.mul_pow]
        ring
    _ ≤ multiplied exponent result power * (power * power / wad) ^ (exponent / 2) *
          (wad ^ (exponent % 2) * wad ^ (exponent / 2)) := Nat.mul_le_mul_right _ h
    _ = multiplied exponent result power * wad ^ (exponent % 2) *
          (power * power / wad * wad) ^ (exponent / 2) := by
        rw [Nat.mul_pow _ wad]
        ring
    _ ≤ result * power ^ (exponent % 2) * (power * power) ^ (exponent / 2) :=
        Nat.mul_le_mul (multiplied_mul_le _ _ _) (Nat.pow_le_pow_left hsquare _)
    _ = result * power ^ exponent := by rw [pow_eq_round power exponent, Nat.mul_assoc]

/-- A floored power is never above its exact value. -/
theorem flooredPower_mul_le {rounds exponent : Nat} (result power : Nat)
    (hexponent : exponent < 2 ^ rounds) :
    flooredPower rounds result power exponent * wad ^ exponent ≤ result * power ^ exponent := by
  induction rounds generalizing result power exponent with
  | zero =>
      have hzero : exponent = 0 := by omega
      rw [hzero]
      exact Nat.le_refl _
  | succ rounds ih =>
      rw [flooredPower_succ]
      exact scaled_le_of_round (ih _ _ (half_lt_of_lt hexponent))

/-!
# Powers that leave their width
-/

theorem failsOnly_wadProduct_of_wide (a b : Nat) :
    FailsOnly (fun reason => reason = .overflow ∧ wideSize ≤ a * b) (wadProduct a b) := by
  unfold wadProduct within
  refine .bind (.ite (fun _ => .ok _) fun hwide => .error ⟨rfl, Nat.le_of_not_lt hwide⟩)
    fun n _ => ?_
  exact .of_eq_ok (quotient_eq_ok (show wad ≠ 0 by decide))

theorem wadProduct_eq_ok_iff {a b n : Nat} :
    wadProduct a b = .ok n ↔ a * b < wideSize ∧ n = a * b / wad := by
  have hwad : wad ≠ 0 := by decide
  unfold wadProduct within
  split
  · rename_i hfit
    rw [ok_bind, quotient_eq_ok hwad, Except.ok.injEq, eq_comm]
    simp [hfit]
  · rename_i hwide
    rw [error_bind]
    simp [hwide]

/-- Multiplying the power in, if the last digit is one. -/
def multiply (exponent result power : Nat) : Except MathError Nat :=
  if exponent % 2 = 1 then wadProduct result power else .ok result

/-- Squaring the power, if a digit is left that it is for. -/
def advance (exponent power : Nat) : Except MathError Nat :=
  if exponent / 2 = 0 then .ok power else wadProduct power power

theorem powerRounds_succ {exponent : Nat} (h : exponent ≠ 0) (rounds result power : Nat) :
    powerRounds (rounds + 1) result power exponent =
      (multiply exponent result power >>= fun result => advance exponent power >>= fun power =>
        if result = 0 then .ok 0 else powerRounds rounds result power (exponent / 2)) := by
  rw [powerRounds, if_neg h]
  unfold multiply advance
  split
  · split <;> rfl
  · split <;> rfl

theorem powerRounds_exponent_zero (rounds result power : Nat) :
    powerRounds rounds result power 0 = .ok result := by
  cases rounds <;> rfl

theorem multiply_eq_ok {exponent result power n : Nat}
    (h : multiply exponent result power = .ok n) : n = multiplied exponent result power := by
  unfold multiply at h
  unfold multiplied
  split at h
  · rename_i hodd
    rw [if_pos hodd, (wadProduct_eq_ok_iff.mp h).2]
  · rename_i heven
    cases h
    rw [if_neg heven]

/-- Rounds that succeed have made the floored power. -/
theorem eq_flooredPower_of_powerRounds {rounds result power exponent n : Nat}
    (h : powerRounds rounds result power exponent = .ok n) :
    n = flooredPower rounds result power exponent := by
  induction rounds generalizing result power exponent with
  | zero =>
      cases h
      rfl
  | succ rounds ih =>
      by_cases hzero : exponent = 0
      · rw [hzero, powerRounds_exponent_zero] at h
        cases h
        rw [hzero, flooredPower_exponent_zero]
      · rw [powerRounds_succ hzero] at h
        rcases bind_eq_ok_iff.mp h with ⟨product, hproduct, h⟩
        rcases bind_eq_ok_iff.mp h with ⟨square, hsquare, h⟩
        rw [flooredPower_succ, ← multiply_eq_ok hproduct]
        unfold advance at hsquare
        split at h
        · rename_i hnone
          cases h
          rw [hnone, flooredPower_result_zero]
        · split at hsquare
          · rename_i hlast
            rw [hlast, powerRounds_exponent_zero] at h
            cases h
            rw [hlast, flooredPower_exponent_zero]
          · rw [← (wadProduct_eq_ok_iff.mp hsquare).2]
            exact ih h

section Large

variable {exponent result power : Nat}

/-- A product that leaves 128 bits is no amount, also when it is scaled down. -/
theorem size_le_of_wide {n : Nat} (h : wideSize ≤ n) : UInt64.size ≤ n / wad := by
  rw [Nat.le_div_iff_mul_le (by decide)]
  exact Nat.le_trans (by decide) h

theorem wad_le_square (h : wad ≤ power) : wad ≤ power * power / wad := by
  rw [Nat.le_div_iff_mul_le (by decide)]
  exact Nat.mul_le_mul h h

theorem wad_le_multiplied (hresult : wad ≤ result) (hpower : wad ≤ power) :
    wad ≤ multiplied exponent result power := by
  unfold multiplied
  split
  · rw [Nat.le_div_iff_mul_le (by decide)]
    exact Nat.mul_le_mul hresult hpower
  · exact hresult

/-- The exact value of a power is beyond every amount. -/
def BeyondAmounts (exponent result power : Nat) : Prop :=
  UInt64.size * wad ^ exponent ≤ result * power ^ exponent

/-- From one upwards, factors that are left do not make a value any smaller. -/
theorem beyondAmounts_of_multiply (hpower : wad ≤ power) (hodd : exponent % 2 = 1)
    (hwide : wideSize ≤ result * power) : BeyondAmounts exponent result power := by
  apply scaled_le_of_round
  rw [multiplied, if_pos hodd]
  exact Nat.mul_le_mul (size_le_of_wide hwide) (Nat.pow_le_pow_left (wad_le_square hpower) _)

/-- A square is a factor of the exact value only because a digit is left. -/
theorem beyondAmounts_of_square (hresult : wad ≤ result) (hpower : wad ≤ power)
    (hleft : exponent / 2 ≠ 0) (hwide : wideSize ≤ power * power) :
    BeyondAmounts exponent result power := by
  apply scaled_le_of_round
  obtain ⟨fewer, hfewer⟩ := Nat.exists_eq_succ_of_ne_zero hleft
  rw [hfewer, Nat.pow_succ, Nat.pow_succ]
  calc UInt64.size * (wad ^ fewer * wad) = wad * (wad ^ fewer * UInt64.size) := by ring
    _ ≤ multiplied exponent result power *
          ((power * power / wad) ^ fewer * (power * power / wad)) :=
        Nat.mul_le_mul (wad_le_multiplied hresult hpower)
          (Nat.mul_le_mul (Nat.pow_le_pow_left (wad_le_square hpower) _) (size_le_of_wide hwide))

/-- From one upwards, rounds fail only where the exact value is beyond every amount. -/
theorem failsOnly_powerRounds_of_large {rounds : Nat} (hresult : wad ≤ result)
    (hpower : wad ≤ power) :
    FailsOnly (fun reason => reason = .overflow ∧ BeyondAmounts exponent result power)
      (powerRounds rounds result power exponent) := by
  induction rounds generalizing result power exponent with
  | zero => exact .ok _
  | succ rounds ih =>
      by_cases hzero : exponent = 0
      · rw [hzero, powerRounds_exponent_zero]
        exact .ok _
      · rw [powerRounds_succ hzero]
        refine .bind (.ite (fun hodd => ?_) fun _ => .ok _) fun product hproduct =>
          .bind (.ite (fun _ => .ok _) fun hleft => ?_) fun square hsquare =>
            .ite (fun _ => .ok _) fun _ => ?_
        · exact (failsOnly_wadProduct_of_wide _ _).mono fun _ h =>
            ⟨h.1, beyondAmounts_of_multiply hpower hodd h.2⟩
        · exact (failsOnly_wadProduct_of_wide _ _).mono fun _ h =>
            ⟨h.1, beyondAmounts_of_square hresult hpower hleft h.2⟩
        · rw [multiply_eq_ok hproduct]
          unfold advance at hsquare
          split at hsquare
          · rename_i hlast
            rw [hlast, powerRounds_exponent_zero]
            exact .ok _
          · rw [(wadProduct_eq_ok_iff.mp hsquare).2]
            exact (ih (wad_le_multiplied hresult hpower) (wad_le_square hpower)).mono fun _ h =>
              ⟨h.1, scaled_le_of_round h.2⟩

end Large

/-!
# Below one
-/

/-- The floored fraction `n` falls short of `x`, which is at most one, by no more than `loss`
units. -/
structure Approximates (n : Nat) (x loss : ℚ) : Prop where
  nonneg : 0 ≤ x
  le_one : x ≤ 1
  loss_nonneg : 0 ≤ loss
  near : x * wad ≤ n + loss

namespace Approximates

variable {m n : Nat} {x y loss loss' : ℚ}

/-- Flooring a product costs one unit, and multiplying by at most one costs nothing. -/
theorem mul (hm : Approximates m y loss) (hn : Approximates n x loss') (hle : n ≤ wad) :
    Approximates (m * n / wad) (y * x) (loss + loss' + 1) := by
  refine ⟨mul_nonneg hm.nonneg hn.nonneg, mul_le_one₀ hm.le_one hn.nonneg hn.le_one,
    add_nonneg (add_nonneg hm.loss_nonneg hn.loss_nonneg) zero_le_one, ?_⟩
  have hwad : (0 : ℚ) < wad := by exact_mod_cast (by decide : 0 < wad)
  have hfloor : (m : ℚ) * n ≤ ((m * n / wad : Nat) + 1) * wad := by
    exact_mod_cast Nat.le_of_lt (Nat.lt_mul_of_div_lt (Nat.lt_succ_self _) (by decide))
  have hloss : loss * n ≤ loss * wad :=
    mul_le_mul_of_nonneg_left (by exact_mod_cast hle) hm.loss_nonneg
  have hloss' : y * loss' ≤ loss' := mul_le_of_le_one_left hn.loss_nonneg hm.le_one
  apply le_of_mul_le_mul_right _ hwad
  calc y * x * wad * wad = y * (x * wad) * wad := by ring
    _ ≤ y * (n + loss') * wad :=
        mul_le_mul_of_nonneg_right (mul_le_mul_of_nonneg_left hn.near hm.nonneg) hwad.le
    _ = y * wad * n + y * loss' * wad := by ring
    _ ≤ (m + loss) * n + loss' * wad :=
        add_le_add (mul_le_mul_of_nonneg_right hm.near (Nat.cast_nonneg n))
          (mul_le_mul_of_nonneg_right hloss' hwad.le)
    _ = m * n + loss * n + loss' * wad := by ring
    _ ≤ ((m * n / wad : Nat) + 1) * wad + loss * wad + loss' * wad :=
        add_le_add (add_le_add hfloor hloss) le_rfl
    _ = ((m * n / wad : Nat) + (loss + loss' + 1)) * wad := by ring

/-- Each factor of a power costs one unit, and what it falls short by itself. -/
theorem flooredPower {rounds exponent : Nat} (hm : Approximates m y loss)
    (hn : Approximates n x loss') (hle : n ≤ wad) (hexponent : exponent < 2 ^ rounds) :
    Approximates (Arithmetic.flooredPower rounds m n exponent) (y * x ^ exponent)
      (loss + (loss' + 1) * exponent) := by
  induction rounds generalizing m n x y loss loss' exponent with
  | zero =>
      have hzero : exponent = 0 := by omega
      rw [hzero, pow_zero, mul_one, Nat.cast_zero, mul_zero, add_zero]
      exact hm
  | succ rounds ih =>
      have hsquare := hn.mul hn hle
      have hsquareLe : n * n / wad ≤ wad := Nat.le_trans (mul_div_wad_le hle) hle
      rw [pow_eq_round x exponent, ← mul_assoc]
      rcases Nat.mod_two_eq_zero_or_one exponent with heven | hodd
      · have hdigits : (exponent : ℚ) = 2 * (exponent / 2 : Nat) := by
          exact_mod_cast (show exponent = 2 * (exponent / 2) by omega)
        have hrest := ih hm hsquare hsquareLe (half_lt_of_lt hexponent)
        rw [flooredPower_even heven, heven, pow_zero, mul_one]
        convert hrest using 1
        rw [hdigits]
        ring
      · have hdigits : (exponent : ℚ) = 2 * (exponent / 2 : Nat) + 1 := by
          exact_mod_cast (show exponent = 2 * (exponent / 2) + 1 by omega)
        have hrest := ih (hm.mul hn hle) hsquare hsquareLe (half_lt_of_lt hexponent)
        rw [flooredPower_odd hodd, hodd, pow_one]
        convert hrest using 1
        rw [hdigits]
        ring

end Approximates

/-!
# Powers in words
-/

section Words

variable {base exponent r : UInt64}

theorem wad_pow_eq {exponent : Nat} (hpos : 0 < exponent) :
    wad ^ exponent = wad ^ (exponent - 1) * wad := by
  rw [← Nat.pow_succ, Nat.succ_eq_add_one, Nat.sub_add_cancel hpos]

/-- One factor of the scale is that of the result itself. -/
theorem le_pow_of_scaled {n base exponent : Nat} (hpos : 0 < exponent)
    (h : n * wad ^ exponent ≤ wad * base ^ exponent) :
    n * wad ^ (exponent - 1) ≤ base ^ exponent := by
  rw [wad_pow_eq hpos, ← Nat.mul_assoc, Nat.mul_comm wad] at h
  exact Nat.le_of_mul_le_mul_right h (by decide)

theorem exists_wadPower (hbase : base.toNat ≤ wad) (exponent : UInt64) :
    ∃ r, wadPower base exponent = .ok r ∧
      r.toNat = flooredPower 64 wad base.toNat exponent.toNat ∧ r.toNat ≤ wad := by
  have hle : flooredPower 64 wad base.toNat exponent.toNat ≤ wad := by
    have hanti := flooredPower_anti hbase (Nat.zero_le _) exponent.toNat_lt
    rwa [flooredPower_exponent_zero] at hanti
  rcases exists_word .overflow (Nat.lt_of_le_of_lt hle (show wad < UInt64.size by decide)) with
    ⟨r, -, hr⟩
  exact ⟨r, (wadPower_eq_ok_iff hbase).mpr hr, hr, hr ▸ hle⟩

theorem wadPower_mul_le (hpos : 0 < exponent.toNat) (h : wadPower base exponent = .ok r) :
    r.toNat * wad ^ (exponent.toNat - 1) ≤ base.toNat ^ exponent.toNat := by
  rcases bind_eq_ok_iff.mp h with ⟨n, hrounds, hnarrow⟩
  rw [narrow_eq_ok_iff.mp hnarrow, eq_flooredPower_of_powerRounds hrounds]
  exact le_pow_of_scaled hpos (flooredPower_mul_le wad base.toNat exponent.toNat_lt)

/-- A power fails only where its exact value is beyond every amount. -/
theorem failsOnly_wadPower_of_beyond (base exponent : UInt64) :
    FailsOnly (fun reason => reason = .overflow ∧ BeyondAmounts exponent.toNat wad base.toNat)
      (wadPower base exponent) := by
  rcases Nat.le_total base.toNat wad with hbase | hbase
  · rcases exists_wadPower hbase exponent with ⟨r, hr, -⟩
    exact .of_eq_ok hr
  · refine .bind (failsOnly_powerRounds_of_large (Nat.le_refl wad) hbase) fun n hrounds => ?_
    rintro reason hreason
    refine ⟨failsOnly_word _ _ _ hreason, ?_⟩
    have hwide : UInt64.size ≤ n := by
      by_contra hfit
      have hok : narrow n = _ := word_eq_ok (Nat.lt_of_not_le hfit)
      cases hreason.symm.trans hok
    have hle := flooredPower_mul_le wad base.toNat exponent.toNat_lt
    rw [← eq_flooredPower_of_powerRounds hrounds] at hle
    exact Nat.le_trans (Nat.mul_le_mul_right _ hwide) hle

/-- The power of a fraction of at most one is at most one unit low for each factor. -/
theorem pow_le_wadPower_add (hbase : base.toNat ≤ wad) (hpos : 0 < exponent.toNat)
    (h : wadPower base exponent = .ok r) :
    base.toNat ^ exponent.toNat ≤
      (r.toNat + exponent.toNat) * wad ^ (exponent.toNat - 1) := by
  have hwad : (0 : ℚ) < wad := by exact_mod_cast (by decide : 0 < wad)
  have hone : Approximates wad 1 0 := ⟨zero_le_one, le_rfl, le_rfl, by rw [one_mul, add_zero]⟩
  have hfraction : Approximates base.toNat (base.toNat / wad) 0 := by
    refine ⟨by positivity, ?_, le_rfl, ?_⟩
    · rw [div_le_one hwad]
      exact_mod_cast hbase
    · rw [div_mul_cancel₀ _ hwad.ne', add_zero]
  have hnear := (hone.flooredPower hfraction hbase exponent.toNat_lt).near
  rw [← (wadPower_eq_ok_iff hbase).mp h, one_mul, zero_add, zero_add, one_mul, div_pow,
    div_mul_eq_mul_div, div_le_iff₀ (pow_pos hwad _)] at hnear
  have hscaled : base.toNat ^ exponent.toNat * wad ≤
      (r.toNat + exponent.toNat) * wad ^ exponent.toNat := by
    exact_mod_cast hnear
  rw [wad_pow_eq hpos, ← Nat.mul_assoc] at hscaled
  exact Nat.le_of_mul_le_mul_right hscaled (by decide)

end Words

/-- A power never comes out above its exact value, and fails only where that is beyond every
amount.  Up to a base of one it never fails, is at most one, and is low by at most one unit
for each factor; it never grows with the exponent, and never shrinks with the base. -/
theorem power_near_exact {base exponent : UInt64} (hexponent : 0 < exponent) :
    (∀ r, wadPower base exponent = .ok r →
      r.toNat * wad ^ (exponent.toNat - 1) ≤ base.toNat ^ exponent.toNat) ∧
    (∀ reason, wadPower base exponent = .error reason → reason = .overflow ∧
      maxAmount * wad ^ (exponent.toNat - 1) < base.toNat ^ exponent.toNat) ∧
    (base.toNat ≤ wad → ∃ r, wadPower base exponent = .ok r ∧ r.toNat ≤ wad ∧
      base.toNat ^ exponent.toNat ≤
        (r.toNat + exponent.toNat) * wad ^ (exponent.toNat - 1) ∧
      (∀ more, exponent ≤ more → ∃ faded, wadPower base more = .ok faded ∧ faded ≤ r) ∧
      ∀ larger : UInt64, base ≤ larger → larger.toNat ≤ wad →
        ∃ raised, wadPower larger exponent = .ok raised ∧ r ≤ raised) := by
  have hpos : 0 < exponent.toNat := UInt64.lt_iff_toNat_lt.mp hexponent
  refine ⟨fun r => wadPower_mul_le hpos, ?_, ?_⟩
  · intro reason hreason
    rcases failsOnly_wadPower_of_beyond base exponent reason hreason with ⟨hoverflow, hbeyond⟩
    refine ⟨hoverflow, Nat.lt_of_lt_of_le ?_ (le_pow_of_scaled hpos hbeyond)⟩
    exact Nat.mul_lt_mul_of_pos_right (by decide) (Nat.pow_pos (by decide))
  · intro hbase
    rcases exists_wadPower hbase exponent with ⟨r, hr, hnat, hle⟩
    refine ⟨r, hr, hle, pow_le_wadPower_add hbase hpos hr, ?_, ?_⟩
    · intro more hmore
      rcases exists_wadPower hbase more with ⟨faded, hfaded, -, -⟩
      exact ⟨faded, hfaded, wadPower_anti hbase hmore hr hfaded⟩
    · intro larger hlarger hlargerLe
      rcases exists_wadPower hlargerLe exponent with ⟨raised, hraised, hraisedNat, -⟩
      refine ⟨raised, hraised, ?_⟩
      rw [UInt64.le_iff_toNat_le, hnat, hraisedNat]
      exact flooredPower_mono (Nat.le_refl wad) (UInt64.le_iff_toNat_le.mp hlarger) _ _

/-- The power that an auction with a decay of nine tenths has after five seconds, and one of
three that is beyond every amount after a hundred. -/
theorem power_near_exact_of_decay :
    (∃ r, wadPower 900000000000000000 5 = .ok r ∧ r.toNat ≤ wad ∧
      900000000000000000 ^ 5 ≤ (r.toNat + 5) * wad ^ 4 ∧
      r.toNat * wad ^ 4 ≤ 900000000000000000 ^ 5) ∧
    wadPower 3000000000000000000 100 = .error .overflow ∧
    maxAmount * wad ^ 99 < 3000000000000000000 ^ 100 := by
  have hfailed : wadPower 3000000000000000000 100 = .error .overflow := by decide +kernel
  have hfive : (0 : UInt64) < 5 := by decide
  have hhundred : (0 : UInt64) < 100 := by decide
  refine ⟨?_, hfailed, ((power_near_exact hhundred).2.1 _ hfailed).2⟩
  have hbase : (900000000000000000 : UInt64).toNat ≤ wad := by decide
  rcases (power_near_exact hfive).2.2 hbase with ⟨r, hr, hle, hnear, -, -⟩
  exact ⟨r, hr, hle, hnear, (power_near_exact hfive).1 r hr⟩

end Arithmetic
end SwapPricing
