import Mathlib
import SwapPricing.Proofs.Foreseen
import SwapPricing.Proofs.Monotony
import SwapPricing.Proofs.RateBounds

/-!
# Clamping to a rate bound

A bound on the rate can be demanded, or the unknown amount can be clamped to it.  Both
compare the amounts in their own way: the demand multiplies crosswise, the clamp divides.
They agree on what keeps to the bound, so a clamp moves refused amounts to the nearest
ones that the demand accepts.  The limit of a clamp must fit in an amount, though, even
where the amount is nowhere near it.
-/

namespace SwapPricing

namespace Leg

/-- Whether the unknown amount of a trade that fixes the amount on this leg keeps to a
limit: an output may not exceed it, and an input may not fall short of it. -/
def KeepsLimit (fixed : Leg) (amount : UInt64) (limit : Nat) : Prop :=
  match fixed with
  | .input => amount.toNat ≤ limit
  | .output => limit ≤ amount.toNat

/-- The unknown amount, moved to `limit` unless it keeps to it. -/
def clamp (fixed : Leg) (amount limit : UInt64) : UInt64 :=
  match fixed with
  | .input => min amount limit
  | .output => max amount limit

variable {fixed : Leg} {amount limit : UInt64}

theorem keepsLimit_self (fixed : Leg) (amount : UInt64) : fixed.KeepsLimit amount amount.toNat := by
  cases fixed <;> exact Nat.le_refl _

theorem keepsLimit_iff_orders :
    fixed.KeepsLimit amount limit.toNat ↔ fixed.Orders amount limit := by
  cases fixed <;> exact UInt64.le_iff_toNat_le.symm

theorem clamp_of_keepsLimit (h : fixed.KeepsLimit amount limit.toNat) :
    fixed.clamp amount limit = amount := by
  cases fixed with
  | input => exact if_pos (UInt64.le_iff_toNat_le.mpr h)
  | output =>
      show (if amount ≤ limit then limit else amount) = amount
      split
      · rename_i hle
        exact UInt64.le_antisymm (UInt64.le_iff_toNat_le.mpr h) hle
      · rfl

theorem clamp_of_not_keepsLimit (h : ¬ fixed.KeepsLimit amount limit.toNat) :
    fixed.clamp amount limit = limit := by
  cases fixed with
  | input => exact if_neg fun hle => h (UInt64.le_iff_toNat_le.mp hle)
  | output =>
      have hlt : amount < limit := UInt64.lt_iff_toNat_lt.mpr (Nat.lt_of_not_le h)
      exact if_pos (UInt64.le_of_lt hlt)

/-- Beyond all amounts, a limit holds every output and no input. -/
theorem keepsLimit_iff_of_lt {limit : Nat} (h : Arithmetic.maxAmount < limit) :
    fixed.KeepsLimit amount limit ↔ fixed = .input := by
  have hle : amount.toNat ≤ Arithmetic.maxAmount := Nat.le_sub_one_of_lt amount.toNat_lt
  cases fixed with
  | input => exact iff_of_true (Nat.le_trans hle (Nat.le_of_lt h)) rfl
  | output => exact iff_of_false (Nat.not_le_of_lt (Nat.lt_of_le_of_lt hle h)) nofun

end Leg

namespace RateBound

/-- The unknown amount at which a bound has nothing to spare, rounded against the taker. -/
def limit (bound : RateBound) (query : Query) (r : Registers) : Nat :=
  let rates := query.orient bound.lower bound.higher
  match query.fixed with
  | .input => r.amountIn.toNat * rates.2.toNat / rates.1.toNat
  | .output => r.amountOut.toNat * rates.1.toNat ⌈/⌉ rates.2.toNat

variable {bound : RateBound} {query : Query}

/-- The limit follows from the fixed amount alone. -/
theorem limit_setAmount (r : Registers) (amount : UInt64) :
    bound.limit query (r.setAmount query.unknown amount) = bound.limit query r := by
  unfold limit Query.unknown
  cases query.fixed <;> rfl

/-- Multiplying crosswise and dividing agree on which amounts keep to a bound. -/
theorem heldBy_iff_keepsLimit (h : bound.lower ≠ 0 ∧ bound.higher ≠ 0) (r : Registers) :
    bound.HeldBy query r ↔
      query.fixed.KeepsLimit (r.amount query.unknown) (bound.limit query r) := by
  have hrates := Machine.orient_of_both (P := (· ≠ 0)) query h
  unfold HeldBy limit Query.unknown
  generalize query.orient bound.lower bound.higher = rates at hrates ⊢
  rcases rates with ⟨rateIn, rateOut⟩
  have hin : 0 < rateIn.toNat := Nat.pos_of_ne_zero (Arithmetic.toNat_ne_zero hrates.1)
  have hout : 0 < rateOut.toNat := Nat.pos_of_ne_zero (Arithmetic.toNat_ne_zero hrates.2)
  cases query.fixed with
  | input => exact (Nat.le_div_iff_mul_le hin).symm
  | output =>
      show _ ↔ _ ⌈/⌉ rateOut.toNat ≤ r.amountIn.toNat
      rw [ceilDiv_le_iff_le_mul hout, Nat.mul_comm rateOut.toNat]

end RateBound

namespace Machine

open Arithmetic (maxAmount narrow)

section Clamps

variable {setup : Setup} {bound : RateBound} {s : State}

theorem State.setAmount_amount (s : State) (leg : Leg) :
    s.setAmount leg (s.registers.amount leg) = s := by
  cases leg <;> rfl

theorem minRateRequire_eq_ok_iff (hsolved : s.solved = true) :
    minRateRequire setup bound s = .ok s ↔ bound.HeldBy setup.query s.registers := by
  constructor
  · intro h
    exact (heldBy_of_minRateRequire h).2
  · intro h
    have hwithin : withinRate s.registers.amountIn s.registers.amountOut
        (setup.query.orient bound.lower bound.higher).1
        (setup.query.orient bound.lower bound.higher).2 = true := decide_eq_true h
    simp only [minRateRequire, bind_eq_ok_iff, requireSolved_eq_ok_iff, check_eq_ok_iff,
      pure_eq_ok_iff, and_true]
    exact ⟨(), hsolved, (), hwithin⟩

/-- A clamp narrows its limit and then moves the unknown amount. -/
theorem minRateAdjust_eq (h : bound.lower ≠ 0 ∧ bound.higher ≠ 0) (hsolved : s.solved = true) :
    minRateAdjust setup bound s = (do
      let limit ← calculate .minRateAdjust (narrow (bound.limit setup.query s.registers))
      .ok (s.setAmount setup.query.unknown
        (setup.query.fixed.clamp (s.registers.amount setup.query.unknown) limit))) := by
  have hrates := orient_of_both (P := (· ≠ 0)) setup.query h
  have hstart : s.requireSolved .minRateAdjust = .ok () := requireSolved_eq_ok_iff.mpr hsolved
  unfold minRateAdjust RateBound.limit Query.unknown
  rw [hstart, ok_bind]
  generalize setup.query.orient bound.lower bound.higher = rates at hrates ⊢
  rcases rates with ⟨rateIn, rateOut⟩
  cases setup.query.fixed with
  | input =>
      show calculate _ (Arithmetic.mulDivFloor _ _ rateIn) >>= _ = _
      rw [Arithmetic.mulDivFloor_eq _ _ hrates.1]
      rfl
  | output =>
      show calculate _ (Arithmetic.mulDivCeil _ _ rateOut) >>= _ = _
      rw [Arithmetic.mulDivCeil_eq _ _ hrates.2]
      rfl

/-- A clamp whose limit fits always succeeds. -/
theorem minRateAdjust_eq_ok_of_le (h : bound.lower ≠ 0 ∧ bound.higher ≠ 0)
    (hsolved : s.solved = true) (hfit : bound.limit setup.query s.registers ≤ maxAmount) :
    ∃ limit : UInt64, limit.toNat = bound.limit setup.query s.registers ∧
      minRateAdjust setup bound s = .ok (s.setAmount setup.query.unknown
        (setup.query.fixed.clamp (s.registers.amount setup.query.unknown) limit)) := by
  have hlt : bound.limit setup.query s.registers < UInt64.size :=
    Nat.lt_of_le_of_lt hfit (by decide)
  rcases Arithmetic.exists_word .overflow hlt with ⟨limit, hlimit, hnat⟩
  have hnarrow : calculate .minRateAdjust (narrow (bound.limit setup.query s.registers)) =
      .ok limit := calculate_eq_ok_iff.mpr hlimit
  refine ⟨limit, hnat, ?_⟩
  rw [minRateAdjust_eq h hsolved, hnarrow, ok_bind]

theorem minRateAdjust_eq_overflow (h : bound.lower ≠ 0 ∧ bound.higher ≠ 0)
    (hsolved : s.solved = true) (hwide : maxAmount < bound.limit setup.query s.registers) :
    minRateAdjust setup bound s = .error (.arithmetic .minRateAdjust .overflow) := by
  rw [minRateAdjust_eq h hsolved, Arithmetic.narrow_eq_overflow hwide]
  rfl

/-- Whether the demand for a bound lets `amount` pass as the unknown amount. -/
def Accepts (setup : Setup) (bound : RateBound) (s : State) (amount : UInt64) : Prop :=
  minRateRequire setup bound (s.setAmount setup.query.unknown amount) =
    .ok (s.setAmount setup.query.unknown amount)

theorem accepts_iff_keepsLimit (h : bound.lower ≠ 0 ∧ bound.higher ≠ 0) (hsolved : s.solved = true)
    (amount : UInt64) : Accepts setup bound s amount ↔
      setup.query.fixed.KeepsLimit amount (bound.limit setup.query s.registers) := by
  have hregisters : (s.setAmount setup.query.unknown amount).registers =
      s.registers.setAmount setup.query.unknown amount := rfl
  have hsolved' : (s.setAmount setup.query.unknown amount).solved = true := hsolved
  unfold Accepts
  rw [minRateRequire_eq_ok_iff hsolved', RateBound.heldBy_iff_keepsLimit h, hregisters,
    RateBound.limit_setAmount, Registers.amount_setAmount]

theorem accepts_amount_iff : Accepts setup bound s (s.registers.amount setup.query.unknown) ↔
    minRateRequire setup bound s = .ok s := by
  unfold Accepts
  rw [State.setAmount_amount]

/-- Clamping projects onto what the demand accepts, but for limits that do not fit.  What the
demand accepts is left as it is, unless the limit on an output does not fit in an amount;
then the clamp overflows.  What it refuses is moved to the nearest amount that it accepts,
and the clamp only overflows where it accepts no amount at all. -/
theorem rate_clamp_projects {setup : Setup} {bound : RateBound} {s : State}
    (hlower : bound.lower ≠ 0) (hhigher : bound.higher ≠ 0) (hsolved : s.solved = true) :
    (minRateRequire setup bound s = .ok s →
      if bound.limit setup.query s.registers ≤ maxAmount then
        minRateAdjust setup bound s = .ok s
      else
        setup.query.fixed = .input ∧
          minRateAdjust setup bound s = .error (.arithmetic .minRateAdjust .overflow)) ∧
    (minRateRequire setup bound s ≠ .ok s →
      (∃ best, minRateAdjust setup bound s = .ok (s.setAmount setup.query.unknown best) ∧
        Accepts setup bound s best ∧
        ∀ amount, Accepts setup bound s amount → setup.query.fixed.Orders amount best) ∨
      (∀ amount, ¬ Accepts setup bound s amount) ∧
        minRateAdjust setup bound s = .error (.arithmetic .minRateAdjust .overflow)) := by
  have hrates : bound.lower ≠ 0 ∧ bound.higher ≠ 0 := ⟨hlower, hhigher⟩
  have haccepts : ∀ amount, Accepts setup bound s amount ↔
      setup.query.fixed.KeepsLimit amount (bound.limit setup.query s.registers) :=
    accepts_iff_keepsLimit hrates hsolved
  rw [ne_eq, ← accepts_amount_iff]
  by_cases hfit : bound.limit setup.query s.registers ≤ maxAmount
  · rcases minRateAdjust_eq_ok_of_le hrates hsolved hfit with ⟨limit, hnat, hadjust⟩
    rw [← hnat] at haccepts
    constructor
    · intro haccepted
      have hkept := Leg.clamp_of_keepsLimit ((haccepts _).mp haccepted)
      rw [if_pos hfit, hadjust, hkept, State.setAmount_amount]
    · intro hrefused
      have hmoved := Leg.clamp_of_not_keepsLimit (mt (haccepts _).mpr hrefused)
      rw [hmoved] at hadjust
      have hlimit : Accepts setup bound s limit :=
        (haccepts limit).mpr (Leg.keepsLimit_self _ limit)
      exact .inl ⟨limit, hadjust, hlimit, fun amount haccepted =>
        Leg.keepsLimit_iff_orders.mp ((haccepts amount).mp haccepted)⟩
  · have hwide := Nat.lt_of_not_le hfit
    have hadjust := minRateAdjust_eq_overflow hrates hsolved hwide
    simp only [Leg.keepsLimit_iff_of_lt hwide] at haccepts
    constructor
    · intro haccepted
      rw [if_neg hfit]
      exact ⟨(haccepts _).mp haccepted, hadjust⟩
    · intro hrefused
      have hnone : ∀ amount, ¬ Accepts setup bound s amount := by
        intro amount haccepted
        exact hrefused ((haccepts _).mpr ((haccepts amount).mp haccepted))
      exact .inr ⟨hnone, hadjust⟩

end Clamps

def clampingBytes : List UInt8 :=
  Operation.recorded 7 (.staticBalances [(.single 65, 1000), (.single 66, 10000)]) ++
    Operation.recorded 10 .solve ++ Operation.recorded 23 (.minRateAdjust ⟨1, 4⟩)

/-- A pool that pays at most four of the higher asset for one of the lower. -/
def clampingPool : Program where
  id := .single 80
  bytes := clampingBytes.toArray
  records := #[⟨0, .staticBalances [(.single 65, 1000), (.single 66, 10000)]⟩,
    ⟨82, .solve⟩, ⟨84, .minRateAdjust ⟨1, 4⟩⟩]

/-- A taker sells `amount` of the lower asset to the pool. -/
def clampedSetup (amount : UInt64) : Setup where
  program := clampingPool
  query := Query.simulated .input (.single 65) (.single 66) amount
  environment := (Observations.atTime 100).environment
  external := .absent

/-- The state in which the pool clamps `amountOut`. -/
def clampedState (amount amountOut : UInt64) : State :=
  { ((State.initial (clampedSetup amount).query .empty).setBalances 1000 10000).setAmount .output
      amountOut with solved := true, next := 3, steps := 3 }

theorem rate_clamp_projects_payouts :
    minRateAdjust (clampedSetup 100) ⟨1, 4⟩ (clampedState 100 300) = .ok (clampedState 100 300) ∧
    ∃ best, minRateAdjust (clampedSetup 100) ⟨1, 4⟩ (clampedState 100 909) =
        .ok (clampedState 100 best) ∧
      Accepts (clampedSetup 100) ⟨1, 4⟩ (clampedState 100 909) best ∧
      ∀ amount, Accepts (clampedSetup 100) ⟨1, 4⟩ (clampedState 100 909) amount →
        amount ≤ best := by
  have hlower : (⟨1, 4⟩ : RateBound).lower ≠ 0 := by decide
  have hhigher : (⟨1, 4⟩ : RateBound).higher ≠ 0 := by decide
  have haccepted : minRateRequire (clampedSetup 100) ⟨1, 4⟩ (clampedState 100 300) =
      .ok (clampedState 100 300) := by rfl
  have hrefused : minRateRequire (clampedSetup 100) ⟨1, 4⟩ (clampedState 100 909) =
      .error (.guard .minRateRequire (.rateExceeded 100 909 1 4)) := by rfl
  have hadjusted : minRateAdjust (clampedSetup 100) ⟨1, 4⟩ (clampedState 100 909) =
      .ok (clampedState 100 400) := by rfl
  constructor
  · have hkept := (rate_clamp_projects hlower hhigher rfl).1 haccepted
    rwa [if_pos (by decide)] at hkept
  · rcases (rate_clamp_projects hlower hhigher rfl).2 (by rw [hrefused]; nofun) with
      hbest | ⟨-, hfailed⟩
    · exact hbest
    · cases hadjusted.symm.trans hfailed

def demandingBytes : List UInt8 :=
  Operation.recorded 7 (.staticBalances [(.single 65, 1000), (.single 66, 10000)]) ++
    Operation.recorded 10 .solve ++ Operation.recorded 24 (.minRateRequire ⟨1, 4⟩)

/-- The same pool, which refuses what the other one clamps. -/
def demandingPool : Program where
  id := .single 80
  bytes := demandingBytes.toArray
  records := #[⟨0, .staticBalances [(.single 65, 1000), (.single 66, 10000)]⟩,
    ⟨82, .solve⟩, ⟨84, .minRateRequire ⟨1, 4⟩⟩]

/-- The demand accepts a payout far below its limit, and the clamp overflows on the limit,
so of two pools that should quote alike only one does. -/
theorem rate_clamp_overflows_on_accepted_payout :
    minRateRequire (clampedSetup 9223372036854775808) ⟨1, 4⟩
        (clampedState 9223372036854775808 9999) =
      .ok (clampedState 9223372036854775808 9999) ∧
    minRateAdjust (clampedSetup 9223372036854775808) ⟨1, 4⟩
        (clampedState 9223372036854775808 9999) =
      .error (.arithmetic .minRateAdjust .overflow) ∧
    Program.decode .full (.single 80) demandingBytes = .ok demandingPool ∧
    Program.decode .full (.single 80) clampingBytes = .ok clampingPool ∧
    quote demandingPool (clampedSetup 9223372036854775808).query
        (Observations.atTime 100).environment 16 .empty =
      .ok ⟨⟨1000, 10000, 9223372036854775808, 9999⟩, [], 3⟩ ∧
    quote clampingPool (clampedSetup 9223372036854775808).query
        (Observations.atTime 100).environment 16 .empty =
      .error (.arithmetic .minRateAdjust .overflow) := by
  exact ⟨by rfl, by rfl, by cbv, by cbv, by rfl, by rfl⟩

end Machine
end SwapPricing
