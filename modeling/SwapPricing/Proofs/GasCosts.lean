import Mathlib
import SwapPricing.Proofs.RateClamps

/-!
# Gas costs given back

The cost of gas above the reference is a product of three amounts, which may leave 128
bits, and is held at the largest value of that width until it has been divided.  What is
held back that way still exceeds every amount, so the cost is the exact one, cut to an
amount.  Giving it back therefore follows the exact cost, never fails, and never does the
taker any harm when gas gets dearer.
-/

namespace SwapPricing

namespace GasAdjust

open Arithmetic (bps wad maxAmount)

/-- What gas above the reference costs in the output asset, over the natural numbers. -/
def costAbove (terms : GasAdjust) (baseFee : UInt64) : Nat :=
  (baseFee.toNat - terms.baseFee.toNat) * terms.gasAmount.toNat * terms.gasPrice.toNat / wad

/-- The largest part of an amount that may be given back. -/
def share (terms : GasAdjust) (amount : UInt64) : Nat :=
  amount.toNat * terms.cap.toNat / bps

/-- The unknown amount once gas costs of `cost` in the output asset are given back: on top
of an output, or off an input at the price of the trade. -/
def compensated (terms : GasAdjust) (fixed : Leg) (cost : Nat) (r : Registers) : Nat :=
  match fixed with
  | .input => min (r.amountOut.toNat + min cost (terms.share r.amountOut)) maxAmount
  | .output =>
      if r.amountOut = 0 then r.amountIn.toNat
      else r.amountIn.toNat -
        min (min cost maxAmount * r.amountIn.toNat / r.amountOut.toNat) (terms.share r.amountIn)

variable {terms : GasAdjust}

theorem costAbove_mono (terms : GasAdjust) {baseFee dearer : UInt64} (h : baseFee ≤ dearer) :
    terms.costAbove baseFee ≤ terms.costAbove dearer := by
  have hexcess := Nat.sub_le_sub_right (UInt64.le_iff_toNat_le.mp h) terms.baseFee.toNat
  exact Nat.div_le_div_right (Nat.mul_le_mul_right _ (Nat.mul_le_mul_right _ hexcess))

theorem share_le (hcap : terms.cap.toNat < bps) (amount : UInt64) :
    terms.share amount ≤ amount.toNat := by
  apply Nat.div_le_of_le_mul
  rw [Nat.mul_comm]
  exact Nat.mul_le_mul_right _ (Nat.le_of_lt hcap)

theorem costAbove_eq_zero {baseFee : UInt64} (h : baseFee ≤ terms.baseFee) :
    terms.costAbove baseFee = 0 := by
  rw [costAbove, Nat.sub_eq_zero_of_le (UInt64.le_iff_toNat_le.mp h), Nat.zero_mul, Nat.zero_mul,
    Nat.zero_div]

/-- A share is less than the amount that it is taken of. -/
theorem share_lt (hcap : terms.cap.toNat < bps) {amount : UInt64} (hpos : 0 < amount.toNat) :
    terms.share amount < amount.toNat := by
  rw [share, Nat.div_lt_iff_lt_mul (by decide)]
  exact Nat.mul_lt_mul_of_pos_left hcap hpos

theorem compensated_zero (terms : GasAdjust) (fixed : Leg) (r : Registers) :
    terms.compensated fixed 0 r = (r.amount fixed.other).toNat := by
  unfold compensated
  cases fixed with
  | input =>
      have hword : r.amountOut.toNat ≤ maxAmount := Nat.le_sub_one_of_lt r.amountOut.toNat_lt
      dsimp only
      rw [Nat.zero_min, Nat.add_zero, Nat.min_eq_left hword]
      rfl
  | output =>
      dsimp only
      rw [Nat.zero_min, Nat.zero_mul, Nat.zero_div, Nat.zero_min, Nat.sub_zero, ite_self]
      rfl

/-- An input that is owed stays owed, since its share is less than all of it. -/
theorem compensated_pos (hcap : terms.cap.toNat < bps) (cost : Nat) {r : Registers}
    (hpos : 0 < r.amountIn.toNat) : 0 < terms.compensated .output cost r := by
  have hlt := share_lt hcap hpos
  unfold compensated
  dsimp only
  split
  · exact hpos
  · omega

/-- Higher costs are compensated by no less. -/
theorem orders_of_compensated {fixed : Leg} {cost higher : Nat} {r : Registers}
    {amount more : UInt64} (hle : cost ≤ higher) (h : amount.toNat = terms.compensated fixed cost r)
    (h' : more.toNat = terms.compensated fixed higher r) : fixed.Orders amount more := by
  cases fixed with
  | input =>
      show amount ≤ more
      rw [UInt64.le_iff_toNat_le, h, h']
      unfold compensated
      dsimp only
      omega
  | output =>
      show more ≤ amount
      have hcost : min cost maxAmount * r.amountIn.toNat / r.amountOut.toNat ≤
          min higher maxAmount * r.amountIn.toNat / r.amountOut.toNat :=
        Nat.div_le_div_right (Nat.mul_le_mul_right _ (min_le_min_right _ hle))
      rw [UInt64.le_iff_toNat_le, h, h']
      unfold compensated
      dsimp only
      split
      · exact Nat.le_refl _
      · omega

end GasAdjust

namespace Machine

open Arithmetic (bps bpsWord wad wideSize maxAmount)

/-!
# Exact costs
-/

/-- A product that is held at the width is larger than every amount after it has been
scaled down, so it makes no difference to what an amount can hold. -/
theorem min_maxWide_div_wad (n : Nat) :
    min (min n maxWide / wad) maxAmount = min (n / wad) maxAmount := by
  have hlarge : maxAmount ≤ maxWide / wad := by decide
  rcases Nat.le_total n maxWide with hfit | hwide
  · rw [Nat.min_eq_left hfit]
  · have hheld : maxWide / wad ≤ n / wad := Nat.div_le_div_right hwide
    rw [Nat.min_eq_right hwide, Nat.min_eq_right hlarge,
      Nat.min_eq_right (Nat.le_trans hlarge hheld)]

/-- The extra cost is the exact one, cut to an amount. -/
theorem toNat_extraCost (terms : GasAdjust) (baseFee : UInt64) :
    (extraCost terms baseFee).toNat = min (terms.costAbove baseFee) maxAmount := by
  have hexcess : baseFee.toNat - terms.baseFee.toNat < UInt64.size :=
    Nat.lt_of_le_of_lt (Nat.sub_le _ _) baseFee.toNat_lt
  have hgas : (baseFee.toNat - terms.baseFee.toNat) * terms.gasAmount.toNat ≤ maxWide :=
    Nat.le_sub_one_of_lt (Arithmetic.mul_lt_wideSize hexcess terms.gasAmount.toNat_lt)
  rw [extraCost, toNat_ofNat_min, Nat.min_eq_left hgas, min_maxWide_div_wad]
  rfl

/-!
# Compensation
-/

section Compensation

variable {setup : Setup} {terms : GasAdjust} {s : State}

theorem exists_share (hcap : terms.cap.toNat < bps) (amount : UInt64) :
    ∃ most, Arithmetic.mulDivFloor amount terms.cap.toUInt64 bpsWord = .ok most ∧
      most.toNat = terms.share amount := by
  have hfit := Nat.lt_of_le_of_lt (GasAdjust.share_le hcap amount) amount.toNat_lt
  rcases Arithmetic.exists_word .overflow hfit with ⟨most, -, hmost⟩
  exact ⟨most, Arithmetic.mulDivFloor_eq_ok_iff.mpr ⟨by decide, hmost⟩, hmost⟩

/-- Next to an amount it makes no difference that a number was cut to an amount. -/
theorem min_maxAmount_toNat (n : Nat) (amount : UInt64) :
    min (min n maxAmount) amount.toNat = min n amount.toNat := by
  have hword : amount.toNat ≤ maxAmount := Nat.le_sub_one_of_lt amount.toNat_lt
  rw [Nat.min_assoc, Nat.min_eq_right hword]

theorem toNat_min (a b : UInt64) : (min a b).toNat = min a.toNat b.toNat := by
  show (if a ≤ b then a else b).toNat = _
  split
  · rename_i hle
    rw [Nat.min_eq_left (UInt64.le_iff_toNat_le.mp hle)]
  · rename_i hlt
    rw [Nat.min_eq_right (Nat.le_of_lt (UInt64.lt_iff_toNat_lt.mp (UInt64.not_le.mp hlt)))]

/-- An output grows by the exact cost, up to its share. -/
theorem baseFeeAdjust_input (hsolved : s.solved = true) (hcap : terms.cap.toNat < bps)
    (hdear : terms.baseFee < setup.environment.baseFee) (hfixed : setup.query.fixed = .input) :
    ∃ amount, baseFeeAdjust setup terms s = .ok (s.setAmount .output amount) ∧
      amount.toNat = terms.compensated .input (terms.costAbove setup.environment.baseFee)
        s.registers := by
  have hstart : s.requireSolved .baseFeeAdjust = .ok () := requireSolved_eq_ok_iff.mpr hsolved
  rcases exists_share hcap s.registers.amountOut with ⟨most, hmost, hshare⟩
  refine ⟨_, ?_, toNat_ofNat_min _⟩
  have hgiven : min (terms.costAbove setup.environment.baseFee)
      (terms.share s.registers.amountOut) =
        (min (extraCost terms setup.environment.baseFee) most).toNat := by
    rw [toNat_min, toNat_extraCost, min_maxAmount_toNat, hshare]
  have hcalculated : calculate .baseFeeAdjust _ = _ := calculate_eq_ok_iff.mpr hmost
  unfold baseFeeAdjust
  dsimp only
  rw [hstart, ok_bind, if_neg (UInt64.not_le.mpr hdear), hfixed]
  dsimp only
  rw [hcalculated, ok_bind, hgiven]
  rfl

/-- An input shrinks by the exact cost at the price of the trade, up to its share. -/
theorem baseFeeAdjust_output (hsolved : s.solved = true) (hcap : terms.cap.toNat < bps)
    (hdear : terms.baseFee < setup.environment.baseFee) (hfixed : setup.query.fixed = .output) :
    ∃ amount, baseFeeAdjust setup terms s = .ok (s.setAmount .input amount) ∧
      amount.toNat = terms.compensated .output (terms.costAbove setup.environment.baseFee)
        s.registers := by
  have hstart : s.requireSolved .baseFeeAdjust = .ok () := requireSolved_eq_ok_iff.mpr hsolved
  unfold baseFeeAdjust GasAdjust.compensated
  dsimp only
  rw [hstart, ok_bind, if_neg (UInt64.not_le.mpr hdear), hfixed]
  dsimp only
  by_cases hout : s.registers.amountOut = 0
  · exact ⟨s.registers.amountIn, by rw [if_pos hout]; rfl, by rw [if_pos hout]⟩
  · rcases exists_share hcap s.registers.amountIn with ⟨most, hmost, hshare⟩
    have hproduct : calculate .baseFeeAdjust _ = _ := calculate_eq_ok_iff.mpr
      (Arithmetic.exact_mul (extraCost terms setup.environment.baseFee) s.registers.amountIn)
    have hquotient : calculate .baseFeeAdjust _ = _ := calculate_eq_ok_iff.mpr
      (Arithmetic.quotient_eq_ok (n := (extraCost terms setup.environment.baseFee).toNat *
        s.registers.amountIn.toNat) (Arithmetic.toNat_ne_zero hout))
    have hshareWord : calculate .baseFeeAdjust _ = _ := calculate_eq_ok_iff.mpr hmost
    rw [if_neg hout, hproduct, ok_bind, hquotient, ok_bind, hshareWord, ok_bind, if_neg hout]
    generalize hcost : (extraCost terms setup.environment.baseFee).toNat *
      s.registers.amountIn.toNat / s.registers.amountOut.toNat = cost
    have hle := GasAdjust.share_le hcap s.registers.amountIn
    have hoff : (min (UInt64.ofNat (min cost maxAmount)) most).toNat =
        min cost (terms.share s.registers.amountIn) := by
      rw [toNat_min, toNat_ofNat_min, min_maxAmount_toNat, hshare]
    have hfit : min (UInt64.ofNat (min cost maxAmount)) most ≤ s.registers.amountIn := by
      rw [UInt64.le_iff_toNat_le, hoff]
      omega
    have hleft : calculate .baseFeeAdjust _ = _ :=
      calculate_eq_ok_iff.mpr (Arithmetic.difference_eq_ok_iff.mpr ⟨hfit, rfl⟩)
    rw [hleft, ok_bind]
    refine ⟨_, rfl, ?_⟩
    rw [UInt64.toNat_sub_of_le _ _ hfit, hoff, ← hcost, toNat_extraCost]

theorem baseFeeAdjust_of_cheap (hsolved : s.solved = true)
    (hcheap : setup.environment.baseFee ≤ terms.baseFee) :
    baseFeeAdjust setup terms s = .ok s := by
  have hstart : s.requireSolved .baseFeeAdjust = .ok () := requireSolved_eq_ok_iff.mpr hsolved
  unfold baseFeeAdjust
  dsimp only
  rw [hstart, ok_bind, if_pos hcheap]
  rfl

/-- Compensation never fails, and sets the unknown amount by the exact cost. -/
theorem exists_baseFeeAdjust (setup : Setup) (hsolved : s.solved = true)
    (hcap : terms.cap.toNat < bps) :
    ∃ amount, baseFeeAdjust setup terms s = .ok (s.setAmount setup.query.unknown amount) ∧
      amount.toNat = terms.compensated setup.query.fixed
        (terms.costAbove setup.environment.baseFee) s.registers := by
  by_cases hcheap : setup.environment.baseFee ≤ terms.baseFee
  · refine ⟨s.registers.amount setup.query.unknown, ?_, ?_⟩
    · rw [baseFeeAdjust_of_cheap hsolved hcheap, State.setAmount_amount]
    · rw [GasAdjust.costAbove_eq_zero hcheap, GasAdjust.compensated_zero]
      rfl
  · have hdear := UInt64.not_le.mp hcheap
    cases hfixed : setup.query.fixed with
    | input =>
        have hunknown : setup.query.unknown = .output := by rw [Query.unknown, hfixed]; rfl
        rw [hunknown]
        exact baseFeeAdjust_input hsolved hcap hdear hfixed
    | output =>
        have hunknown : setup.query.unknown = .input := by rw [Query.unknown, hfixed]; rfl
        rw [hunknown]
        exact baseFeeAdjust_output hsolved hcap hdear hfixed

end Compensation

/-- Gas costs are given back exactly.  A base fee within the reference changes nothing, and
any other one moves the unknown amount alone, by the exact cost up to its share: what was
held at the width of the products does not show.  A positive input stays positive, and a
higher base fee does the taker no harm. -/
theorem gas_costs_given_back {setup : Setup} {terms : GasAdjust} {s : State}
    (hsolved : s.solved = true) (hcap : terms.cap.toNat < bps) :
    (setup.environment.baseFee ≤ terms.baseFee → baseFeeAdjust setup terms s = .ok s) ∧
    (∃ amount, baseFeeAdjust setup terms s = .ok (s.setAmount setup.query.unknown amount) ∧
      amount.toNat = terms.compensated setup.query.fixed
        (terms.costAbove setup.environment.baseFee) s.registers ∧
      (setup.query.fixed = .output → 0 < s.registers.amountIn → 0 < amount) ∧
      ∀ dearer : Environment, setup.environment.baseFee ≤ dearer.baseFee → ∃ more,
        baseFeeAdjust { setup with environment := dearer } terms s =
            .ok (s.setAmount setup.query.unknown more) ∧
          setup.query.fixed.Orders amount more) ∧
    (extraCost terms setup.environment.baseFee).toNat =
      min (terms.costAbove setup.environment.baseFee) maxAmount := by
  refine ⟨baseFeeAdjust_of_cheap hsolved, ?_, toNat_extraCost terms _⟩
  rcases exists_baseFeeAdjust setup hsolved hcap with ⟨amount, hadjust, hamount⟩
  refine ⟨amount, hadjust, hamount, ?_, ?_⟩
  · intro hfixed hpos
    rw [UInt64.lt_iff_toNat_lt] at hpos ⊢
    rw [hamount, hfixed]
    exact GasAdjust.compensated_pos hcap _ hpos
  · intro dearer hle
    rcases exists_baseFeeAdjust { setup with environment := dearer } hsolved hcap with
      ⟨more, hmore, hmoreNat⟩
    exact ⟨more, hmore, GasAdjust.orders_of_compensated (GasAdjust.costAbove_mono terms hle)
      hamount hmoreNat⟩

/-- A taker trades at a base fee of `baseFee`. -/
def gasSetup (fixed : Leg) (baseFee : UInt64) : Setup where
  program := ⟨.single 80, #[], #[]⟩
  query := Query.simulated fixed (.single 65) (.single 66) 2000
  environment := { Observations.atTime 100 with baseFee := baseFee }.environment
  external := .absent

/-- The state of a trade that is solved at the given amounts. -/
def settledState (fixed : Leg) (amountIn amountOut : UInt64) : State :=
  { ((State.initial (gasSetup fixed 0).query .empty).setAmount .input amountIn).setAmount .output
      amountOut with solved := true }

/-- Two units of gas fee above the reference cost a hundred. -/
def modestGas : GasAdjust where
  baseFee := 10
  gasAmount := 100
  gasPrice := 500000000000000000
  cap := 1000

/-- At the largest base fee the product of the cost leaves 128 bits. -/
def immenseGas : GasAdjust where
  baseFee := 0
  gasAmount := 18446744073709551615
  gasPrice := 18446744073709551615
  cap := 1000

/-- A cost of a hundred is given back in full on an output of two thousand, and off an input
only the share of a cost that leaves 128 bits. -/
theorem gas_costs_given_back_in_part :
    (∃ amount, baseFeeAdjust (gasSetup .input 12) modestGas (settledState .input 1000 2000) =
        .ok ((settledState .input 1000 2000).setAmount .output amount) ∧ amount.toNat = 2100) ∧
    (∃ amount, baseFeeAdjust (gasSetup .output 18446744073709551615) immenseGas
          (settledState .output 4000 2000) =
        .ok ((settledState .output 4000 2000).setAmount .input amount) ∧
      amount.toNat = 3600) := by
  constructor
  · have hback := (@gas_costs_given_back (gasSetup .input 12) modestGas
      (settledState .input 1000 2000) rfl (by decide)).2.1
    rcases hback with ⟨amount, hadjust, hamount, -⟩
    exact ⟨amount, hadjust, hamount.trans (by decide)⟩
  · have hback := (@gas_costs_given_back (gasSetup .output 18446744073709551615) immenseGas
      (settledState .output 4000 2000) rfl (by decide)).2.1
    rcases hback with ⟨amount, hadjust, hamount, -⟩
    exact ⟨amount, hadjust, hamount.trans (by decide)⟩

end Machine
end SwapPricing
