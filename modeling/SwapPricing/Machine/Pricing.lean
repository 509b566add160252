import SwapPricing.Arithmetic.Pool
import SwapPricing.Machine.State

/-!
# Pricing

The amount that the taker did not fix is solved once, from the balances as they
stand.  Later instructions may only move it: a rate bound holds it back, and a
gas adjustment gives some of the taker's gas costs back.  External logic may
take over any part of this.
-/

namespace SwapPricing
namespace Machine

open Arithmetic (mulDivFloor mulDivCeil wad bpsWord maxAmount)

/-- Solves the unknown amount against the balances. -/
def solve (setup : Setup) (s : State) : Run State := do
  s.requireUnsolved .solve
  let r := s.registers
  let amount ← calculate .solve <| match setup.query.fixed with
    | .input => Arithmetic.quoteExactIn r.balanceIn r.balanceOut r.amountIn
    | .output => Arithmetic.quoteExactOut r.balanceIn r.balanceOut r.amountOut
  return { s.setAmount setup.query.unknown amount with solved := true }

/-!
# Rate bounds

A bound demands `amountOut * rateIn ≤ amountIn * rateOut`, where the rates are
those of the traded assets.
-/

/-- Whether amounts keep to a bound. -/
def withinRate (amountIn amountOut rateIn rateOut : UInt64) : Bool :=
  amountOut.toNat * rateIn.toNat ≤ amountIn.toNat * rateOut.toNat

/-- Moves the unknown amount until the bound holds. -/
def minRateAdjust (setup : Setup) (bound : RateBound) (s : State) : Run State := do
  s.requireSolved .minRateAdjust
  let (rateIn, rateOut) := setup.query.orient bound.lower bound.higher
  let r := s.registers
  match setup.query.fixed with
  | .input =>
      let most ← calculate .minRateAdjust (mulDivFloor r.amountIn rateOut rateIn)
      return s.setAmount .output (min r.amountOut most)
  | .output =>
      let least ← calculate .minRateAdjust (mulDivCeil r.amountOut rateIn rateOut)
      return s.setAmount .input (max r.amountIn least)

def minRateRequire (setup : Setup) (bound : RateBound) (s : State) : Run State := do
  s.requireSolved .minRateRequire
  let (rateIn, rateOut) := setup.query.orient bound.lower bound.higher
  let r := s.registers
  check .minRateRequire (.rateExceeded r.amountIn r.amountOut rateIn rateOut)
    (withinRate r.amountIn r.amountOut rateIn rateOut)
  return s

/-!
# Gas costs
-/

/-- The largest 128-bit value, at which products of gas costs stay. -/
def maxWide : Nat := Arithmetic.wideSize - 1

/-- What the gas price above the reference costs, in the output asset. -/
def extraCost (terms : GasAdjust) (baseFee : UInt64) : UInt64 :=
  let excess := baseFee.toNat - terms.baseFee.toNat
  let gas := min (excess * terms.gasAmount.toNat) maxWide
  let cost := min (gas * terms.gasPrice.toNat) maxWide
  UInt64.ofNat (min (cost / wad) maxAmount)

/-- Improves the price by the extra cost of gas, up to a share of the amount. -/
def baseFeeAdjust (setup : Setup) (terms : GasAdjust) (s : State) : Run State := do
  let op := Opcode.baseFeeAdjust
  s.requireSolved op
  let baseFee := setup.environment.baseFee
  let cost := extraCost terms baseFee
  let r := s.registers
  if baseFee ≤ terms.baseFee then
    return s
  else
    match setup.query.fixed with
    | .input =>
        let most ← calculate op (mulDivFloor r.amountOut terms.cap.toUInt64 bpsWord)
        let raised := min (r.amountOut.toNat + (min cost most).toNat) maxAmount
        return s.setAmount .output (UInt64.ofNat raised)
    | .output =>
        if r.amountOut = 0 then
          return s
        else
          let product ← calculate op (Arithmetic.exact (cost.toNat * r.amountIn.toNat))
          let costIn ← calculate op (Arithmetic.quotient product r.amountOut.toNat)
          let most ← calculate op (mulDivFloor r.amountIn terms.cap.toUInt64 bpsWord)
          let off := min (UInt64.ofNat (min costIn maxAmount)) most
          return s.setAmount .input (← calculate op (Arithmetic.difference r.amountIn off))

/-!
# External logic
-/

/-- The call that hands the registers to external logic. -/
def externalCall (setup : Setup) (target : Address) (input : List UInt8) (s : State) :
    ExternalCall :=
  ⟨target, setup.program.id, setup.query, s.registers, input⟩

/-- Takes over the registers that external logic answers.  They solve the
unknown amount if it was zero and no longer is. -/
def extruction (setup : Setup) (target : Address) (input : List UInt8) (s : State) :
    Run State := do
  let call := externalCall setup target input s
  match setup.external s.calls call with
  | .error reason => .error (.external reason)
  | .ok outcome =>
      let unknown := setup.query.unknown
      let solves := s.registers.amount unknown = 0 ∧ outcome.registers.amount unknown ≠ 0
      let answered : State :=
        { s with
          registers := outcome.registers
          solved := s.solved || solves
          calls := s.calls ++ [call] }
      match outcome.jump with
      | none => return answered
      | some offset => answered.jump setup.program offset

end Machine
end SwapPricing
