import SwapPricing.Arithmetic.Scaling
import SwapPricing.Arithmetic.Wad

/-!
# Pool formulas

A pool prices a trade so that the product of its two balances never shrinks.
The other formulas prepare the balances: a price band turns real balances into
virtual ones, and a valuation moves both balances to a fair price.
-/

namespace SwapPricing
namespace Arithmetic

/-!
# Constant product
-/

/-- What the pool pays for exactly `amountIn`, rounded down. -/
def quoteExactIn (balanceIn balanceOut amountIn : UInt64) : Except MathError UInt64 :=
  if balanceIn = 0 ∨ balanceOut = 0 then
    .error .insufficientLiquidity
  else do
    let numerator ← exact (amountIn.toNat * balanceOut.toNat)
    let denominator ← exact (balanceIn.toNat + amountIn.toNat)
    narrow (← quotient numerator denominator)

/-- What the pool asks for exactly `amountOut`, rounded up. -/
def quoteExactOut (balanceIn balanceOut amountOut : UInt64) : Except MathError UInt64 :=
  if balanceIn = 0 ∨ balanceOut = 0 then
    .error .insufficientLiquidity
  else if balanceOut ≤ amountOut then
    .error .insufficientLiquidity
  else do
    let numerator ← exact (amountOut.toNat * balanceIn.toNat)
    let denominator ← minus balanceOut.toNat amountOut.toNat
    narrow (← quotientUp numerator denominator)

/-!
# Price bands

A position over a price band that holds the real balances `a` and `b` behaves
like a pool over the balances `a + a / (√(top / price) - 1)` and
`b + b / (√(price / bottom) - 1)`.
-/

/-- The virtual growth `balance / (root - 1)`.  A root of at most one means that
the band is narrower than the resolution of fractions. -/
def bandGrowth (balance : UInt64) (root : BitVec 128) : Except MathError UInt64 :=
  if root.toNat ≤ wad then
    .error .invalidRange
  else do
    let scaled ← exact (balance.toNat * wad)
    let excess ← minus root.toNat wad
    narrow (← quotient scaled excess)

/-- The virtual growth of both balances for the band from `bottom` to `top`. -/
def bandDeltas (balanceA balanceB : UInt64) (price bottom top : BitVec 128) :
    Except MathError (UInt64 × UInt64) :=
  if price.toNat = 0 ∨ bottom.toNat = 0 ∨
      ¬ (bottom.toNat < price.toNat ∧ price.toNat < top.toNat) then
    .error .invalidRange
  else do
    let upper ← sqrtWad (← ratioWad top price)
    let lower ← sqrtWad (← ratioWad price bottom)
    let growthA ← bandGrowth balanceA upper
    let growthB ← bandGrowth balanceB lower
    .ok (growthA, growthB)

/-!
# Valuations

At the valuation `v` of the input asset the balances should satisfy
`balanceOut / balanceIn = v / (1 - v)`.
-/

/-- Moves both balances to the valuation `v` of the input asset and keeps their
weighted sum; each side then carries half of it. -/
def rebalance (balanceIn balanceOut v : UInt64) : Except MathError (UInt64 × UInt64) :=
  if v.toNat = 0 ∨ wad ≤ v.toNat then
    .error .invalidRange
  else do
    let w ← minus wad v.toNat
    let left ← exact (v.toNat * balanceIn.toNat)
    let right ← exact (w * balanceOut.toNat)
    let capital ← exact (left + right)
    let newIn ← narrow (← quotient capital (← exact (2 * v.toNat)))
    let newOut ← narrow (← quotient capital (← exact (2 * w)))
    .ok (newIn, newOut)

/-- Brings `target` within `maxDelta` basis points of `current`. -/
def clampDelta (current target maxDelta : UInt64) : Except MathError UInt64 := do
  let low ← mulDivCeil current (UInt64.ofNat (bps - maxDelta.toNat)) bpsWord
  let share ← word .fault (bps + maxDelta.toNat)
  let high := (mulDivFloor current share bpsWord).toOption.getD (UInt64.ofNat maxAmount)
  let high := max high low
  .ok (if target < low then low else if high < target then high else target)

end Arithmetic
end SwapPricing
