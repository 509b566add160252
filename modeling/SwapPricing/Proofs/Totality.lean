import Mathlib
import SwapPricing.Proofs.PriceBands
import SwapPricing.Proofs.Revaluation

/-!
# Calculations that stay within their widths

A calculation faults where a step that nothing guards leaves its width, goes below zero or
divides by zero.  Each step has a reason of its own why it does not: products of amounts
fit in 128 bits, a remainder is shorter than the divisor that it is left by, the iterate of
a root stays below the power of two that it started from.  One step has none: the upper
bound of a clamp adds one to a rate that may be any amount.
-/

namespace SwapPricing

/-- A calculation with its arguments, each of any value of its width. -/
inductive Calculation where
  | narrow (value : BitVec 128)
  | mulDivFloor (a b d : UInt64)
  | mulDivCeil (a b d : UInt64)
  | wadPower (base exponent : UInt64)
  | isqrt (n : BitVec 128)
  | sqrtWad (x : BitVec 128)
  | ratioWad (num den : BitVec 128)
  | deductRate (amount rate : UInt64)
  | grossUp (amount rate : UInt64)
  | progressiveRate (base slope cap amount balance : UInt64)
  | quoteExactIn (balanceIn balanceOut amountIn : UInt64)
  | quoteExactOut (balanceIn balanceOut amountOut : UInt64)
  | bandDeltas (balanceA balanceB : UInt64) (price bottom top : BitVec 128)
  | rebalance (balanceIn balanceOut v : UInt64)
  | clampDelta (current target maxDelta : UInt64)
  deriving DecidableEq

namespace Calculation

open Arithmetic (bps bitLength)

/-- The values that a calculation gives. -/
def outcome : Calculation → Except MathError (List Nat)
  | narrow value => (Arithmetic.narrow value.toNat).map ([·.toNat])
  | mulDivFloor a b d => (Arithmetic.mulDivFloor a b d).map ([·.toNat])
  | mulDivCeil a b d => (Arithmetic.mulDivCeil a b d).map ([·.toNat])
  | wadPower base exponent => (Arithmetic.wadPower base exponent).map ([·.toNat])
  | isqrt n => (Arithmetic.isqrt n).map ([·.toNat])
  | sqrtWad x => (Arithmetic.sqrtWad x).map ([·.toNat])
  | ratioWad num den => (Arithmetic.ratioWad num den).map ([·.toNat])
  | deductRate amount rate => (Arithmetic.deductRate amount rate).map ([·.toNat])
  | grossUp amount rate => (Arithmetic.grossUp amount rate).map ([·.toNat])
  | progressiveRate base slope cap amount balance =>
      (Arithmetic.progressiveRate base slope cap amount balance).map ([·.toNat])
  | quoteExactIn balanceIn balanceOut amountIn =>
      (Arithmetic.quoteExactIn balanceIn balanceOut amountIn).map ([·.toNat])
  | quoteExactOut balanceIn balanceOut amountOut =>
      (Arithmetic.quoteExactOut balanceIn balanceOut amountOut).map ([·.toNat])
  | bandDeltas balanceA balanceB price bottom top =>
      (Arithmetic.bandDeltas balanceA balanceB price bottom top).map
        fun deltas => [deltas.1.toNat, deltas.2.toNat]
  | rebalance balanceIn balanceOut v =>
      (Arithmetic.rebalance balanceIn balanceOut v).map
        fun balances => [balances.1.toNat, balances.2.toNat]
  | clampDelta current target maxDelta =>
      (Arithmetic.clampDelta current target maxDelta).map ([·.toNat])

end Calculation

namespace Arithmetic

open MathError (OfAmounts)

/-!
# Guards of the arguments
-/

end Arithmetic

namespace Calculation

open Arithmetic (bitLength)
open MathError (OfAmounts)

end Calculation
end SwapPricing
