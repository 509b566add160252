import SwapPricing.Arithmetic.Width

/-!
# Scaling amounts

Products are divided with an explicit rounding.  Amounts owed to the taker
round down and amounts owed by the taker round up, so every rounding favours
the maker.
-/

namespace SwapPricing
namespace Arithmetic

/-!
# Products over a divisor
-/

/-- The amount `a * b / d`, rounded down. -/
def mulDivFloor (a b d : UInt64) : Except MathError UInt64 :=
  if d = 0 then
    .error .divisionByZero
  else do
    let product ← exact (a.toNat * b.toNat)
    narrow (← quotient product d.toNat)

/-- The amount `a * b / d`, rounded up. -/
def mulDivCeil (a b d : UInt64) : Except MathError UInt64 :=
  if d = 0 then
    .error .divisionByZero
  else do
    let product ← exact (a.toNat * b.toNat)
    narrow (← quotientUp product d.toNat)

/-- One in basis points, as an amount. -/
def bpsWord : UInt64 := 10000

/-- One as a fixed-point fraction, as an amount. -/
def wadWord : UInt64 := 1000000000000000000

/-!
# Fee rates

A rate is given in basis points.  Taking a cut and grossing up for it are each
other's inverse up to rounding.
-/

/-- The share that a cut of `rate` leaves; a rate above one overflows. -/
def keptShare (rate : UInt64) : Except MathError UInt64 :=
  if rate.toNat ≤ bps then word .fault (bps - rate.toNat) else .error .overflow

/-- What is left of `amount` after a cut of `rate`. -/
def deductRate (amount rate : UInt64) : Except MathError UInt64 := do
  mulDivFloor amount (← keptShare rate) bpsWord

/-- The least gross amount whose cut of `rate` leaves `amount`. -/
def grossUp (amount rate : UInt64) : Except MathError UInt64 := do
  mulDivCeil amount bpsWord (← keptShare rate)

/-- The rate `base + slope * amount / balance`, but at most `cap`.  An empty
balance pays the cap. -/
def progressiveRate (base slope cap amount balance : UInt64) : Except MathError UInt64 :=
  if balance = 0 then
    .ok cap
  else do
    let product ← exact (slope.toNat * amount.toNat)
    let growth ← quotient product balance.toNat
    let rate := min (base.toNat + growth) (wideSize - 1)
    word .fault (min rate cap.toNat)

end Arithmetic
end SwapPricing
