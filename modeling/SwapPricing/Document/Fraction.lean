/-!
# Fractions

Documents keep fractions as they are written.  A notation refuses those that no
double-precision number is near to, or those that are not near to one once they
are scaled in double precision.
-/

namespace SwapPricing
namespace Document
namespace Fraction

/-- Halfway from the largest double-precision number to the next power of two. -/
def limit : Nat := 18014398509481983 <<< 970

/-- Whether `digits * 10 ^ exponent` is too large for a double-precision
number. -/
def overflows (digits : Nat) (exponent : Int) : Bool :=
  if digits = 0 then false
  else if 308 < exponent then true
  else if 0 ≤ exponent then limit ≤ digits * Nat.pow 10 exponent.toNat
  else if digits.log2 < (-exponent).toNat then false
  else limit * Nat.pow 10 (-exponent).toNat ≤ digits

/-- The number of at most 53 binary digits, and zeros behind them, that is
nearest to `n`; of two such numbers the even one. -/
def nearest (n : Nat) : Nat :=
  let unit := 1 <<< (n.log2 + 1 - 53)
  let (whole, rest) := (n / unit, n % unit)
  let isUp := unit < 2 * rest ∨ (unit = 2 * rest ∧ whole % 2 = 1)
  (if isUp then whole + 1 else whole) * unit

/-- Whether `word` and `10 ^ exponent` have a product too large for a
double-precision number when both are first taken to such a number. -/
def scaledOverflows (word : Nat) (exponent : Int) : Bool :=
  if word = 0 ∨ exponent < 0 then false
  else if 308 < exponent then true
  else limit ≤ nearest word * nearest (Nat.pow 10 exponent.toNat)

end Fraction
end Document
end SwapPricing
