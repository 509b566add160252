import SwapPricing.Arithmetic.Width

/-!
# Fixed-point powers, roots and ratios

Fractions carry eighteen decimals.  Powers are floored at every
multiplication, the square root is the exact integer root, and a ratio of wide
operands drops low bits of both before it divides.
-/

namespace SwapPricing
namespace Arithmetic

/-!
# Powers
-/

/-- The fixed-point product of two fractions, rounded down, in 128 bits. -/
def wadProduct (a b : Nat) : Except MathError Nat := do
  quotient (← within .overflow (a * b)) wad

/-- Square and multiply over the binary digits of `exponent`, lowest first.
Each round uses up one digit, so `rounds` digits are enough for every exponent
below `2 ^ rounds`. -/
def powerRounds : (rounds : Nat) → (result power exponent : Nat) → Except MathError Nat
  | 0, result, _, _ => .ok result
  | rounds + 1, result, power, exponent =>
      if exponent = 0 then
        .ok result
      else do
        let result ← if exponent % 2 = 1 then wadProduct result power else .ok result
        let power ← if exponent / 2 = 0 then .ok power else wadProduct power power
        if result = 0 then .ok 0 else powerRounds rounds result power (exponent / 2)

/-- The fraction `base ^ exponent`, floored at every multiplication. -/
def wadPower (base exponent : UInt64) : Except MathError UInt64 := do
  narrow (← powerRounds 64 wad base.toNat exponent.toNat)

/-!
# Square roots
-/

/-- Newton's iteration from `x` downwards; it stops at the first step that does
not descend. -/
def newton (n x : Nat) : Except MathError Nat := do
  let sum ← exact (x + (← quotient n x))
  if h : sum / 2 < x then newton n (sum / 2) else .ok x
  termination_by x

/-- The integer square root, rounded down.  The first guess is a power of two
that is not below the root. -/
def isqrt (n : BitVec 128) : Except MathError (BitVec 128) :=
  if n.toNat < 2 then
    .ok n
  else do
    let guess ← exact (1 <<< ((bitLength n.toNat + 1) / 2))
    wide .fault (← newton n.toNat guess)

/-- The square root of a fraction, as a fraction.  Where the radicand cannot be
scaled up, the root is scaled instead. -/
def sqrtWad (x : BitVec 128) : Except MathError (BitVec 128) :=
  if x.toNat * wad < wideSize then do
    isqrt (← wide .fault (x.toNat * wad))
  else do
    let root ← isqrt x
    wide .fault (root.toNat * 1000000000)

/-!
# Ratios
-/

/-- The ratio `num / den` as a fraction.  Operands whose divisor has more than
68 binary digits are shifted down together first. -/
def ratioWad (num den : BitVec 128) : Except MathError (BitVec 128) :=
  if den.toNat = 0 then
    .error .divisionByZero
  else do
    let shift := bitLength den.toNat - 68
    let num := num.toNat >>> shift
    let den := den.toNat >>> shift
    let whole ← quotient num den
    let remainder := num % den
    let scaled ← within .overflow (whole * wad)
    let product ← exact (remainder * wad)
    wide .overflow (scaled + (← quotient product den))

end Arithmetic
end SwapPricing
