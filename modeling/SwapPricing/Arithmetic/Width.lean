/-!
# Width-checked arithmetic

Amounts are 64-bit words and their products are formed in 128 bits.  A
calculation works on natural numbers and states the width of every value it
forms, so a value that leaves its width is an outcome of its own.  `narrow`
reports such a value as an overflow, which callers may see.  The other steps
report it as a `fault`, which no caller should ever see.
-/

namespace SwapPricing

/-- Why a calculation gives no value. -/
inductive MathError where
  | overflow
  | divisionByZero
  | insufficientLiquidity
  | invalidRange
  /-- A step that nothing guards left its width or divided by zero. -/
  | fault
  deriving DecidableEq, Repr

namespace MathError

def message : MathError → String
  | overflow => "arithmetic overflow"
  | divisionByZero => "division by zero"
  | insufficientLiquidity => "insufficient liquidity"
  | invalidRange => "price range does not bracket the current price"
  | fault => "arithmetic fault"

end MathError

namespace Arithmetic

/-- One, as a fixed-point fraction with eighteen decimals. -/
def wad : Nat := 1000000000000000000

/-- One, in basis points. -/
def bps : Nat := 10000

/-- The largest 64-bit amount. -/
def maxAmount : Nat := UInt64.size - 1

/-- The number of 128-bit words. -/
def wideSize : Nat := 340282366920938463463374607431768211456

/-!
# Steps
-/

/-- The value `n` if it fits in 128 bits, and `reason` otherwise. -/
def within (reason : MathError) (n : Nat) : Except MathError Nat :=
  if n < wideSize then .ok n else .error reason

/-- The 64-bit word of value `n`, or `reason` if there is none. -/
def word (reason : MathError) (n : Nat) : Except MathError UInt64 :=
  if h : n < UInt64.size then .ok (UInt64.ofNatLT n h) else .error reason

/-- The 64-bit word of value `n`; a larger value overflows. -/
def narrow (n : Nat) : Except MathError UInt64 :=
  word .overflow n

/-- The 128-bit word of value `n`, or `reason` if there is none. -/
def wide (reason : MathError) (n : Nat) : Except MathError (BitVec 128) :=
  if h : n < wideSize then .ok (BitVec.ofNatLT n h) else .error reason

/-- An unguarded value, which must fit in 128 bits. -/
def exact (n : Nat) : Except MathError Nat :=
  within .fault n

/-- An unguarded difference, which must not go below zero. -/
def minus (a b : Nat) : Except MathError Nat :=
  if b ≤ a then .ok (a - b) else .error .fault

/-- An unguarded quotient, rounded down, whose divisor must not be zero. -/
def quotient (n d : Nat) : Except MathError Nat :=
  if d = 0 then .error .fault else .ok (n / d)

/-- An unguarded quotient in 128 bits, rounded up. -/
def quotientUp (n d : Nat) : Except MathError Nat :=
  if d = 0 then .error .fault
  else if n % d = 0 then .ok (n / d)
  else exact (n / d + 1)

/-- The sum of two amounts; a larger sum overflows. -/
def gain (a b : UInt64) : Except MathError UInt64 :=
  narrow (a.toNat + b.toNat)

/-- What is left of `a` after `b` is taken from it, if there is that much. -/
def drain (a b : UInt64) : Except MathError UInt64 :=
  if b ≤ a then .ok (a - b) else .error .insufficientLiquidity

/-- An unguarded difference of amounts, which must not go below zero. -/
def difference (a b : UInt64) : Except MathError UInt64 :=
  if b ≤ a then .ok (a - b) else .error .fault

/-- The number of binary digits of `n`. -/
def bitLength (n : Nat) : Nat :=
  if n = 0 then 0 else n.log2 + 1

/-!
# When a step succeeds
-/

theorem word_eq_ok {reason : MathError} {n : Nat} (h : n < UInt64.size) :
    word reason n = .ok (UInt64.ofNatLT n h) :=
  dif_pos h

theorem toNat_of_word_eq_ok {reason : MathError} {n : Nat} {w : UInt64}
    (h : word reason n = .ok w) : w.toNat = n := by
  unfold word at h
  split at h
  · injection h with h
    subst h
    simp
  · contradiction

theorem within_eq_ok {n : Nat} {reason : MathError} (h : n < wideSize) :
    within reason n = .ok n :=
  if_pos h

theorem minus_eq_ok {a b : Nat} (h : b ≤ a) : minus a b = .ok (a - b) := by
  simp [minus, h]

theorem quotient_eq_ok {n d : Nat} (h : d ≠ 0) : quotient n d = .ok (n / d) := by
  simp [quotient, h]

end Arithmetic
end SwapPricing
