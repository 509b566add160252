/-!
# Base58

A byte string is written as its big-endian value in base 58, with one leading
`1` for each leading zero byte.
-/

namespace SwapPricing
namespace Text
namespace Base58

def alphabet : List Char :=
  "123456789ABCDEFGHJKLMNPQRSTUVWXYZabcdefghijkmnopqrstuvwxyz".toList

/-- The character of a digit below 58. -/
def character (digit : Nat) : Char :=
  alphabet.getD digit '1'

/-- The digit of a character of the alphabet. -/
def digit? (c : Char) : Option Nat :=
  alphabet.idxOf? c

/-!
# Positional values
-/

/-- The value of digits in `base`, most significant first. -/
def value (base : Nat) (digits : List Nat) : Nat :=
  digits.foldl (fun total digit => total * base + digit) 0

/-- The digits of `n` in front of `tail`, most significant first and without a
leading zero. -/
def digitsBefore (base n : Nat) (tail : List Nat) : List Nat :=
  if _h : n = 0 ∨ base < 2 then tail
  else digitsBefore base (n / base) (n % base :: tail)
  termination_by n
  decreasing_by exact Nat.div_lt_self (by omega) (by omega)

/-- The digits of `n` in `base`; zero has none. -/
def digits (base n : Nat) : List Nat :=
  digitsBefore base n []

/-- How many zeros a digit string starts with. -/
def leadingZeros (digits : List Nat) : Nat :=
  (digits.takeWhile (· = 0)).length

/-- The same number in another base, with the same leading zeros. -/
def rebase (source target : Nat) (given : List Nat) : List Nat :=
  List.replicate (leadingZeros given) 0 ++ digits target (value source given)

/-!
# Text
-/

def encode (bytes : List UInt8) : List Char :=
  (rebase 256 58 (bytes.map UInt8.toNat)).map character

/-- The bytes that a text denotes, if all its characters are in the alphabet. -/
def decode? (text : List Char) : Option (List UInt8) := do
  let given ← text.mapM digit?
  some ((rebase 58 256 given).map UInt8.ofNat)

end Base58
end Text
end SwapPricing
