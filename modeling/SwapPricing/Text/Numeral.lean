/-!
# Decimal numerals

A numeral is a run of decimal digits with an optional plus sign.  Digits are
read from the left, so a numeral that is both too large and badly formed is
refused for whichever comes first.
-/

namespace SwapPricing
namespace Text

/-- Why a text is no numeral of the asked size. -/
inductive NumeralError where
  | empty
  | invalidDigit
  | tooLarge
  deriving DecidableEq, Repr

def NumeralError.message : NumeralError → String
  | .empty => "cannot parse integer from empty string"
  | .invalidDigit => "invalid digit found in string"
  | .tooLarge => "number too large to fit in target type"

namespace Numeral

/-- The value of a decimal digit. -/
def digit? (c : Char) : Option Nat :=
  if '0' ≤ c ∧ c ≤ '9' then some (c.toNat - 48) else none

/-- Reads on from the value `total` and never goes above `limit`. -/
def accumulate (limit : Nat) : (total : Nat) → List Char → Except NumeralError Nat
  | total, [] => .ok total
  | total, c :: rest =>
      match digit? c with
      | none => .error .invalidDigit
      | some d =>
          if limit < total * 10 + d then .error .tooLarge
          else accumulate limit (total * 10 + d) rest

/-- The value of an unsigned numeral of at most `limit`. -/
def read (limit : Nat) : List Char → Except NumeralError Nat
  | [] => .error .empty
  | ['+'] => .error .invalidDigit
  | '+' :: rest => accumulate limit 0 rest
  | text => accumulate limit 0 text

end Numeral
end Text
end SwapPricing
