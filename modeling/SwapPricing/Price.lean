import SwapPricing.Arithmetic.Width
import SwapPricing.Text.Numeral

/-!
# Prices

A price is written as a decimal with at most eighteen digits behind the point,
and denotes a fixed-point fraction of 128 bits.
-/

namespace SwapPricing
namespace Price

/-- Why a text is no price. -/
inductive ParseError where
  | tooPrecise (text : String)
  | invalid (text : String) (reason : Text.NumeralError)
  | outOfRange (text : String)
  deriving DecidableEq, Repr

/-- The message of the failure itself. -/
def ParseError.message : ParseError → String
  | tooPrecise text => "Price " ++ text ++ " has more than 18 decimals"
  | invalid text _ => "Invalid price: " ++ text
  | outOfRange text => "Price out of range: " ++ text

/-- The message of the failure behind it. -/
def ParseError.cause? : ParseError → Option String
  | invalid _ reason => some reason.message
  | _ => none

/-- The number of digits behind the point. -/
def precision : Nat := 18

/-- The largest value of 128 bits. -/
def largest : Nat := Arithmetic.wideSize - 1

/-- The value of a part of a price; a part that is left out is zero. -/
def part (text : String) (chars : List Char) : Except ParseError Nat :=
  if chars = [] then .ok 0
  else (Text.Numeral.read largest chars).mapError (ParseError.invalid text)

/-- The fraction with zeros behind it up to the full precision. -/
def padded (fraction : List Char) : List Char :=
  fraction ++ List.replicate (precision - fraction.length) '0'

/-- The characters before the first point and the ones behind it. -/
def split (chars : List Char) : List Char × List Char :=
  (chars.takeWhile (· ≠ '.'), (chars.dropWhile (· ≠ '.')).drop 1)

/-- The price that a text denotes. -/
def parse (text : String) : Except ParseError (BitVec 128) := do
  let (whole, fraction) := split text.toList
  if precision < (String.ofList fraction).utf8ByteSize then
    .error (.tooPrecise text)
  else
    let whole ← part text whole
    let fraction ← part text (if fraction = [] then [] else padded fraction)
    (Arithmetic.wide .overflow (whole * Arithmetic.wad + fraction)).mapError fun _ =>
      .outOfRange text

end Price
end SwapPricing
