import SwapPricing.Calendar
import SwapPricing.Text.Numeral

/-!
# Timestamps

An RFC 3339 timestamp is a date, a time of day and an offset from universal
time.  A leap second counts as the second before it, and fractions of a second
are dropped.
-/

namespace SwapPricing
namespace Text
namespace Timestamp

/-- The value of exactly the given digits. -/
def number? (digits : List Char) : Option Nat :=
  if digits.all Char.isDigit then
    (digits.mapM Numeral.digit?).map fun ds => ds.foldl (fun n d => n * 10 + d) 0
  else
    none

/-- The seconds of an offset, hours and minutes with a colon between them. -/
def offset? : List Char → Option Int
  | [h, i, ':', m, j] => do
      let hours ← number? [h, i]
      let minutes ← number? [m, j]
      if hours < 24 ∧ minutes < 60 then return (hours * 3600 + minutes * 60 : Nat) else none
  | _ => none

/-- The seconds that a zone is ahead of universal time. -/
def zone? : List Char → Option Int
  | ['Z'] => some 0
  | ['z'] => some 0
  | '+' :: rest => offset? rest
  | '-' :: rest => (offset? rest).map fun s => -s
  | '−' :: rest => (offset? rest).map fun s => -s
  | _ => none

/-- The text behind a fraction of a second, which has at least one digit. -/
def behindFraction? : List Char → Option (List Char)
  | '.' :: c :: rest => if c.isDigit then some (rest.dropWhile Char.isDigit) else none
  | '.' :: [] => none
  | rest => some rest

/-- The seconds of a time of day. -/
def daySeconds? (hour minute second : Nat) : Option Nat :=
  if hour < 24 ∧ minute < 60 ∧ second ≤ 60 then
    some (hour * 3600 + minute * 60 + min second 59)
  else
    none

def isSeparator (c : Char) : Bool :=
  c == 'T' || c == 't' || c == ' '

/-- The seconds from the start of 1970 that a timestamp names. -/
def seconds? : List Char → Option Int
  | y :: e :: a :: r :: '-' :: m :: o :: '-' :: d :: b :: t ::
      h :: i :: ':' :: n :: j :: ':' :: s :: k :: rest => do
      let year ← number? [y, e, a, r]
      let month ← number? [m, o]
      let day ← number? [d, b]
      let hour ← number? [h, i]
      let minute ← number? [n, j]
      let second ← number? [s, k]
      let inDay ← daySeconds? hour minute second
      let ahead ← zone? (← behindFraction? rest)
      if isSeparator t ∧ Calendar.isDate year month day then
        return Calendar.dayNumber year month day * 86400 + inDay - ahead
      else
        none
  | _ => none

end Timestamp
end Text
end SwapPricing
