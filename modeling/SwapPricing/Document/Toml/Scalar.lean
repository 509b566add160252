import SwapPricing.Calendar
import SwapPricing.Document.Fraction
import SwapPricing.Document.Scan
import SwapPricing.Document.Value
import SwapPricing.Text.Hex
import SwapPricing.Text.Numeral

/-!
# TOML scalars

Strings come in four forms, with or without escapes and on one line or on
several.  Integers are signed 64-bit words in four bases.  Floats and dates are
checked and kept as they are written.
-/

namespace SwapPricing
namespace Document
namespace Toml

open Text.Numeral (digit?)
open Text.Hex (charValue?)

/-!
# Layout
-/

def isBlank (c : Char) : Bool :=
  c == ' ' || c == '\t'

def blanks : Scan Unit := do
  let _ ← Scan.run isBlank

/-- Whether a character may stand in a comment or, unescaped, in a string. -/
def isPlain (c : Char) : Bool :=
  c == '\t' || (0x20 ≤ c.toNat && c.toNat != 0x7F)

def newline : Scan Unit :=
  Scan.char '\n' <|> Scan.word "\r\n"

/-- A comment up to the end of its line. -/
def comment : Scan Unit := do
  Scan.char '#'
  let _ ← Scan.run isPlain

/-!
# Strings
-/

/-- The character that an escape letter stands for. -/
def escaped? : Char → Option Char
  | '"' => some '"'
  | '\\' => some '\\'
  | 'b' => some '\x08'
  | 'f' => some '\x0c'
  | 'n' => some '\n'
  | 'r' => some '\r'
  | 't' => some '\t'
  | _ => none

/-- The character whose number is given by `n` hexadecimal digits; there is none
for a surrogate or a number that is too large. -/
def numbered (n : Nat) : Scan Char := do
  let digits ← Scan.exactly n fun c => (charValue? c).isSome
  let code := digitsValue 16 charValue? digits
  if code < 0xD800 ∨ (0xE000 ≤ code ∧ code < 0x110000) then return Char.ofNat code else failure

/-- An escape behind its backslash. -/
def escape : Scan Char := do
  match ← Scan.any with
  | 'u' => numbered 4
  | 'U' => numbered 8
  | letter => Scan.ofOption (escaped? letter)

/-- The characters of a one-line string with escapes, up to its closing quote.
`bound` is above their number. -/
def basicChars : (bound : Nat) → Scan (List Char)
  | 0 => failure
  | bound + 1 => do
      match ← Scan.any with
      | '"' => return []
      | '\\' => return (← escape) :: (← basicChars bound)
      | c => if isPlain c then return c :: (← basicChars bound) else failure

/-- A string that runs up to three quotes.  Up to two more quotes in front of
these belong to the string. -/
def closing (quote : Char) : Scan (List Char) := do
  Scan.word (String.ofList [quote, quote, quote])
  let first ← Scan.accept quote
  let second ← if first then Scan.accept quote else pure false
  return (if first then [quote] else []) ++ (if second then [quote] else [])

/-- The text behind all blanks and line ends that it starts with. -/
def behindGap : List Char → List Char
  | ' ' :: rest => behindGap rest
  | '\t' :: rest => behindGap rest
  | '\n' :: rest => behindGap rest
  | '\r' :: '\n' :: rest => behindGap rest
  | rest => rest

/-- A backslash at the end of a line, with all blanks and line ends behind it. -/
def continuation : Scan Unit := do
  Scan.char '\\'
  blanks
  newline
  modify behindGap

/-- A line end inside a string counts as one character. -/
def lineBreak : Scan Char := do
  newline
  return '\n'

/-- The characters of a string of several lines with escapes. -/
def longBasicChars : (bound : Nat) → Scan (List Char)
  | 0 => failure
  | bound + 1 =>
      closing '"' <|>
      (do continuation; longBasicChars bound) <|>
      (do
        let c ← (do Scan.char '\\'; escape) <|> lineBreak <|>
          Scan.oneOf fun c => isPlain c && c != '\\'
        return c :: (← longBasicChars bound))

/-- The characters of a string of several lines without escapes. -/
def longLiteralChars : (bound : Nat) → Scan (List Char)
  | 0 => failure
  | bound + 1 =>
      closing '\'' <|>
      (do
        let c ← lineBreak <|> Scan.oneOf isPlain
        return c :: (← longLiteralChars bound))

/-- A bound above the number of characters that are left. -/
def bound : Scan Nat := fun text =>
  some (text.length + 1, text)

def basicString : Scan String := do
  Scan.char '"'
  return String.ofList (← basicChars (← bound))

def literalString : Scan String := do
  Scan.char '\''
  let chars ← Scan.run fun c => isPlain c && c != '\''
  Scan.char '\''
  return String.ofList chars

/-- A line end behind the opening quotes does not count. -/
def longBasicString : Scan String := do
  Scan.word "\"\"\""
  let _ ← Scan.attempt newline
  return String.ofList (← longBasicChars (← bound))

def longLiteralString : Scan String := do
  Scan.word "'''"
  let _ ← Scan.attempt newline
  return String.ofList (← longLiteralChars (← bound))

/-- A string of any form.  Three quotes always open a string of several
lines. -/
def string : Scan String := fun text =>
  match text with
  | '"' :: '"' :: '"' :: _ => longBasicString text
  | '"' :: _ => basicString text
  | '\'' :: '\'' :: '\'' :: _ => longLiteralString text
  | _ => literalString text

/-!
# Numbers
-/

/-- Whether every underscore stands between two digits. -/
def separated : List Char → Bool
  | [] => false
  | ['_'] => false
  | '_' :: '_' :: _ => false
  | [_] => true
  | _ :: rest => separated rest

/-- Digits of one kind, with underscores between them; the underscores are left
out of the result. -/
def digitRun (isDigit : Char → Bool) : Scan (List Char) := do
  let written ← Scan.run1 fun c => isDigit c || c == '_'
  if written.head? = some '_' ∨ ¬ separated written then failure
  else return written.filter (· != '_')

/-- A sign; true for minus. -/
def sign : Scan Bool := do
  match ← Scan.attempt (Scan.oneOf fun c => c == '+' || c == '-') with
  | some c => return c == '-'
  | none => return false

/-- Decimal digits without a needless zero in front. -/
def wholeDigits : Scan (List Char) := do
  let digits ← digitRun Char.isDigit
  if digits.head? = some '0' ∧ digits ≠ ['0'] then failure else return digits

/-- A word in the base that its two leading characters name. -/
def basedInteger (lead : String) (base : Nat) (value : Char → Option Nat) : Scan Value := do
  Scan.word lead
  let n := digitsValue base value (← digitRun fun c => (value c).any (· < base))
  if n < signedSize then return .integer n else failure

def decimalInteger : Scan Value := do
  let negative ← sign
  let n := digitsValue 10 digit? (← wholeDigits)
  if negative then
    if n ≤ signedSize then return .integer (-n) else failure
  else
    if n < signedSize then return .integer n else failure

def integer : Scan Value :=
  basedInteger "0x" 16 charValue? <|> basedInteger "0o" 8 charValue? <|>
    basedInteger "0b" 2 charValue? <|> decimalInteger

/-- An exponent with its letter. -/
def exponent : Scan Int := do
  let _ ← Scan.oneOf fun c => c == 'e' || c == 'E'
  let negative ← sign
  let n := digitsValue 10 digit? (← digitRun Char.isDigit)
  return if negative then -n else n

/-- A decimal number with a fraction or an exponent.  A positive number that is
too large is refused. -/
def decimalFloat : Scan Unit := do
  let negative ← sign
  let digits ← wholeDigits
  let fraction ← Scan.attempt (do Scan.char '.'; digitRun Char.isDigit)
  let power ← match fraction with
    | none => exponent
    | some _ => (Option.getD · 0) <$> Scan.attempt exponent
  let fraction := fraction.getD []
  let n := digitsValue 10 digit? (digits ++ fraction)
  if ¬ negative ∧ Fraction.overflows n (power - fraction.length) then failure else return ()

def specialFloat : Scan Unit := do
  let _ ← sign
  Scan.word "inf" <|> Scan.word "nan"

/-- The text that a scan reads. -/
def written (x : Scan Unit) : Scan String := fun text =>
  match x text with
  | some ((), rest) => some (String.ofList (text.take (text.length - rest.length)), rest)
  | none => none

def float : Scan Value := do
  return .fraction (← written (decimalFloat <|> specialFloat))

/-!
# Dates and times
-/

/-- A number of exactly `n` digits. -/
def fixedNumber (n : Nat) : Scan Nat := do
  return digitsValue 10 digit? (← Scan.exactly n Char.isDigit)

def date : Scan Unit := do
  let year ← fixedNumber 4
  Scan.char '-'
  let month ← fixedNumber 2
  Scan.char '-'
  let day ← fixedNumber 2
  if Calendar.isDate year month day then return () else failure

/-- Hours and minutes. -/
def clock : Scan Unit := do
  let hour ← fixedNumber 2
  Scan.char ':'
  let minute ← fixedNumber 2
  if hour < 24 ∧ minute < 60 then return () else failure

/-- The sixty-first second of a minute may be a leap second. -/
def time : Scan Unit := do
  clock
  Scan.char ':'
  let second ← fixedNumber 2
  let _ ← Scan.attempt (do Scan.char '.'; Scan.run1 Char.isDigit)
  if second ≤ 60 then return () else failure

def zone : Scan Unit := do
  let c ← Scan.oneOf fun c => c == 'Z' || c == 'z' || c == '+' || c == '-'
  if c == '+' || c == '-' then clock else return ()

def dateTime : Scan Unit := do
  date
  let _ ← Scan.attempt do
    let _ ← Scan.oneOf fun c => c == 'T' || c == 't' || c == ' '
    time
    Scan.attempt zone

def moment : Scan Value := do
  return .moment (← written (dateTime <|> time))

/-!
# Any scalar
-/

def boolean : Scan Value :=
  (do Scan.word "true"; return .bool true) <|> (do Scan.word "false"; return .bool false)

def scalar : Scan Value :=
  (do return .text (← string)) <|> boolean <|> moment <|> float <|> integer

end Toml
end Document
end SwapPricing
