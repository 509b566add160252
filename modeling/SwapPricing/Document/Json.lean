import SwapPricing.Document.Fraction
import SwapPricing.Document.Scan
import SwapPricing.Document.Value
import SwapPricing.Text.Hex
import SwapPricing.Text.Numeral

/-!
# JSON

The JSON notation of documents.  Integers of up to 64 bits are exact and all
other numbers count as fractions, unless they are too large for one.  The
printer has a compact and an indented form, and both escape only what must be
escaped.
-/

namespace SwapPricing
namespace Document
namespace Json

open Text.Numeral (digit?)

def isBlank (c : Char) : Bool :=
  c == ' ' || c == '\t' || c == '\n' || c == '\r'

def blanks : Scan Unit := do
  let _ ← Scan.run isBlank

/-!
# Strings
-/

/-- A piece of a string: a character, or a unit of a surrogate pair. -/
inductive Piece where
  | char (c : Char)
  | unit (n : Nat)

/-- The piece that a code unit stands for. -/
def Piece.ofUnit (n : Nat) : Piece :=
  if 0xD800 ≤ n ∧ n < 0xE000 then .unit n else .char (Char.ofNat n)

/-- The character that an escape letter stands for. -/
def escaped? : Char → Option Char
  | '"' => some '"'
  | '\\' => some '\\'
  | '/' => some '/'
  | 'b' => some '\x08'
  | 'f' => some '\x0c'
  | 'n' => some '\n'
  | 'r' => some '\r'
  | 't' => some '\t'
  | _ => none

/-- A code unit given by four hexadecimal digits. -/
def unitOf (digits : List Char) : Option Piece :=
  if digits.all fun c => (Text.Hex.charValue? c).isSome then
    some (Piece.ofUnit (digitsValue 16 Text.Hex.charValue? digits))
  else
    none

/-- The pieces of a string up to its closing quote. -/
def pieces : Scan (List Piece)
  | [] => none
  | '"' :: rest => some ([], rest)
  | '\\' :: 'u' :: a :: b :: c :: d :: rest => do
      let unit ← unitOf [a, b, c, d]
      let (more, rest) ← pieces rest
      return (unit :: more, rest)
  | '\\' :: letter :: rest => do
      let c ← escaped? letter
      let (more, rest) ← pieces rest
      return (.char c :: more, rest)
  | c :: rest =>
      if c.toNat < 0x20 then
        none
      else do
        let (more, rest) ← pieces rest
        return (.char c :: more, rest)

/-- The character of a surrogate pair. -/
def paired (high low : Nat) : Char :=
  Char.ofNat (0x10000 + (high - 0xD800) * 0x400 + (low - 0xDC00))

/-- The characters that pieces make up, unless a surrogate stands alone. -/
def joined? : List Piece → Option (List Char)
  | [] => some []
  | .char c :: rest => do return c :: (← joined? rest)
  | .unit high :: .unit low :: rest =>
      if high < 0xDC00 ∧ 0xDC00 ≤ low then do return paired high low :: (← joined? rest)
      else none
  | .unit _ :: _ => none

/-!
# Numbers
-/

/-- The digits before the point: a zero, or digits that start with none. -/
def wholeDigits : Scan (List Char) := do
  let digits ← Scan.run1 Char.isDigit
  if digits.head? = some '0' ∧ digits ≠ ['0'] then failure else return digits

/-- A fraction with its point; nothing where there is no point. -/
def fractionDigits : Scan (List Char) := do
  if ← Scan.accept '.' then
    return '.' :: (← Scan.run1 Char.isDigit)
  else
    return []

/-- An exponent with its letter; nothing where there is no letter. -/
def exponentDigits : Scan (List Char) := do
  match ← Scan.attempt (Scan.oneOf fun c => c == 'e' || c == 'E') with
  | none => return []
  | some e =>
      let sign ← Scan.attempt (Scan.oneOf fun c => c == '+' || c == '-')
      return e :: sign.toList ++ (← Scan.run1 Char.isDigit)

/-- The power of ten that an exponent stands for; without digits it is zero. -/
def power (exponent : List Char) : Int :=
  let n := digitsValue 10 digit? (exponent.filter Char.isDigit)
  if '-' ∈ exponent then -n else n

/-- The value of an integer literal, if it has one; a zero with a sign is no
integer. -/
def integer? (negative : Bool) (digits : List Char) : Option Value :=
  let n := digitsValue 10 digit? digits
  if negative then
    if n = 0 ∨ signedSize < n then none else some (.integer (-n))
  else
    if n < UInt64.size then some (.integer n) else none

/-- The word that digits behind `word` go on to, and the digits behind the last
one that it has room for. -/
def fill (word : Nat) : List Char → Nat × List Char
  | [] => (word, [])
  | c :: rest =>
      let next := word * 10 + (digit? c).getD 0
      if next < UInt64.size then fill next rest else (word, c :: rest)

/-- Whether a number is too large for a fraction.  Its digits count as far as a
word has room for them. -/
def isTooLarge (digits places : List Char) (power : Int) : Bool :=
  let (whole, dropped) := fill 0 digits
  let (word, ignored) := fill whole places
  Fraction.scaledOverflows word (power + dropped.length - (places.length - ignored.length : Nat))

/-- The value of a number that is no integer; one that is too large has none. -/
def fractionValue (negative : Bool) (digits fraction exponent : List Char) : Value :=
  if isTooLarge digits (fraction.drop 1) (power exponent) then
    .unreadable
  else
    let sign := if negative then ['-'] else []
    .fraction (String.ofList (sign ++ digits ++ fraction ++ exponent))

def number : Scan Value := do
  let negative ← Scan.accept '-'
  let digits ← wholeDigits
  let fraction ← fractionDigits
  let exponent ← exponentDigits
  let integer := if fraction.isEmpty ∧ exponent.isEmpty then integer? negative digits else none
  return integer.getD (fractionValue negative digits fraction exponent)

/-!
# Values

Every value, item and field uses up at least one character, so a bound on the
characters bounds the recursion.
-/

/-- A string behind its opening quote. -/
def string : Scan Value := do
  match joined? (← pieces) with
  | some chars => return .text (String.ofList chars)
  | none => return .unreadable

/-- The name of a field behind its opening quote, if it is one. -/
def fieldName : Scan (Option String) := do
  return (joined? (← pieces)).map String.ofList

/-- A record, if all of its fields have names. -/
def recordOf (fields : Option (List (String × Value))) : Value :=
  (fields.map Value.record).getD .unreadable

def keyword : Scan Value :=
  (do Scan.word "null"; return .null) <|>
  (do Scan.word "true"; return .bool true) <|>
  (do Scan.word "false"; return .bool false)

mutual

def value : (bound : Nat) → Scan Value
  | 0 => failure
  | bound + 1 => do
      blanks
      if ← Scan.accept '"' then
        string
      else if ← Scan.accept '[' then
        blanks
        if ← Scan.accept ']' then return .list [] else return .list (← items bound)
      else if ← Scan.accept '\x7b' then
        blanks
        if ← Scan.accept '\x7d' then return .record [] else return recordOf (← fields bound)
      else
        keyword <|> number

/-- The items of a list up to its closing bracket. -/
def items : (bound : Nat) → Scan (List Value)
  | 0 => failure
  | bound + 1 => do
      let item ← value bound
      blanks
      if ← Scan.accept ',' then
        return item :: (← items bound)
      else
        Scan.char ']'
        return [item]

/-- The fields of a record up to its closing brace, if all of them have names. -/
def fields : (bound : Nat) → Scan (Option (List (String × Value)))
  | 0 => failure
  | bound + 1 => do
      blanks
      Scan.char '"'
      let name ← fieldName
      blanks
      Scan.char ':'
      let v ← value bound
      blanks
      let field := name.map fun name => (name, v)
      if ← Scan.accept ',' then
        let more ← fields bound
        return (do return (← field) :: (← more))
      else
        Scan.char '\x7d'
        return field.map fun field => [field]

end

/-- The value that a text writes. -/
def parse? (text : String) : Option Value :=
  let chars := text.toList
  Scan.whole (do let v ← value (chars.length + 1); blanks; return v) chars

/-!
# Printing
-/

/-- A character as it stands in a string. -/
def escape (c : Char) : List Char :=
  if c = '"' then ['\\', '"']
  else if c = '\\' then ['\\', '\\']
  else if c = '\x08' then ['\\', 'b']
  else if c = '\x0c' then ['\\', 'f']
  else if c = '\n' then ['\\', 'n']
  else if c = '\r' then ['\\', 'r']
  else if c = '\t' then ['\\', 't']
  else if c.toNat < 0x20 then ['\\', 'u'] ++ (Text.Hex.number 4 c.toNat).toList
  else [c]

def quoted (s : String) : String :=
  String.ofList ('"' :: s.toList.flatMap escape ++ ['"'])

/-- A value that has no parts. -/
def scalar : Value → String
  | .bool b => if b then "true" else "false"
  | .integer n => toString n
  | .fraction literal => literal
  | .text s => quoted s
  | .moment literal => quoted literal
  | _ => "null"

mutual

/-- A value on one line, without blanks. -/
def compact : Value → String
  | .list items => "[" ++ compactItems items ++ "]"
  | .record fields => "\x7b" ++ compactFields fields ++ "\x7d"
  | v => scalar v

def compactItems : List Value → String
  | [] => ""
  | [item] => compact item
  | item :: rest => compact item ++ "," ++ compactItems rest

def compactFields : List (String × Value) → String
  | [] => ""
  | [(name, v)] => quoted name ++ ":" ++ compact v
  | (name, v) :: rest => quoted name ++ ":" ++ compact v ++ "," ++ compactFields rest

end

/-- The start of a line at a depth of `depth`. -/
def newLine (depth : Nat) : String :=
  "\n" ++ String.ofList (List.replicate (2 * depth) ' ')

mutual

/-- A value with one item or field a line, indented by its depth. -/
def indented (depth : Nat) : Value → String
  | .list [] => "[]"
  | .list items => "[" ++ indentedItems (depth + 1) items ++ newLine depth ++ "]"
  | .record [] => "\x7b\x7d"
  | .record fields => "\x7b" ++ indentedFields (depth + 1) fields ++ newLine depth ++ "\x7d"
  | v => scalar v

def indentedItems (depth : Nat) : List Value → String
  | [] => ""
  | [item] => newLine depth ++ indented depth item
  | item :: rest => newLine depth ++ indented depth item ++ "," ++ indentedItems depth rest

def indentedFields (depth : Nat) : List (String × Value) → String
  | [] => ""
  | [(name, v)] => newLine depth ++ quoted name ++ ": " ++ indented depth v
  | (name, v) :: rest =>
      newLine depth ++ quoted name ++ ": " ++ indented depth v ++ "," ++ indentedFields depth rest

end

/-- The indented form of a whole document. -/
def pretty (v : Value) : String :=
  indented 0 v

end Json
end Document
end SwapPricing
