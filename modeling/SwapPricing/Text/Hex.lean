/-!
# Hexadecimal bytes

Bytes are written as two lower-case digits each.  Reading takes digits of
either case and names the first byte that is no digit.
-/

namespace SwapPricing
namespace Text

/-- Why a text is no hexadecimal byte string. -/
inductive HexError where
  | oddLength
  | badDigit (byte : UInt8) (position : Nat)
  deriving DecidableEq, Repr

namespace Hex

/-!
# Writing
-/

/-- The lower-case digit of a value below sixteen. -/
def digit (n : Nat) : Char :=
  if n < 10 then Char.ofNat (48 + n) else Char.ofNat (87 + n)

/-- The two digits of a byte, high half first. -/
def pair (byte : UInt8) : List Char :=
  [digit (byte.toNat / 16), digit (byte.toNat % 16)]

def encode (bytes : List UInt8) : String :=
  String.ofList (bytes.flatMap pair)

/-- The digits of `n` without leading zeros, in front of `tail`. -/
def digitsBefore (n : Nat) (tail : List Char) : List Char :=
  if h : n < 16 then digit n :: tail
  else digitsBefore (n / 16) (digit (n % 16) :: tail)
  termination_by n

/-- The value `n` in hexadecimal, padded with zeros to `width` digits. -/
def number (width n : Nat) : String :=
  let digits := digitsBefore n []
  String.ofList (List.replicate (width - digits.length) '0' ++ digits)

/-!
# Reading
-/

/-- The value of a digit of either case. -/
def digitValue? (byte : UInt8) : Option Nat :=
  let c := byte.toNat
  if 48 ≤ c ∧ c ≤ 57 then some (c - 48)
  else if 97 ≤ c ∧ c ≤ 102 then some (c - 87)
  else if 65 ≤ c ∧ c ≤ 70 then some (c - 55)
  else none

/-- The value of a character that is a digit of either case. -/
def charValue? (c : Char) : Option Nat :=
  if c.toNat < 128 then digitValue? (UInt8.ofNat c.toNat) else none

def digitValue (byte : UInt8) (position : Nat) : Except HexError Nat :=
  match digitValue? byte with
  | some n => .ok n
  | none => .error (.badDigit byte position)

/-- Reads two digits at a time; `position` counts the digits already read. -/
def decodePairs : (position : Nat) → List UInt8 → Except HexError (List UInt8)
  | position, high :: low :: rest => do
      let h ← digitValue high position
      let l ← digitValue low (position + 1)
      let more ← decodePairs (position + 2) rest
      .ok (UInt8.ofNat (16 * h + l) :: more)
  | _, _ => .ok []

/-- The bytes that a text denotes.  An odd length is refused before any digit
is read. -/
def decode (text : String) : Except HexError (List UInt8) :=
  let bytes := text.toUTF8.toList
  if bytes.length % 2 = 1 then .error .oddLength else decodePairs 0 bytes

end Hex

/-!
# Wording
-/

/-- A byte as a quoted character.  Controls, the soft hyphen and the
no-break space are shown by their code. -/
def quotedByte (byte : UInt8) : String :=
  let code := byte.toNat
  let shown :=
    if code = 0 then "\\0"
    else if code = 9 then "\\t"
    else if code = 10 then "\\n"
    else if code = 13 then "\\r"
    else if code = 39 then "\\'"
    else if code = 92 then "\\\\"
    else if code < 32 ∨ (127 ≤ code ∧ code ≤ 160) ∨ code = 173 then
      "\\u\x7b" ++ Hex.number 1 code ++ "\x7d"
    else String.ofList [Char.ofNat code]
  "'" ++ shown ++ "'"

def HexError.message : HexError → String
  | .oddLength => "Odd number of digits"
  | .badDigit byte position =>
      "Invalid character " ++ quotedByte byte ++ " at position " ++ toString position

end Text
end SwapPricing
