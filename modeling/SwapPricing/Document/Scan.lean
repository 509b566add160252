/-!
# Scanning text

A scan reads a value from the front of a text and leaves the rest, or fails.  A
scan that failed has read nothing, so another one may be tried in its place.
-/

namespace SwapPricing
namespace Document

/-- A reading of a value from the front of a text. -/
abbrev Scan := StateT (List Char) Option

namespace Scan

/-- The next character. -/
def any : Scan Char
  | [] => none
  | c :: rest => some (c, rest)

/-- The next character, if it satisfies `p`. -/
def oneOf (p : Char → Bool) : Scan Char
  | [] => none
  | c :: rest => if p c then some (c, rest) else none

def char (expected : Char) : Scan Unit := do
  let _ ← oneOf (· == expected)

/-- The characters of a word, one after the other. -/
def word (expected : String) : Scan Unit := fun text =>
  let chars := expected.toList
  if chars.isPrefixOf text then some ((), text.drop chars.length) else none

/-- The longest run of characters that satisfy `p`. -/
def run (p : Char → Bool) : Scan (List Char) := fun text =>
  some (text.takeWhile p, text.dropWhile p)

/-- The longest run of characters that satisfy `p`, which must not be empty. -/
def run1 (p : Char → Bool) : Scan (List Char) := fun text =>
  let taken := text.takeWhile p
  if taken.isEmpty then none else some (taken, text.dropWhile p)

/-- Exactly `n` characters that satisfy `p`. -/
def exactly (n : Nat) (p : Char → Bool) : Scan (List Char) := fun text =>
  let taken := text.take n
  if taken.length = n ∧ taken.all p then some (taken, text.drop n) else none

/-- The value of `x`, or nothing where `x` fails. -/
def attempt {α : Type} (x : Scan α) : Scan (Option α) := fun text =>
  match x text with
  | some (a, rest) => some (some a, rest)
  | none => some (none, text)

/-- Whether `c` comes next; if so it is read. -/
def accept (c : Char) : Scan Bool := do
  return (← attempt (char c)).isSome

/-- The next character, which stays unread; none at the end. -/
def peek : Scan (Option Char) := fun text =>
  some (text.head?, text)

/-- A value that is certain, or failure. -/
def ofOption {α : Type} (a : Option α) : Scan α := fun text =>
  a.map fun a => (a, text)

/-- Reads a whole text. -/
def whole {α : Type} (x : Scan α) (text : List Char) : Option α :=
  match x text with
  | some (a, []) => some a
  | _ => none

end Scan

/-- The value of digits in a base; characters that are no digits count as
zero. -/
def digitsValue (base : Nat) (value : Char → Option Nat) (digits : List Char) : Nat :=
  digits.foldl (fun n c => n * base + (value c).getD 0) 0

end Document
end SwapPricing
