import SwapPricing.LittleEndian
import SwapPricing.Opcode

/-!
# Reading argument bytes

The arguments of a record are little-endian integers and raw identifiers, read
from the front.  A reader that finds too few bytes reports how many arguments
bytes it would have needed in all, and leaves the cursor where it was.
-/

namespace SwapPricing

/-!
# Refusals
-/

/-- Why well-formed argument bytes are refused. -/
inductive ArgumentFault where
  | rateTooHigh
  | shareAboveOne
  | zeroPeriod
  | zeroDuration
  | decayAboveOne
  | nothingToSell
  | bumpBelowOne
  | zeroRate
  | valuationOutside
  | custom (reason : String)
  deriving DecidableEq, Repr

def ArgumentFault.message : ArgumentFault → String
  | rateTooHigh => "basis points must be below 10000"
  | shareAboveOne => "share above 1"
  | zeroPeriod => "period is zero"
  | zeroDuration => "duration is zero"
  | decayAboveOne => "decay factor above 1"
  | nothingToSell => "nothing to sell"
  | bumpBelowOne => "price bump below 1"
  | zeroRate => "rate component is zero"
  | valuationOutside => "valuation outside (0, 1)"
  | custom reason => reason

/-- Why bytes are no program of an instruction set. -/
inductive DecodeError where
  | unknownOpcode (code : UInt8) (offset : Nat)
  | truncated (offset : Nat)
  | argumentLength (op : Opcode) (offset expected actual : Nat)
  | invalidArgument (op : Opcode) (offset : Nat) (fault : ArgumentFault)
  | invalidJumpTarget (target : Nat)
  | backwardJump (offset : Nat)
  deriving DecidableEq, Repr

def DecodeError.message : DecodeError → String
  | unknownOpcode code offset => s!"unknown opcode {code} at offset {offset}"
  | truncated offset => s!"truncated record at offset {offset}"
  | argumentLength op offset expected actual =>
      s!"{op.mnemonic} at offset {offset}: expected {expected} argument bytes, got {actual}"
  | invalidArgument op offset fault => s!"{op.mnemonic} at offset {offset}: {fault.message}"
  | invalidJumpTarget target => s!"jump target {target} is not a record boundary"
  | backwardJump offset => s!"conditional jump at offset {offset} must target a later record"

/-!
# Cursors
-/

/-- A place in the argument bytes of one record. -/
structure Cursor where
  /-- The opcode of the record. -/
  op : Opcode
  /-- The offset of the record. -/
  offset : Nat
  /-- The number of argument bytes of the record. -/
  size : Nat
  /-- The bytes still to be read. -/
  rest : List UInt8

/-- A reader of argument bytes. -/
abbrev Reader := StateT Cursor (Except DecodeError)

namespace Cursor

/-- The start of the arguments of the record at `offset`. -/
def atStart (op : Opcode) (offset : Nat) (arguments : List UInt8) : Cursor :=
  ⟨op, offset, arguments.length, arguments⟩

def remaining (c : Cursor) : Nat :=
  c.rest.length

/-- The number of bytes already read. -/
def position (c : Cursor) : Nat :=
  c.size - c.remaining

/-- The refusal of a record whose arguments should have been `expected` bytes. -/
def lengthError (c : Cursor) (expected : Nat) : DecodeError :=
  .argumentLength c.op c.offset expected c.size

/-- The refusal of the arguments for their value. -/
def invalid (c : Cursor) (fault : ArgumentFault) : DecodeError :=
  .invalidArgument c.op c.offset fault

end Cursor

namespace Reader

/-!
# Fields
-/

/-- The next `n` bytes. -/
def bytes (n : Nat) : Reader (List UInt8) := fun c =>
  let taken := c.rest.take n
  if taken.length = n then .ok (taken, { c with rest := c.rest.drop n })
  else .error (c.lengthError (c.position + n))

def uint16 : Reader UInt16 := do
  return UInt16.ofNat (LittleEndian.value (← bytes 2))

def uint32 : Reader UInt32 := do
  return UInt32.ofNat (LittleEndian.value (← bytes 4))

def uint64 : Reader UInt64 := do
  return UInt64.ofNat (LittleEndian.value (← bytes 8))

def identifier {kind : IdentifierKind} : Reader (Identifier kind) := fun c =>
  let taken := c.rest.take identifierSize
  if h : taken.length = identifierSize then
    .ok (⟨taken, h⟩, { c with rest := c.rest.drop identifierSize })
  else
    .error (c.lengthError (c.position + identifierSize))

/-- All bytes that are left. -/
def rest : Reader (List UInt8) := fun c =>
  .ok (c.rest, { c with rest := [] })

/-- The size of an asset with an amount. -/
def entrySize : Nat := identifierSize + 8

/-- The next `n` assets with an amount each. -/
def entriesOf : (n : Nat) → Reader (List (AssetId × UInt64))
  | 0 => return []
  | n + 1 => do
      let asset ← identifier
      let amount ← uint64
      let more ← entriesOf n
      return (asset, amount) :: more

/-- Assets with an amount each, up to the end.  Bytes that do not divide evenly
are refused at once. -/
def entries : Reader (List (AssetId × UInt64)) := fun c =>
  let whole := c.remaining / entrySize
  if c.remaining % entrySize = 0 then entriesOf whole c
  else .error (c.lengthError (c.position + (whole + 1) * entrySize))

/-!
# Checks
-/

/-- Refuses the arguments with `fault` unless `p` holds. -/
def require (p : Prop) [Decidable p] (fault : ArgumentFault) : Reader Unit := fun c =>
  if p then .ok ((), c) else .error (c.invalid fault)

/-- Refuses bytes that are left over. -/
def finish : Reader Unit := fun c =>
  if c.rest = [] then .ok ((), c) else .error (c.lengthError c.position)

end Reader
end SwapPricing
