import SwapPricing.Text.Base58
import SwapPricing.Text.Hex

/-!
# Identifiers

Assets, accounts and programs are named by 32 bytes.  A short printable name
stands for the identifier that holds its characters and is filled up with zero
bytes; every other identifier is written in base58.  Text that is base58 of 32
bytes always reads as base58, so a name that looks like one is written in
base58 as well.
-/

namespace SwapPricing

/-- What an identifier names. -/
inductive IdentifierKind where
  | asset
  | address
  | program
  deriving DecidableEq, Repr

/-- The number of bytes of every identifier. -/
def identifierSize : Nat := 32

/-- A 32-byte name of one kind of thing. -/
structure Identifier (kind : IdentifierKind) where
  bytes : List UInt8
  length_bytes : bytes.length = identifierSize
  deriving DecidableEq

/-- A fungible asset. -/
abbrev AssetId := Identifier .asset

/-- An account: a taker, a fee recipient, an oracle or external logic. -/
abbrev Address := Identifier .address

/-- A program; it owns all the state that its runs leave behind. -/
abbrev ProgramId := Identifier .program

/-- A text that names nothing. -/
structure IdentifierError where
  text : String
  deriving DecidableEq, Repr

def IdentifierError.message (e : IdentifierError) : String :=
  "invalid identifier `" ++ e.text ++
    "`: expected a name of at most 32 printable ASCII bytes or base58 of 32 bytes"

namespace Identifier

variable {kind : IdentifierKind}

/-!
# Order

Identifiers are ordered by their bytes, from the first.
-/

instance : Ord (Identifier kind) where
  compare a b := compare a.bytes b.bytes

theorem compare_def (a b : Identifier kind) : compare a b = compare a.bytes b.bytes :=
  rfl

@[ext]
theorem ext {a b : Identifier kind} (h : a.bytes = b.bytes) : a = b := by
  cases a
  cases b
  cases h
  rfl

instance : Std.TransOrd (Identifier kind) :=
  inferInstanceAs (Std.TransCmp (compareOn Identifier.bytes))

instance : Std.LawfulEqOrd (Identifier kind) where
  eq_of_compare {a b} h := by
    rw [compare_def] at h
    exact Identifier.ext (Std.LawfulEqCmp.eq_of_compare h)
  compare_self {a} := by
    rw [compare_def]
    exact Std.ReflCmp.compare_self

/-- Whether `a` sorts strictly before `b`. -/
def precedes (a b : Identifier kind) : Bool :=
  (compare a b).isLT

/-!
# Bytes
-/

/-- The identifier of the given bytes, if there are 32 of them. -/
def ofBytes? (bytes : List UInt8) : Option (Identifier kind) :=
  if h : bytes.length = identifierSize then some ⟨bytes, h⟩ else none

/-- The identifier of 32 zero bytes. -/
def zero : Identifier kind :=
  ⟨List.replicate identifierSize 0, List.length_replicate⟩

instance : Inhabited (Identifier kind) := ⟨zero⟩

/-- `bytes` filled up with zero bytes. -/
def padded (bytes : List UInt8) (h : bytes.length ≤ identifierSize) : Identifier kind :=
  ⟨bytes ++ List.replicate (identifierSize - bytes.length) 0, by
    simp only [List.length_append, List.length_replicate]
    omega⟩

/-!
# Text
-/

/-- Whether a character is printable ASCII other than the space. -/
def isGraphic (c : Char) : Bool :=
  33 ≤ c.toNat && c.toNat ≤ 126

/-- The identifier that a text spells in base58. -/
def ofBase58? (text : List Char) : Option (Identifier kind) :=
  (Text.Base58.decode? text).bind ofBytes?

/-- The identifier of a short printable name. -/
def ofName? (name : List Char) : Option (Identifier kind) :=
  if h : (name.map (fun c => UInt8.ofNat c.toNat)).length ≤ identifierSize then
    if name ≠ [] ∧ name.all isGraphic then
      some (padded (name.map (fun c => UInt8.ofNat c.toNat)) h)
    else
      none
  else
    none

/-- The identifier that a text names. -/
def ofChars? (text : List Char) : Option (Identifier kind) :=
  (ofBase58? text).or (ofName? text)

def parse (text : String) : Except IdentifierError (Identifier kind) :=
  match ofChars? text.toList with
  | some id => .ok id
  | none => .error ⟨text⟩

/-- The name held by an identifier: its bytes up to the first zero, if they are
printable and nothing follows. -/
def name? (id : Identifier kind) : Option (List Char) :=
  let held := id.bytes.takeWhile (· ≠ 0)
  let rest := id.bytes.dropWhile (· ≠ 0)
  let name := held.map fun b => Char.ofNat b.toNat
  if name ≠ [] ∧ rest.all (· = 0) ∧ name.all isGraphic then some name else none

/-- The shown form of an identifier; it reads back as the same identifier. -/
def chars (id : Identifier kind) : List Char :=
  match id.name? with
  | some name =>
      if (ofBase58? name : Option (Identifier kind)).isNone then name
      else Text.Base58.encode id.bytes
  | none => Text.Base58.encode id.bytes

def text (id : Identifier kind) : String :=
  String.ofList id.chars

end Identifier

/-- The name of a kind in diagnostic output. -/
def IdentifierKind.label : IdentifierKind → String
  | .asset => "AssetId"
  | .address => "Address"
  | .program => "ProgramId"

/-- An identifier in diagnostic output, marked with its kind. -/
def Identifier.labelled {kind : IdentifierKind} (id : Identifier kind) : String :=
  kind.label ++ "(" ++ id.text ++ ")"

end SwapPricing
