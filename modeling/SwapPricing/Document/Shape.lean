import SwapPricing.Document.Value
import SwapPricing.Identifier
import SwapPricing.Table

/-!
# Shapes

A shape says which values of a document stand for the values of a type, and
which ones.  A structure may be given as a record, by name, or as a list, by
position.
-/

namespace SwapPricing
namespace Document

/-- A reading of document values as values of a type. -/
abbrev Shape (α : Type) := Value → Option α

namespace Shape

/-!
# Scalars
-/

def bool : Shape Bool
  | .bool b => some b
  | _ => none

def text : Shape String
  | .text s => some s
  | _ => none

/-- Integers from zero to below `size`. -/
def natural (size : Nat) : Shape Nat
  | .integer n => if 0 ≤ n ∧ n < size then some n.toNat else none
  | _ => none

def uint16 : Shape UInt16 := fun v => (natural UInt16.size v).map UInt16.ofNat

def uint32 : Shape UInt32 := fun v => (natural UInt32.size v).map UInt32.ofNat

def uint64 : Shape UInt64 := fun v => (natural UInt64.size v).map UInt64.ofNat

/-- An identifier in its text form. -/
def identifier {kind : IdentifierKind} : Shape (Identifier kind)
  | .text s => (Identifier.parse s).toOption
  | _ => none

/-!
# Collections
-/

/-- A value that may be null. -/
def nullable {α : Type} (shape : Shape α) : Shape (Option α)
  | .null => some none
  | v => (shape v).map some

def list {α : Type} (shape : Shape α) : Shape (List α)
  | .list items => items.mapM shape
  | _ => none

/-- A record whose names are identifiers.  Of names for one identifier the last
counts. -/
def table {kind : IdentifierKind} {α : Type} (shape : Shape α) :
    Shape (Table (Identifier kind) α)
  | .record fields => do
      let entries ← fields.mapM fun field => do
        return (← (Identifier.parse field.1).toOption, ← shape field.2)
      return Table.ofList entries
  | _ => none

/-!
# Structures
-/

/-- The fields of a structure that are given. -/
abbrev Fields := List (String × Value)

/-- Whether no two of the fields have the same name. -/
def distinct (fields : Fields) : Bool :=
  match fields with
  | [] => true
  | field :: rest => rest.all (fun other => other.1 != field.1) && distinct rest

/-- What a structure puts up with. -/
structure Tolerance where
  /-- Fields of a record that are none of its own. -/
  otherFields : Bool
  /-- Items of a list behind its last field. -/
  moreItems : Bool

/-- The fields of a structure with the given names.  A record must not give one
of them twice. -/
def fieldsOf (tolerance : Tolerance) (names : List String) : Shape Fields
  | .record fields =>
      let known := fields.filter fun field => names.contains field.1
      if distinct known ∧ (tolerance.otherFields ∨ known.length = fields.length) then some known
      else none
  | .list items =>
      if tolerance.moreItems ∨ items.length ≤ names.length then some (names.zip items) else none
  | _ => none

/-- A field that must be given. -/
def required {α : Type} (fields : Fields) (name : String) (shape : Shape α) : Option α := do
  shape (← fields.lookup name)

/-- A field with a default. -/
def defaulted {α : Type} (fields : Fields) (name : String) (shape : Shape α) (value : α) :
    Option α :=
  match fields.lookup name with
  | some v => shape v
  | none => some value

end Shape
end Document
end SwapPricing
