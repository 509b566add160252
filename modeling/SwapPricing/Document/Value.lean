/-!
# Document values

A document is a tree of values, whatever notation it is written in.  A record
keeps its fields in the order they were written, and a notation that allows a
name to occur twice keeps both.
-/

namespace SwapPricing
namespace Document

/-- The value of a document or of a part of one. -/
inductive Value where
  | null
  | bool (b : Bool)
  | integer (n : Int)
  /-- A number that is written with a fraction or an exponent, or that is too
  large for an integer. -/
  | fraction (literal : String)
  | text (s : String)
  /-- A date, a time, or both. -/
  | moment (literal : String)
  | list (items : List Value)
  | record (fields : List (String × Value))
  /-- A value that is written correctly and denotes nothing, such as text with
  half of a surrogate pair, or a record with such a name.  It may be skipped but
  not read. -/
  | unreadable

instance : Inhabited Value := ⟨.null⟩

/-- The number of integers of 64 bits that are not negative, where half of all
are. -/
def signedSize : Nat := 9223372036854775808

namespace Value

/-- A word as a value. -/
def word (n : Nat) : Value :=
  .integer n

def ofOption (value : Option Value) : Value :=
  value.getD .null

mutual

/-- Whether no part of a value is unreadable. -/
def isReadable : Value → Bool
  | unreadable => false
  | list items => itemsReadable items
  | record fields => fieldsReadable fields
  | _ => true

def itemsReadable : List Value → Bool
  | [] => true
  | item :: rest => isReadable item && itemsReadable rest

def fieldsReadable : List (String × Value) → Bool
  | [] => true
  | (_, value) :: rest => isReadable value && fieldsReadable rest

end

mutual

/-- How deep lists and records lie within one another; a value without parts has
no height. -/
def height : Value → Nat
  | list items => itemsHeight items + 1
  | record fields => fieldsHeight fields + 1
  | _ => 0

def itemsHeight : List Value → Nat
  | [] => 0
  | item :: rest => max (height item) (itemsHeight rest)

def fieldsHeight : List (String × Value) → Nat
  | [] => 0
  | (_, value) :: rest => max (height value) (fieldsHeight rest)

end

/-- The value of a field.  Of fields with one name the first counts. -/
def field? (name : String) : Value → Option Value
  | record fields => (fields.find? fun field => field.1 == name).map Prod.snd
  | _ => none

end Value
end Document
end SwapPricing
