import SwapPricing.Document.Json
import SwapPricing.Document.Shape
import SwapPricing.Order.Store

/-!
# Saved order state

A store is saved as a document with one list of rows for each of its tables, in
key order.  Reading accepts the rows in any order, and of rows for one key the
last counts.
-/

namespace SwapPricing
namespace Order

open Document (Value Shape)
open Document.Shape (fieldsOf required defaulted)

/-!
# Writing
-/

def idValue {kind : IdentifierKind} (id : Identifier kind) : Value :=
  .text id.text

/-- The fields of a key about one side of a trade. -/
def sideFields (key : Owned Side) : List (String × Value) :=
  [("program", idValue key.program), ("asset", idValue key.subject.asset),
    ("leg", .text key.subject.leg.name)]

def offsetRow (entry : Owned Side × DecayOffset) : Value :=
  .record (sideFields entry.1 ++
    [("amount", .word entry.2.amount.toNat), ("updated_at", .word entry.2.updatedAt.toNat)])

def fillRow (entry : Owned Side × UInt64) : Value :=
  .record (sideFields entry.1 ++ [("total", .word entry.2.toNat)])

def bitRow (entry : Owned UInt32 × Unit) : Value :=
  .record [("program", idValue entry.1.program), ("bit", .word entry.1.subject.toNat)]

def balanceRow (entry : Owned AssetId × UInt64) : Value :=
  .record
    [("program", idValue entry.1.program), ("asset", idValue entry.1.subject),
      ("balance", .word entry.2.toNat)]

/-- The fields of the progress of a sale. -/
def saleFields (state : SaleState) : List (String × Value) :=
  [("sold", .word state.sold.toNat),
    ("last_fill_at", .ofOption (state.lastFill.map fun t => .word t.toNat)),
    ("bumped", .bool state.bumped)]

def saleRow (entry : Owned UInt64 × SaleState) : Value :=
  .record
    ([("program", idValue entry.1.program), ("offset", .word entry.1.subject.toNat)] ++
      saleFields entry.2)

/-- The document that saves a store. -/
def Store.toValue (s : Store) : Value :=
  .record
    [("decay", .list (s.offsets.entries.map offsetRow)),
      ("consumed", .list (s.fills.entries.map fillRow)),
      ("invalidated", .list (s.bits.entries.map bitRow)),
      ("balances", .list (s.balances.entries.map balanceRow)),
      ("twap", .list (s.sales.entries.map saleRow))]

/-!
# Reading
-/

/-- Rows ignore fields that are none of their own. -/
def rows : Shape.Tolerance where
  otherFields := true
  moreItems := false

/-- A leg by its name.  The name may also stand as the only field of a record
that holds nothing. -/
def legShape : Shape Leg
  | .text name => Leg.ofName? name
  | .record [(name, .null)] => Leg.ofName? name
  | _ => none

def offsetShape : Shape (Owned Side × DecayOffset) := fun v => do
  let fields ← fieldsOf rows ["program", "asset", "leg", "amount", "updated_at"] v
  let program ← required fields "program" Shape.identifier
  let asset ← required fields "asset" Shape.identifier
  let leg ← required fields "leg" legShape
  let amount ← required fields "amount" Shape.uint64
  let updatedAt ← required fields "updated_at" Shape.uint64
  return (⟨program, asset, leg⟩, ⟨amount, updatedAt⟩)

def fillShape : Shape (Owned Side × UInt64) := fun v => do
  let fields ← fieldsOf rows ["program", "asset", "leg", "total"] v
  let program ← required fields "program" Shape.identifier
  let asset ← required fields "asset" Shape.identifier
  let leg ← required fields "leg" legShape
  let total ← required fields "total" Shape.uint64
  return (⟨program, asset, leg⟩, total)

def bitShape : Shape (Owned UInt32 × Unit) := fun v => do
  let fields ← fieldsOf rows ["program", "bit"] v
  let program ← required fields "program" Shape.identifier
  let bit ← required fields "bit" Shape.uint32
  return (⟨program, bit⟩, ())

def balanceShape : Shape (Owned AssetId × UInt64) := fun v => do
  let fields ← fieldsOf rows ["program", "asset", "balance"] v
  let program ← required fields "program" Shape.identifier
  let asset ← required fields "asset" Shape.identifier
  let balance ← required fields "balance" Shape.uint64
  return (⟨program, asset⟩, balance)

def saleStateShape (fields : Shape.Fields) : Option SaleState := do
  let sold ← required fields "sold" Shape.uint64
  let lastFill ← defaulted fields "last_fill_at" (Shape.nullable Shape.uint64) none
  let bumped ← required fields "bumped" Shape.bool
  return ⟨sold, lastFill, bumped⟩

/-- The height of rows that are read as a whole.  They lie within a list within
the document, which makes 127 at most. -/
def rowHeight : Nat := 125

/-- Whether a row can be read as a whole. -/
def isWhole (row : Value) : Bool :=
  row.isReadable && row.height ≤ rowHeight

/-- The row of a sale gives its fields by name only, and is read as a whole. -/
def saleShape : Shape (Owned UInt64 × SaleState)
  | .record given => do
      let fields ←
        fieldsOf rows ["program", "offset", "sold", "last_fill_at", "bumped"] (.record given)
      let program ← required fields "program" Shape.identifier
      let offset ← required fields "offset" Shape.uint64
      let state ← saleStateShape fields
      if isWhole (.record given) then some (⟨program, offset⟩, state) else none
  | _ => none

/-- The store that a document saves; lists that are missing are empty. -/
def Store.ofValue? : Shape Store := fun v => do
  let fields ← fieldsOf rows ["decay", "consumed", "invalidated", "balances", "twap"] v
  let offsets ← defaulted fields "decay" (Shape.list offsetShape) []
  let fills ← defaulted fields "consumed" (Shape.list fillShape) []
  let bits ← defaulted fields "invalidated" (Shape.list bitShape) []
  let balances ← defaulted fields "balances" (Shape.list balanceShape) []
  let sales ← defaulted fields "twap" (Shape.list saleShape) []
  return .ofLists offsets fills bits balances sales

/-- The text of a saved store. -/
def Store.save (s : Store) : String :=
  Document.Json.pretty s.toValue

/-- The store that a text saves. -/
def Store.load? (text : String) : Option Store := do
  Store.ofValue? (← Document.Json.parse? text)

end Order
end SwapPricing
