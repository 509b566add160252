import SwapPricing.Document.Shape
import SwapPricing.Document.Toml
import SwapPricing.Strategy

/-!
# Strategy documents

A strategy document may pin an identifier and lists its steps.  A step names
its operation, and its other fields are the arguments; fields that are no
arguments are ignored.
-/

namespace SwapPricing
namespace Strategy

open Document (Value Shape)
open Document.Shape (Fields fieldsOf required defaulted uint16 uint32 uint64 identifier text)

/-- An operation as strategies write it. -/
abbrev Written := Operation String (Table AssetId UInt64) String

/-- The arguments of an operation, by name and in order. -/
def argumentNames : Opcode → List String
  | .jump => ["to"]
  | .jumpIfAsset _ => ["asset", "to"]
  | .deadline => ["deadline"]
  | .takerBalance => ["asset", "min"]
  | .takerShare => ["asset", "min_share"]
  | .salt => ["hex"]
  | .staticBalances => ["balances"]
  | .dynamicBalances => ["balances"]
  | .externalBalances => []
  | .solve => []
  | .growLiquidity => ["deltas"]
  | .growPriceRange => ["delta_lt", "delta_gt"]
  | .decay => ["period"]
  | .auction _ => ["start", "duration", "decay"]
  | .twap =>
      ["start", "duration", "balance_in", "balance_out", "decay", "illiquidity_period",
        "price_bump", "min_trade_out"]
  | .flatFee _ => ["fee_bps"]
  | .progressiveFee _ => ["base_bps", "slope_bps", "max_bps"]
  | .protocolFee _ => ["fee_bps", "recipient"]
  | .minRateAdjust => ["rate_lt", "rate_gt"]
  | .minRateRequire => ["rate_lt", "rate_gt"]
  | .baseFeeAdjust => ["base_fee", "gas_amount", "gas_price", "max_bps"]
  | .valuationStatic => ["valuation"]
  | .valuationOracle => ["oracle"]
  | .valuationFresh => ["oracle", "max_age"]
  | .valuationBounded => ["oracle", "max_age", "max_delta_bps"]
  | .invalidateBit => ["bit"]
  | .fillCap _ => ["max"]
  | .extruction => ["target", "payload"]

def boundOf (fields : Fields) : Option RateBound := do
  return ⟨← required fields "rate_lt" uint64, ← required fields "rate_gt" uint64⟩

def auctionOf (fields : Fields) : Option Auction := do
  return ⟨← required fields "start" uint64, ← required fields "duration" uint32,
    ← required fields "decay" uint64⟩

def saleOf (fields : Fields) : Option Sale := do
  return ⟨← required fields "start" uint64, ← required fields "duration" uint32,
    ← required fields "balance_in" uint64, ← required fields "balance_out" uint64,
    ← required fields "decay" uint64, ← required fields "illiquidity_period" uint32,
    ← required fields "price_bump" uint64, ← required fields "min_trade_out" uint64⟩

def progressiveOf (fields : Fields) : Option ProgressiveFee := do
  return ⟨← required fields "base_bps" uint16, ← required fields "slope_bps" uint16,
    ← required fields "max_bps" uint16⟩

def gasOf (fields : Fields) : Option GasAdjust := do
  return ⟨← required fields "base_fee" uint64, ← required fields "gas_amount" uint64,
    ← required fields "gas_price" uint64, ← required fields "max_bps" uint16⟩

def amounts : Shape (Table AssetId UInt64) :=
  Document.Shape.table uint64

/-- The operation with the given arguments.  Only the payload of external logic
may be left out. -/
def operationOf (op : Opcode) (fields : Fields) : Option Written := do
  let u16 name := required fields name uint16
  let u32 name := required fields name uint32
  let u64 name := required fields name uint64
  match op with
  | .jump => return .jump (← required fields "to" text)
  | .jumpIfAsset leg =>
      return .jumpIfAsset leg (← required fields "asset" identifier) (← required fields "to" text)
  | .deadline => return .deadline (← u64 "deadline")
  | .takerBalance => return .takerBalance (← required fields "asset" identifier) (← u64 "min")
  | .takerShare => return .takerShare (← required fields "asset" identifier) (← u64 "min_share")
  | .salt => return .salt (← required fields "hex" text)
  | .staticBalances => return .staticBalances (← required fields "balances" amounts)
  | .dynamicBalances => return .dynamicBalances (← required fields "balances" amounts)
  | .externalBalances => return .externalBalances
  | .solve => return .solve
  | .growLiquidity => return .growLiquidity (← required fields "deltas" amounts)
  | .growPriceRange => return .growPriceRange (← u64 "delta_lt") (← u64 "delta_gt")
  | .decay => return .decay (← u32 "period")
  | .auction leg => return .auction leg (← auctionOf fields)
  | .twap => return .twap (← saleOf fields)
  | .flatFee leg => return .flatFee leg (← u16 "fee_bps")
  | .progressiveFee leg => return .progressiveFee leg (← progressiveOf fields)
  | .protocolFee leg =>
      return .protocolFee leg (← u16 "fee_bps") (← required fields "recipient" identifier)
  | .minRateAdjust => return .minRateAdjust (← boundOf fields)
  | .minRateRequire => return .minRateRequire (← boundOf fields)
  | .baseFeeAdjust => return .baseFeeAdjust (← gasOf fields)
  | .valuationStatic => return .valuationStatic (← u64 "valuation")
  | .valuationOracle => return .valuationOracle (← required fields "oracle" identifier)
  | .valuationFresh =>
      return .valuationFresh (← required fields "oracle" identifier) (← u32 "max_age")
  | .valuationBounded =>
      return .valuationBounded (← required fields "oracle" identifier) (← u32 "max_age")
        (← u16 "max_delta_bps")
  | .invalidateBit => return .invalidateBit (← u32 "bit")
  | .fillCap leg => return .fillCap leg (← u64 "max")
  | .extruction =>
      return .extruction (← required fields "target" identifier)
        (← defaulted fields "payload" text "")

/-- The name of the operation of a step, and the value that holds its
arguments. -/
def tagged : Value → Option (String × Value)
  | .record fields => do
      let name ← text (← fields.lookup "op")
      return (name, .record (fields.filter fun field => field.1 != "op"))
  | .list (.text name :: rest) => some (name, .list rest)
  | _ => none

/-- Steps ignore fields that are no arguments. -/
def argumentRules : Document.Shape.Tolerance where
  otherFields := true
  moreItems := false

/-- A step of a strategy. -/
def stepShape : Shape Step := fun v => do
  let (name, arguments) ← tagged v
  if name = "label" then
    return .label (← required (← fieldsOf argumentRules ["name"] arguments) "name" text)
  else
    let op ← Opcode.ofMnemonic? name
    return .instruction (← operationOf op (← fieldsOf argumentRules (argumentNames op) arguments))

/-- A strategy; other fields than its own are refused. -/
def ofValue? : Shape Strategy := fun v => do
  let fields ← fieldsOf ⟨false, false⟩ ["id", "step"] v
  let id ← defaulted fields "id" (fun v => (identifier v).map some) none
  let steps ← defaulted fields "step" (Document.Shape.list stepShape) []
  return ⟨id, steps⟩

/-- The strategy that a text writes. -/
def parse? (text : String) : Option Strategy := do
  ofValue? (← Document.Toml.parse? text)

end Strategy
end SwapPricing
