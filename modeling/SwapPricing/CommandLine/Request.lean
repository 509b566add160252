import SwapPricing.CommandLine.Failure

/-!
# Requests

What the command line may ask for.
-/

namespace SwapPricing
namespace CommandLine

/-- A trade as the taker asks for it. -/
structure TradeRequest where
  assetIn : String
  assetOut : String
  amount : UInt64
  /-- Whether the amount is the one to receive. -/
  exactOut : Bool
  taker : Option String

/-- An identifier given on the command line. -/
def parseIdentifier {kind : IdentifierKind} (role : IdentifierRole) (text : String) :
    Except Failure (Identifier kind) :=
  (Identifier.parse text).mapError (Failure.identifier role)

/-- The query of a trade. -/
def TradeRequest.query (t : TradeRequest) : Except Failure Query := do
  let assetIn ← parseIdentifier .inputAsset t.assetIn
  let assetOut ← parseIdentifier .outputAsset t.assetOut
  let query := Query.simulated (if t.exactOut then .output else .input) assetIn assetOut t.amount
  match t.taker with
  | none => return query
  | some taker => return query.withTaker (← parseIdentifier .taker taker)

/-- A price band around a price, with the balances of the lower and of the
higher asset. -/
structure BandRequest where
  balanceA : UInt64
  balanceB : UInt64
  price : String
  bottom : String
  top : String

/-- What to do. -/
inductive Command where
  /-- Print the identifier and the bytes of a strategy. -/
  | assemble (strategy : String)
  /-- Print the listing of a strategy or of bytes in hexadecimal. -/
  | disassemble (strategy hex id : Option String)
  /-- Price a trade. -/
  | quote (strategy : String) (trade : TradeRequest)
  /-- Price a trade and keep the order state it leaves behind. -/
  | swap (strategy : String) (trade : TradeRequest)
  /-- Invalidate an order ahead of time. -/
  | invalidate (strategy : String) (bit : UInt32)
  /-- Compute the virtual liquidity of a price band. -/
  | concentrate (band : BandRequest)
  /-- Print the order state, of all programs or of one. -/
  | state (program : Option String)

/-- A command with the options that stand in front of it. -/
structure Invocation where
  config : String
  verbose : Bool
  command : Command

end CommandLine
end SwapPricing
