import SwapPricing.Opcode

/-!
# Instructions

An operation is an opcode together with its arguments.  It is open in three
places: what a jump aims at, how a list of assets with amounts is given, and
how raw bytes are given.  Programs, drafts of programs and strategies are lists
of operations that fill these places differently, and one traversal turns one
into the next.
-/

namespace SwapPricing

/-!
# Arguments
-/

/-- A schedule on which a balance fades by a factor per second. -/
structure Auction where
  start : UInt64
  duration : UInt32
  /-- The factor per second, as a fraction of at most one. -/
  decay : UInt64
  deriving DecidableEq

/-- A sale whose output unlocks evenly over its duration. -/
structure Sale where
  start : UInt64
  duration : UInt32
  /-- The input asked for the whole sale. -/
  balanceIn : UInt64
  /-- The output sold over the whole sale. -/
  balanceOut : UInt64
  /-- The factor per second by which the price fades since the last fill. -/
  decay : UInt64
  illiquidityPeriod : UInt32
  /-- The factor on the price after a gap of an illiquidity period. -/
  priceBump : UInt64
  minTradeOut : UInt64
  deriving DecidableEq

/-- A fee rate that grows with the size of the trade. -/
structure ProgressiveFee where
  base : UInt16
  slope : UInt16
  cap : UInt16
  deriving DecidableEq

/-- A bound on the rate between the lower and the higher asset. -/
structure RateBound where
  lower : UInt64
  higher : UInt64
  deriving DecidableEq

/-- Compensation for a base fee above the maker's reference. -/
structure GasAdjust where
  baseFee : UInt64
  gasAmount : UInt64
  /-- The output asset per unit of gas cost. -/
  gasPrice : UInt64
  cap : UInt16
  deriving DecidableEq

/-- Assets with an amount each. -/
abbrev Entries := List (AssetId × UInt64)

/-!
# Operations
-/

/-- An instruction whose jump targets, entry lists and byte strings are of the
given types. -/
inductive Operation (target entries payload : Type) where
  | jump (destination : target)
  | jumpIfAsset (leg : Leg) (asset : AssetId) (destination : target)
  | deadline (last : UInt64)
  | takerBalance (asset : AssetId) (least : UInt64)
  | takerShare (asset : AssetId) (least : UInt64)
  | salt (bytes : payload)
  | staticBalances (balances : entries)
  | dynamicBalances (balances : entries)
  | externalBalances
  | solve
  | growLiquidity (deltas : entries)
  | growPriceRange (lower higher : UInt64)
  | decay (period : UInt32)
  | auction (leg : Leg) (terms : Auction)
  | twap (terms : Sale)
  | flatFee (leg : Leg) (rate : UInt16)
  | progressiveFee (leg : Leg) (terms : ProgressiveFee)
  | protocolFee (leg : Leg) (rate : UInt16) (recipient : Address)
  | minRateAdjust (bound : RateBound)
  | minRateRequire (bound : RateBound)
  | baseFeeAdjust (terms : GasAdjust)
  | valuationStatic (valuation : UInt64)
  | valuationOracle (oracle : Address)
  | valuationFresh (oracle : Address) (maxAge : UInt32)
  | valuationBounded (oracle : Address) (maxAge : UInt32) (maxDelta : UInt16)
  | invalidateBit (bit : UInt32)
  | fillCap (leg : Leg) (cap : UInt64)
  | extruction (logic : Address) (input : payload)
  deriving DecidableEq

/-- An instruction as it stands in a program: jumps aim at byte offsets. -/
abbrev Instruction := Operation UInt16 Entries (List UInt8)

namespace Operation

variable {target entries payload : Type}

def opcode : Operation target entries payload → Opcode
  | jump _ => .jump
  | jumpIfAsset leg _ _ => .jumpIfAsset leg
  | deadline _ => .deadline
  | takerBalance _ _ => .takerBalance
  | takerShare _ _ => .takerShare
  | salt _ => .salt
  | staticBalances _ => .staticBalances
  | dynamicBalances _ => .dynamicBalances
  | externalBalances => .externalBalances
  | solve => .solve
  | growLiquidity _ => .growLiquidity
  | growPriceRange _ _ => .growPriceRange
  | decay _ => .decay
  | auction leg _ => .auction leg
  | twap _ => .twap
  | flatFee leg _ => .flatFee leg
  | progressiveFee leg _ => .progressiveFee leg
  | protocolFee leg _ _ => .protocolFee leg
  | minRateAdjust _ => .minRateAdjust
  | minRateRequire _ => .minRateRequire
  | baseFeeAdjust _ => .baseFeeAdjust
  | valuationStatic _ => .valuationStatic
  | valuationOracle _ => .valuationOracle
  | valuationFresh _ _ => .valuationFresh
  | valuationBounded _ _ _ => .valuationBounded
  | invalidateBit _ => .invalidateBit
  | fillCap leg _ => .fillCap leg
  | extruction _ _ => .extruction

/-- Where a jump aims. -/
def target? : Operation target entries payload → Option target
  | jump destination => some destination
  | jumpIfAsset _ _ destination => some destination
  | _ => none

/-- Whether a jump depends on the query. -/
def isConditional : Operation target entries payload → Bool
  | jumpIfAsset _ _ _ => true
  | _ => false

/-- Fills the open places anew, with the effects of `m` in argument order. -/
def traverse {m : Type → Type} [Monad m] {target' entries' payload' : Type}
    (onTarget : target → m target') (onEntries : entries → m entries')
    (onPayload : payload → m payload') :
    Operation target entries payload → m (Operation target' entries' payload')
  | jump destination => do return jump (← onTarget destination)
  | jumpIfAsset leg asset destination => do return jumpIfAsset leg asset (← onTarget destination)
  | deadline last => return deadline last
  | takerBalance asset least => return takerBalance asset least
  | takerShare asset least => return takerShare asset least
  | salt bytes => do return salt (← onPayload bytes)
  | staticBalances balances => do return staticBalances (← onEntries balances)
  | dynamicBalances balances => do return dynamicBalances (← onEntries balances)
  | externalBalances => return externalBalances
  | solve => return solve
  | growLiquidity deltas => do return growLiquidity (← onEntries deltas)
  | growPriceRange lower higher => return growPriceRange lower higher
  | decay period => return decay period
  | auction leg terms => return auction leg terms
  | twap terms => return twap terms
  | flatFee leg rate => return flatFee leg rate
  | progressiveFee leg terms => return progressiveFee leg terms
  | protocolFee leg rate recipient => return protocolFee leg rate recipient
  | minRateAdjust bound => return minRateAdjust bound
  | minRateRequire bound => return minRateRequire bound
  | baseFeeAdjust terms => return baseFeeAdjust terms
  | valuationStatic valuation => return valuationStatic valuation
  | valuationOracle oracle => return valuationOracle oracle
  | valuationFresh oracle maxAge => return valuationFresh oracle maxAge
  | valuationBounded oracle maxAge maxDelta => return valuationBounded oracle maxAge maxDelta
  | invalidateBit bit => return invalidateBit bit
  | fillCap leg cap => return fillCap leg cap
  | extruction logic input => do return extruction logic (← onPayload input)

/-- The same operation with another kind of jump target. -/
def retarget {target' : Type} (onTarget : target → target')
    (op : Operation target entries payload) : Operation target' entries payload :=
  Id.run (op.traverse (fun t => pure (onTarget t)) pure pure)

theorem opcode_retarget {target' : Type} (onTarget : target → target')
    (op : Operation target entries payload) : (op.retarget onTarget).opcode = op.opcode := by
  cases op <;> rfl

end Operation
end SwapPricing
