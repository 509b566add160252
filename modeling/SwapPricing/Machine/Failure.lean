import SwapPricing.Environment
import SwapPricing.Arithmetic.Width
import SwapPricing.Instruction.Cursor

/-!
# Failures of a run

Every failure ends the whole run, and a run that failed leaves nothing behind.
-/

namespace SwapPricing

/-- A condition that an instruction demands and that does not hold. -/
inductive GuardFailure where
  | deadlinePassed (deadline now : UInt64)
  | takerBalanceTooLow (balance least : UInt64)
  | takerShareTooLow (share least : UInt64)
  | assetNotPriced
  | auctionExpired (expiry now : UInt64)
  | saleNotStarted (start now : UInt64)
  | nothingUnlocked
  | tradeTooSmall (amountOut least : UInt64)
  | rateExceeded (amountIn amountOut rateIn rateOut : UInt64)
  | oracleUnavailable (oracle : Address)
  | staleOracle (age maxAge : UInt64)
  | invalidValuation (valuation : UInt64)
  | orderInvalidated (bit : UInt32)
  | fillCapExceeded (filled amount cap : UInt64)
  deriving DecidableEq

def GuardFailure.message : GuardFailure → String
  | deadlinePassed deadline now => s!"deadline {deadline} passed (now {now})"
  | takerBalanceTooLow balance least => s!"taker balance {balance} below required {least}"
  | takerShareTooLow share least => s!"taker supply share {share} below required {least} (WAD)"
  | assetNotPriced => "asset is not priced by this program"
  | auctionExpired expiry now => s!"auction expired at {expiry} (now {now})"
  | saleNotStarted start now => s!"twap starts at {start} (now {now})"
  | nothingUnlocked => "no unlocked twap liquidity"
  | tradeTooSmall amountOut least => s!"trade output {amountOut} below minimum {least}"
  | rateExceeded amountIn amountOut rateIn rateOut =>
      s!"rate {amountOut}/{amountIn} exceeds cap {rateOut}/{rateIn}"
  | oracleUnavailable oracle => s!"oracle {oracle.text} unavailable"
  | staleOracle age maxAge => s!"oracle reading is {age}s old, max {maxAge}s"
  | invalidValuation valuation => s!"valuation {valuation} outside (0, 1e18)"
  | orderInvalidated bit => s!"order invalidated (bit {bit})"
  | fillCapExceeded filled amount cap => s!"fill cap exceeded: {filled} + {amount} > {cap}"

/-- An instruction on the wrong side of the one that solves the amount. -/
inductive OrderFault where
  | alreadySolved (op : Opcode)
  | notSolved (op : Opcode)
  | amountNotSolved
  deriving DecidableEq

def OrderFault.message : OrderFault → String
  | alreadySolved op => op.mnemonic ++ " must run before the swap amount is solved"
  | notSolved op => op.mnemonic ++ " requires a solved swap amount"
  | amountNotSolved => "program finished without solving the swap amount"

/-- Why a query is no trade. -/
inductive QueryFault where
  | sameAsset
  | zeroAmount
  deriving DecidableEq

def QueryFault.message : QueryFault → String
  | sameAsset => "asset_in equals asset_out"
  | zeroAmount => "amount is zero"

/-- Refuses a trade of an asset for itself and a trade of nothing. -/
def Query.validate (q : Query) : Except QueryFault Unit :=
  if q.assetIn = q.assetOut then .error .sameAsset
  else if q.amount = 0 then .error .zeroAmount
  else .ok ()

/-- Why a run ends without an outcome. -/
inductive RunError where
  | malformed (reason : DecodeError)
  | arithmetic (op : Opcode) (reason : MathError)
  | guard (op : Opcode) (failure : GuardFailure)
  | ordering (fault : OrderFault)
  | invalidQuery (fault : QueryFault)
  | modeMismatch (requested entry : ExecutionMode)
  | stepLimitExceeded (limit : UInt32)
  | external (reason : ExternalError)
  /-- The 32-bit count of steps has no successor. -/
  | countExhausted
  deriving DecidableEq

namespace RunError

def message : RunError → String
  | malformed reason => "malformed program: " ++ reason.message
  | arithmetic op reason => s!"arithmetic fault in {op.mnemonic}: {reason.message}"
  | guard op failure => s!"guard failed in {op.mnemonic}: {failure.message}"
  | ordering fault => "ordering fault: " ++ fault.message
  | invalidQuery fault => "invalid query: " ++ fault.message
  | modeMismatch requested entry =>
      s!"query mode {requested.label} does not match entry point {entry.label}"
  | stepLimitExceeded limit => s!"step limit of {limit} exceeded"
  | external reason => reason.message
  | countExhausted => "step count exhausted"

/-- The message of the failure behind a failure that only wraps it. -/
def cause? : RunError → Option String
  | malformed reason => some reason.message
  | ordering fault => some fault.message
  | _ => none

def isGuard : RunError → Bool
  | guard _ _ => true
  | _ => false

end RunError
end SwapPricing
