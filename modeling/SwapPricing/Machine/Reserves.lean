import SwapPricing.Arithmetic.Pool
import SwapPricing.Machine.State

/-!
# Reserves

These instructions set or change the two balances that the trade is priced
against, so all of them stand before the amount is solved.  Stored balances,
decaying offsets and sales come back after the trade to record it.
-/

namespace SwapPricing
namespace Machine

open Arithmetic (gain drain mulDivFloor mulDivCeil wadPower wadWord)

/-!
# Listed, stored and external balances
-/

/-- The first amount listed for an asset. -/
def listed? (entries : Entries) (asset : AssetId) : Option UInt64 :=
  (entries.find? fun entry => entry.1 = asset).map Prod.snd

def staticBalances (setup : Setup) (balances : Entries) (s : State) : Run State := do
  s.requireUnsolved .staticBalances
  let price leg := demand .staticBalances .assetNotPriced
    (listed? balances (setup.query.asset leg))
  let balanceIn ← price .input
  let balanceOut ← price .output
  return s.setBalances balanceIn balanceOut

/-- Stored balances count before listed ones. -/
def dynamicBalances (setup : Setup) (balances : Entries) (s : State) : Run State := do
  s.requireUnsolved .dynamicBalances
  let price leg := demand .dynamicBalances .assetNotPriced
    ((s.journal.balance? setup.program.id (setup.query.asset leg)).or
      (listed? balances (setup.query.asset leg)))
  let balanceIn ← price .input
  let balanceOut ← price .output
  return (s.setBalances balanceIn balanceOut).defer (.balances balanceIn balanceOut)

/-- Stores the balances as the trade leaves them. -/
def settleBalances (setup : Setup) (balanceIn balanceOut : UInt64) (s : State) : Run State := do
  let newIn ← calculate .dynamicBalances (gain balanceIn s.registers.amountIn)
  let newOut ← calculate .dynamicBalances (drain balanceOut s.registers.amountOut)
  let program := setup.program.id
  return s.write setup.query.mode fun j =>
    (j.setBalance program setup.query.assetIn newIn).setBalance program setup.query.assetOut newOut

def externalBalances (setup : Setup) (s : State) : Run State := do
  s.requireUnsolved .externalBalances
  let price leg := demand .externalBalances .assetNotPriced
    (setup.environment.reserve? setup.program.id (setup.query.asset leg))
  let balanceIn ← price .input
  let balanceOut ← price .output
  return s.setBalances balanceIn balanceOut

/-!
# Virtual liquidity
-/

/-- Adds virtual liquidity to both balances. -/
def grow (op : Opcode) (deltaIn deltaOut : UInt64) (s : State) : Run State := do
  s.requireUnsolved op
  let balanceIn ← calculate op (gain s.registers.balanceIn deltaIn)
  let balanceOut ← calculate op (gain s.registers.balanceOut deltaOut)
  return s.setBalances balanceIn balanceOut

/-- Assets that are not listed do not grow. -/
def growLiquidity (setup : Setup) (deltas : Entries) (s : State) : Run State :=
  let delta leg := (listed? deltas (setup.query.asset leg)).getD 0
  grow .growLiquidity (delta .input) (delta .output) s

def growPriceRange (setup : Setup) (lower higher : UInt64) (s : State) : Run State :=
  let (deltaIn, deltaOut) := setup.query.orient lower higher
  grow .growPriceRange deltaIn deltaOut s

/-!
# Decaying offsets

A trade leaves the maker with more of the input and less of the output.  Both
changes are remembered as offsets that fade: what was received stays locked,
and what was sold is priced as if it were still there.
-/

/-- What is left of the offset of a side. -/
def offsetNow (setup : Setup) (period : UInt32) (side : Side) (s : State) : Run UInt64 :=
  match s.journal.offset? setup.program.id side with
  | some offset => calculate .decay (offset.current setup.environment.now period)
  | none => .ok 0

def decay (setup : Setup) (period : UInt32) (s : State) : Run State := do
  s.requireUnsolved .decay
  let restored ← offsetNow setup period ⟨setup.query.assetIn, .input⟩ s
  let locked ← offsetNow setup period ⟨setup.query.assetOut, .output⟩ s
  let balanceIn ← calculate .decay (gain s.registers.balanceIn restored)
  let balanceOut ← calculate .decay (drain s.registers.balanceOut locked)
  return (s.setBalances balanceIn balanceOut).defer (.decay period)

/-- Adds the trade to the offsets of the opposite trade. -/
def settleDecay (setup : Setup) (period : UInt32) (s : State) : Run State := do
  let sideIn : Side := ⟨setup.query.assetIn, .output⟩
  let sideOut : Side := ⟨setup.query.assetOut, .input⟩
  let raised side amount := do
    calculate .decay (gain (← offsetNow setup period side s) amount)
  let locked ← raised sideIn s.registers.amountIn
  let restored ← raised sideOut s.registers.amountOut
  let program := setup.program.id
  let now := setup.environment.now
  return s.write setup.query.mode fun j =>
    (j.setOffset program sideIn ⟨locked, now⟩).setOffset program sideOut ⟨restored, now⟩

/-!
# Auctions
-/

/-- The factor that an auction has faded by; it fails once the auction is
over. -/
def auctionFactor (setup : Setup) (op : Opcode) (terms : Auction) : Run UInt64 := do
  let now := setup.environment.now
  let expiry := UInt64.ofNat (min (terms.start.toNat + terms.duration.toNat) Arithmetic.maxAmount)
  check op (.auctionExpired expiry now) (now ≤ expiry)
  let elapsed := UInt64.ofNat (now.toNat - terms.start.toNat)
  calculate op (wadPower terms.decay elapsed)

/-- Fades the balance of the input, or grows the balance of the output, so the
price moves in the taker's favour. -/
def auction (setup : Setup) (leg : Leg) (terms : Auction) (s : State) : Run State := do
  let op := Opcode.auction leg
  s.requireUnsolved op
  let factor ← auctionFactor setup op terms
  match leg with
  | .input =>
      let balanceIn ← calculate op (mulDivCeil s.registers.balanceIn factor wadWord)
      return s.setBalances balanceIn s.registers.balanceOut
  | .output =>
      let balanceOut ← calculate op (mulDivFloor s.registers.balanceOut wadWord factor)
      return s.setBalances s.registers.balanceIn balanceOut

/-!
# Sales
-/

/-- The output unlocked after `elapsed` seconds. -/
def unlocked (terms : Sale) (elapsed : Nat) : Except MathError UInt64 := do
  let product ← Arithmetic.exact (terms.balanceOut.toNat * min elapsed terms.duration.toNat)
  Arithmetic.word .fault (← Arithmetic.quotient product terms.duration.toNat)

/-- The input asked for `available` output. -/
def askedFor (terms : Sale) (prior : SaleState) (available now : UInt64) :
    Except MathError UInt64 := do
  let share ← mulDivCeil terms.balanceIn available terms.balanceOut
  let raised ← if prior.bumped then mulDivCeil share terms.priceBump wadWord else .ok share
  let gap := UInt64.ofNat (now.toNat - (prior.lastFill.getD terms.start).toNat)
  let faded ← mulDivCeil raised (← wadPower terms.decay gap) wadWord
  if faded = 0 then .error .insufficientLiquidity else .ok faded

/-- Offers the output that is unlocked and not yet sold. -/
def sale (setup : Setup) (offset : UInt64) (terms : Sale) (s : State) : Run State := do
  s.requireUnsolved .twap
  let now := setup.environment.now
  check .twap (.saleNotStarted terms.start now) (terms.start ≤ now)
  let prior := (s.journal.sale? setup.program.id offset).getD .initial
  let elapsed ← calculate .twap (Arithmetic.difference now terms.start)
  let released ← calculate .twap (unlocked terms elapsed.toNat)
  let available := UInt64.ofNat (released.toNat - prior.sold.toNat)
  check .twap .nothingUnlocked (available ≠ 0)
  let balanceIn ← calculate .twap (askedFor terms prior available now)
  return (s.setBalances balanceIn available).defer (.sale offset terms prior)

/-- Refuses a small trade and records the progress of the sale. -/
def settleSale (setup : Setup) (offset : UInt64) (terms : Sale) (prior : SaleState) (s : State) :
    Run State := do
  let amountOut := s.registers.amountOut
  check .twap (.tradeTooSmall amountOut terms.minTradeOut) (terms.minTradeOut ≤ amountOut)
  let now := setup.environment.now
  let gap := now.toNat - (prior.lastFill.getD terms.start).toNat
  let sold ← calculate .twap (gain prior.sold amountOut)
  let progress : SaleState := ⟨sold, some now, terms.illiquidityPeriod.toNat ≤ gap⟩
  return s.write setup.query.mode fun j => j.setSale setup.program.id offset progress

/-!
# Valuations
-/

/-- Moves the balances to a valuation of the lower asset, no further than
`maxDelta` basis points where that is given. -/
def revalue (setup : Setup) (op : Opcode) (valuation : UInt64) (maxDelta : Option UInt16)
    (s : State) : Run State := do
  check op (.invalidValuation valuation) (valuation ≠ 0 ∧ valuation < wadWord)
  let complement ← calculate op (Arithmetic.difference wadWord valuation)
  let (v, _) := setup.query.orient valuation complement
  let r := s.registers
  let (fairIn, fairOut) ← calculate op (Arithmetic.rebalance r.balanceIn r.balanceOut v)
  match maxDelta with
  | none => return s.setBalances fairIn fairOut
  | some delta =>
      let clamp old fair := calculate op (Arithmetic.clampDelta old fair delta.toUInt64)
      return s.setBalances (← clamp r.balanceIn fairIn) (← clamp r.balanceOut fairOut)

def valuationStatic (setup : Setup) (valuation : UInt64) (s : State) : Run State := do
  s.requireUnsolved .valuationStatic
  revalue setup .valuationStatic valuation none s

/-- Moves the balances to the valuation of an oracle, whose reading must not be
older than `maxAge` where that is given. -/
def valuationOracle (setup : Setup) (op : Opcode) (oracle : Address) (maxAge : Option UInt32)
    (maxDelta : Option UInt16) (s : State) : Run State := do
  s.requireUnsolved op
  let reading ← demand op (.oracleUnavailable oracle) (setup.environment.oracle? oracle)
  let age := UInt64.ofNat (setup.environment.now.toNat - reading.updatedAt.toNat)
  match maxAge with
  | none => revalue setup op reading.value maxDelta s
  | some limit => do
      check op (.staleOracle age limit.toUInt64) (age ≤ limit.toUInt64)
      revalue setup op reading.value maxDelta s

end Machine
end SwapPricing
