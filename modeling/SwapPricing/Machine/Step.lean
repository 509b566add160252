import SwapPricing.Machine.Fees
import SwapPricing.Machine.Guards
import SwapPricing.Machine.Pricing
import SwapPricing.Machine.Reserves

/-!
# Steps

A step runs one record; a settlement is the part of an instruction that was
left until the end.
-/

namespace SwapPricing
namespace Machine

/-- Continues at `destination` if `asset` is traded on `leg`. -/
def jumpIfAsset (setup : Setup) (leg : Leg) (asset : AssetId) (destination : UInt16) (s : State) :
    Run State :=
  if setup.query.asset leg = asset then s.jump setup.program destination else .ok s

/-- Runs the instruction of the record at `offset`.  The state already points
behind that record. -/
def execute (setup : Setup) (offset : Nat) : Instruction → State → Run State
  | .jump destination, s => s.jump setup.program destination
  | .jumpIfAsset leg asset destination, s => jumpIfAsset setup leg asset destination s
  | .deadline last, s => deadline setup last s
  | .takerBalance asset least, s => takerBalance setup asset least s
  | .takerShare asset least, s => takerShare setup asset least s
  | .salt _, s => .ok s
  | .staticBalances balances, s => staticBalances setup balances s
  | .dynamicBalances balances, s => dynamicBalances setup balances s
  | .externalBalances, s => externalBalances setup s
  | .solve, s => solve setup s
  | .growLiquidity deltas, s => growLiquidity setup deltas s
  | .growPriceRange lower higher, s => growPriceRange setup lower higher s
  | .decay period, s => decay setup period s
  | .auction leg terms, s => auction setup leg terms s
  | .twap terms, s => sale setup (UInt64.ofNat offset) terms s
  | .flatFee leg rate, s => flatFee setup leg rate s
  | .progressiveFee leg terms, s => progressiveFee setup leg terms s
  | .protocolFee leg rate recipient, s => protocolFee setup leg rate recipient s
  | .minRateAdjust bound, s => minRateAdjust setup bound s
  | .minRateRequire bound, s => minRateRequire setup bound s
  | .baseFeeAdjust terms, s => baseFeeAdjust setup terms s
  | .valuationStatic valuation, s => valuationStatic setup valuation s
  | .valuationOracle oracle, s => valuationOracle setup .valuationOracle oracle none none s
  | .valuationFresh oracle maxAge, s =>
      valuationOracle setup .valuationFresh oracle (some maxAge) none s
  | .valuationBounded oracle maxAge maxDelta, s =>
      valuationOracle setup .valuationBounded oracle (some maxAge) (some maxDelta) s
  | .invalidateBit bit, s => invalidateBit setup bit s
  | .fillCap leg cap, s => .ok (s.defer (.fillCap leg cap))
  | .extruction logic input, s => extruction setup logic input s

/-- The state in which a record is run: it counts as run, the record behind it
is next, and fees that waited for it are applied. -/
def enter (setup : Setup) (r : Record) (s : State) : Run State :=
  releaseBefore setup r.opcode { s with next := s.next + 1, steps := s.steps + 1 }

/-- Runs one record. -/
def step (setup : Setup) (r : Record) (s : State) : Run State := do
  execute setup r.offset r.instruction (← enter setup r s)

/-- Settles what an instruction left until the end. -/
def settle (setup : Setup) : Settlement → State → Run State
  | .balances balanceIn balanceOut, s => settleBalances setup balanceIn balanceOut s
  | .decay period, s => settleDecay setup period s
  | .sale offset terms prior, s => settleSale setup offset terms prior s
  | .fee op leg rate carried recipient, s => settleFee setup op leg rate carried recipient s
  | .fillCap leg cap, s => settleFillCap setup leg cap s

end Machine
end SwapPricing
