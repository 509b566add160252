import SwapPricing.Instruction
import SwapPricing.Instruction.Cursor
import SwapPricing.Arithmetic.Width

/-!
# Argument encoding

Each opcode has one layout of argument bytes.  The layout is given twice: as
the bytes written for an instruction, and as the reader of these bytes, which
also checks the values.  A record whose values are out of range is refused even
if no run would reach it.
-/

namespace SwapPricing
namespace Operation

open LittleEndian (bytes)

/-!
# Writing
-/

/-- The bytes of assets with an amount each. -/
def entryBytes (entries : Entries) : List UInt8 :=
  entries.flatMap fun (asset, amount) => asset.bytes ++ bytes 8 amount.toNat

/-- The argument bytes of an instruction. -/
def arguments : Instruction → List UInt8
  | jump destination => bytes 2 destination.toNat
  | jumpIfAsset _ asset destination => asset.bytes ++ bytes 2 destination.toNat
  | deadline last => bytes 8 last.toNat
  | takerBalance asset least => asset.bytes ++ bytes 8 least.toNat
  | takerShare asset least => asset.bytes ++ bytes 8 least.toNat
  | salt given => given
  | staticBalances balances => entryBytes balances
  | dynamicBalances balances => entryBytes balances
  | externalBalances => []
  | solve => []
  | growLiquidity deltas => entryBytes deltas
  | growPriceRange lower higher => bytes 8 lower.toNat ++ bytes 8 higher.toNat
  | decay period => bytes 4 period.toNat
  | auction _ a => bytes 8 a.start.toNat ++ bytes 4 a.duration.toNat ++ bytes 8 a.decay.toNat
  | twap s =>
      bytes 8 s.start.toNat ++ bytes 4 s.duration.toNat ++ bytes 8 s.balanceIn.toNat ++
        bytes 8 s.balanceOut.toNat ++ bytes 8 s.decay.toNat ++ bytes 4 s.illiquidityPeriod.toNat ++
        bytes 8 s.priceBump.toNat ++ bytes 8 s.minTradeOut.toNat
  | flatFee _ rate => bytes 2 rate.toNat
  | progressiveFee _ p => bytes 2 p.base.toNat ++ bytes 2 p.slope.toNat ++ bytes 2 p.cap.toNat
  | protocolFee _ rate recipient => bytes 2 rate.toNat ++ recipient.bytes
  | minRateAdjust b => bytes 8 b.lower.toNat ++ bytes 8 b.higher.toNat
  | minRateRequire b => bytes 8 b.lower.toNat ++ bytes 8 b.higher.toNat
  | baseFeeAdjust g =>
      bytes 8 g.baseFee.toNat ++ bytes 8 g.gasAmount.toNat ++ bytes 8 g.gasPrice.toNat ++
        bytes 2 g.cap.toNat
  | valuationStatic valuation => bytes 8 valuation.toNat
  | valuationOracle oracle => oracle.bytes
  | valuationFresh oracle maxAge => oracle.bytes ++ bytes 4 maxAge.toNat
  | valuationBounded oracle maxAge maxDelta =>
      oracle.bytes ++ bytes 4 maxAge.toNat ++ bytes 2 maxDelta.toNat
  | invalidateBit bit => bytes 4 bit.toNat
  | fillCap _ cap => bytes 8 cap.toNat
  | extruction logic input => logic.bytes ++ input

/-!
# Reading
-/

open Reader (uint16 uint32 uint64 identifier entries require)
open Arithmetic (wad bps)

/-- A rate in basis points, below one. -/
def readRate : Reader UInt16 := do
  let rate ← uint16
  require (rate.toNat < bps) .rateTooHigh
  return rate

def readAuction : Reader Auction := do
  let start ← uint64
  let duration ← uint32
  let decay ← uint64
  require (duration ≠ 0) .zeroDuration
  require (decay.toNat ≤ wad) .decayAboveOne
  return ⟨start, duration, decay⟩

def readSale : Reader Sale := do
  let start ← uint64
  let duration ← uint32
  let balanceIn ← uint64
  let balanceOut ← uint64
  let decay ← uint64
  let illiquidityPeriod ← uint32
  let priceBump ← uint64
  let minTradeOut ← uint64
  require (duration ≠ 0) .zeroDuration
  require (balanceOut ≠ 0) .nothingToSell
  require (decay.toNat ≤ wad) .decayAboveOne
  require (wad ≤ priceBump.toNat) .bumpBelowOne
  return ⟨start, duration, balanceIn, balanceOut, decay, illiquidityPeriod, priceBump, minTradeOut⟩

def readProgressiveFee : Reader ProgressiveFee := do
  let base ← uint16
  let slope ← uint16
  let cap ← uint16
  require (base.toNat < bps) .rateTooHigh
  require (cap.toNat < bps) .rateTooHigh
  return ⟨base, slope, cap⟩

def readRateBound : Reader RateBound := do
  let lower ← uint64
  let higher ← uint64
  require (lower ≠ 0 ∧ higher ≠ 0) .zeroRate
  return ⟨lower, higher⟩

def readGasAdjust : Reader GasAdjust := do
  let baseFee ← uint64
  let gasAmount ← uint64
  let gasPrice ← uint64
  let cap ← readRate
  return ⟨baseFee, gasAmount, gasPrice, cap⟩

/-- The arguments of an opcode, from the front of the bytes. -/
def read : Opcode → Reader Instruction
  | .jump => do return jump (← uint16)
  | .jumpIfAsset leg => do return jumpIfAsset leg (← identifier) (← uint16)
  | .deadline => do return deadline (← uint64)
  | .takerBalance => do return takerBalance (← identifier) (← uint64)
  | .takerShare => do
      let asset ← identifier
      let least ← uint64
      require (least.toNat ≤ wad) .shareAboveOne
      return takerShare asset least
  | .salt => do return salt (← Reader.rest)
  | .staticBalances => do return staticBalances (← entries)
  | .dynamicBalances => do return dynamicBalances (← entries)
  | .externalBalances => return externalBalances
  | .solve => return solve
  | .growLiquidity => do return growLiquidity (← entries)
  | .growPriceRange => do return growPriceRange (← uint64) (← uint64)
  | .decay => do
      let period ← uint32
      require (period ≠ 0) .zeroPeriod
      return decay period
  | .auction leg => do return auction leg (← readAuction)
  | .twap => do return twap (← readSale)
  | .flatFee leg => do return flatFee leg (← readRate)
  | .progressiveFee leg => do return progressiveFee leg (← readProgressiveFee)
  | .protocolFee leg => do return protocolFee leg (← readRate) (← identifier)
  | .minRateAdjust => do return minRateAdjust (← readRateBound)
  | .minRateRequire => do return minRateRequire (← readRateBound)
  | .baseFeeAdjust => do return baseFeeAdjust (← readGasAdjust)
  | .valuationStatic => do
      let valuation ← uint64
      require (valuation ≠ 0 ∧ valuation.toNat < wad) .valuationOutside
      return valuationStatic valuation
  | .valuationOracle => do return valuationOracle (← identifier)
  | .valuationFresh => do return valuationFresh (← identifier) (← uint32)
  | .valuationBounded => do return valuationBounded (← identifier) (← uint32) (← readRate)
  | .invalidateBit => do return invalidateBit (← uint32)
  | .fillCap leg => do return fillCap leg (← uint64)
  | .extruction => do return extruction (← identifier) (← Reader.rest)

/-- The instruction that the record at `offset` holds. -/
def decode (op : Opcode) (offset : Nat) (given : List UInt8) : Except DecodeError Instruction := do
  let (instruction, cursor) ← read op (Cursor.atStart op offset given)
  let _ ← Reader.finish cursor
  return instruction

end Operation
end SwapPricing
