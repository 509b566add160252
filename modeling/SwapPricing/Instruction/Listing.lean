import SwapPricing.Instruction
import SwapPricing.Text.Hex

/-!
# Assembly text

An instruction is listed as words with one space between them: its mnemonic
and its arguments.  No word but the last may be empty.
-/

namespace SwapPricing
namespace Operation

/-- A byte offset as an address. -/
def address (offset : Nat) : String :=
  "0x" ++ Text.Hex.number 4 offset

def rateText (rate : UInt16) : String :=
  s!"{rate}bps"

def entryWords (entries : Entries) : List String :=
  entries.map fun (asset, amount) => s!"{asset.text}={amount}"

/-- The words of the arguments. -/
def argumentWords : Instruction → List String
  | jump destination => [address destination.toNat]
  | jumpIfAsset _ asset destination => [asset.text, address destination.toNat]
  | deadline last => [toString last]
  | takerBalance asset least => [asset.text, toString least]
  | takerShare asset least => [asset.text, toString least]
  | salt bytes => [Text.Hex.encode bytes]
  | staticBalances balances => entryWords balances
  | dynamicBalances balances => entryWords balances
  | externalBalances => []
  | solve => []
  | growLiquidity deltas => entryWords deltas
  | growPriceRange lower higher => [s!"lt={lower}", s!"gt={higher}"]
  | decay period => [s!"period={period}"]
  | auction _ a => [s!"start={a.start}", s!"duration={a.duration}", s!"decay={a.decay}"]
  | twap s =>
      [s!"start={s.start}", s!"duration={s.duration}", s!"in={s.balanceIn}",
        s!"out={s.balanceOut}", s!"decay={s.decay}", s!"illiquidity={s.illiquidityPeriod}",
        s!"bump={s.priceBump}", s!"min_out={s.minTradeOut}"]
  | flatFee _ rate => [rateText rate]
  | progressiveFee _ p =>
      [s!"base={rateText p.base}", s!"slope={rateText p.slope}", s!"max={rateText p.cap}"]
  | protocolFee _ rate recipient => [rateText rate, "->", recipient.text]
  | minRateAdjust b => [s!"{b.lower}:{b.higher}"]
  | minRateRequire b => [s!"{b.lower}:{b.higher}"]
  | baseFeeAdjust g =>
      [s!"base={g.baseFee}", s!"gas={g.gasAmount}", s!"price={g.gasPrice}",
        s!"max={rateText g.cap}"]
  | valuationStatic valuation => [toString valuation]
  | valuationOracle oracle => [oracle.text]
  | valuationFresh oracle maxAge => [oracle.text, s!"max_age={maxAge}"]
  | valuationBounded oracle maxAge maxDelta =>
      [oracle.text, s!"max_age={maxAge}", s!"max_delta={rateText maxDelta}"]
  | invalidateBit bit => [toString bit]
  | fillCap _ cap => [s!"max={cap}"]
  | extruction logic input =>
      if input = [] then [logic.text] else [logic.text, Text.Hex.encode input]

/-- The assembly text of an instruction. -/
def text (i : Instruction) : String :=
  " ".intercalate (i.opcode.mnemonic :: i.argumentWords)

end Operation
end SwapPricing
