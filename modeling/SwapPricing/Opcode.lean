import SwapPricing.Trade

/-!
# Opcodes and instruction sets

An opcode is a kind of instruction.  A deployment wires a list of opcodes, and
the code byte of each is its position in that list, so two deployments may
give one opcode different codes.
-/

namespace SwapPricing

/-- The kinds of instructions. -/
inductive Opcode where
  | jump
  | jumpIfAsset (leg : Leg)
  | deadline
  | takerBalance
  | takerShare
  | salt
  | staticBalances
  | dynamicBalances
  | externalBalances
  | solve
  | growLiquidity
  | growPriceRange
  | decay
  | auction (leg : Leg)
  | twap
  | flatFee (leg : Leg)
  | progressiveFee (leg : Leg)
  | protocolFee (leg : Leg)
  | minRateAdjust
  | minRateRequire
  | baseFeeAdjust
  | valuationStatic
  | valuationOracle
  | valuationFresh
  | valuationBounded
  | invalidateBit
  | fillCap (leg : Leg)
  | extruction
  deriving DecidableEq, Repr

namespace Opcode

/-- Every opcode, in the order of the full instruction set. -/
def all : List Opcode :=
  [jump, jumpIfAsset .input, jumpIfAsset .output, deadline, takerBalance, takerShare, salt,
    staticBalances, dynamicBalances, externalBalances, solve, growLiquidity, growPriceRange,
    decay, auction .input, auction .output, twap, flatFee .input, flatFee .output,
    progressiveFee .input, progressiveFee .output, protocolFee .input, protocolFee .output,
    minRateAdjust, minRateRequire, baseFeeAdjust, valuationStatic, valuationOracle,
    valuationFresh, valuationBounded, invalidateBit, fillCap .input, fillCap .output, extruction]

theorem mem_all (op : Opcode) : op ∈ all := by
  cases op <;> first | decide | (rename_i leg; cases leg <;> decide)

/-- The assembly mnemonic. -/
def mnemonic : Opcode → String
  | jump => "jump"
  | jumpIfAsset leg => "jump_if_asset_" ++ leg.name
  | deadline => "deadline"
  | takerBalance => "only_taker_balance_gte"
  | takerShare => "only_taker_supply_share_gte"
  | salt => "salt"
  | staticBalances => "static_balances"
  | dynamicBalances => "dynamic_balances"
  | externalBalances => "external_balances"
  | solve => "xyc_swap"
  | growLiquidity => "concentrate_grow_liquidity"
  | growPriceRange => "concentrate_grow_price_range"
  | decay => "decay"
  | auction leg => "dutch_auction_balance_" ++ leg.name
  | twap => "twap"
  | flatFee leg => "flat_fee_" ++ leg.name
  | progressiveFee leg => "progressive_fee_" ++ leg.name
  | protocolFee leg => "protocol_fee_" ++ leg.name
  | minRateAdjust => "min_rate_adjust"
  | minRateRequire => "min_rate_require"
  | baseFeeAdjust => "base_fee_adjust"
  | valuationStatic => "valuation_static"
  | valuationOracle => "valuation_oracle"
  | valuationFresh => "valuation_oracle_fresh"
  | valuationBounded => "valuation_bounded"
  | invalidateBit => "invalidate_bit"
  | fillCap leg => "invalidate_asset_" ++ leg.name
  | extruction => "extruction"

/-- The opcode in diagnostic output: the words of its mnemonic, capitalised and
run together. -/
def label (op : Opcode) : String :=
  String.join ((op.mnemonic.splitOn "_").map String.capitalize)

def ofMnemonic? (name : String) : Option Opcode :=
  all.find? fun op => op.mnemonic == name

/-- Whether the instruction reads or writes state that outlives the run, or
calls external logic. -/
def isStateful : Opcode → Bool
  | dynamicBalances | decay | twap | invalidateBit | fillCap _ | extruction => true
  | _ => false

/-- Whether the instruction may continue somewhere else. -/
def isJump : Opcode → Bool
  | jump | jumpIfAsset _ => true
  | _ => false

end Opcode

/-!
# Instruction sets
-/

/-- The opcodes of a deployment, each with its position as its code. -/
structure InstructionSet where
  name : String
  opcodes : List Opcode
  nodup : opcodes.Nodup

namespace InstructionSet

/-- Adds an opcode behind the ones already wired, unless it is one of them. -/
def wire (wired : List Opcode) (op : Opcode) : List Opcode :=
  if op ∈ wired then wired else wired ++ [op]

theorem nodup_wire {wired : List Opcode} (h : wired.Nodup) (op : Opcode) :
    (wire wired op).Nodup := by
  unfold wire
  split
  · exact h
  · rename_i hop
    rw [List.nodup_append]
    refine ⟨h, List.nodup_cons.mpr ⟨List.not_mem_nil, List.nodup_nil⟩, ?_⟩
    intro a ha b hb heq
    rw [List.mem_singleton] at hb
    exact hop (hb ▸ heq ▸ ha)

theorem nodup_foldl_wire (ops wired : List Opcode) (h : wired.Nodup) :
    (ops.foldl wire wired).Nodup := by
  induction ops generalizing wired with
  | nil => exact h
  | cons op rest ih => exact ih (wire wired op) (nodup_wire h op)

/-- The set that wires a list of opcodes.  Of equal opcodes the first counts;
since there are 34 opcodes, every code fits a byte. -/
def ofList (name : String) (ops : List Opcode) : InstructionSet where
  name := name
  opcodes := ops.foldl wire []
  nodup := nodup_foldl_wire ops [] List.nodup_nil

/-- The full instruction set. -/
def full : InstructionSet :=
  ofList "v1" Opcode.all

/-- The instructions that touch neither lasting state nor external logic. -/
def stateless : InstructionSet :=
  ofList "stateless" (Opcode.all.filter fun op => !op.isStateful)

def size (set : InstructionSet) : Nat :=
  set.opcodes.length

/-- The opcode wired at a code. -/
def opcode? (set : InstructionSet) (code : UInt8) : Option Opcode :=
  set.opcodes[code.toNat]?

def contains (set : InstructionSet) (op : Opcode) : Bool :=
  op ∈ set.opcodes

/-- The code of an opcode, if it is wired. -/
def code? (set : InstructionSet) (op : Opcode) : Option UInt8 :=
  if op ∈ set.opcodes then some (UInt8.ofNat (set.opcodes.idxOf op)) else none

end InstructionSet
end SwapPricing
