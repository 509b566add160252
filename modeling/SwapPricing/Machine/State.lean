import SwapPricing.Machine.Failure
import SwapPricing.Order.Journal
import SwapPricing.Program

/-!
# Machine states

A run steps through the records of a program over four registers.  Work that
needs the final amounts is put on a stack of settlements, which is unwound when
the program has ended.
-/

namespace SwapPricing
namespace Machine

/-- What stays the same during a run. -/
structure Setup where
  program : Program
  query : Query
  environment : Environment
  /-- The external logic that serves the run. -/
  external : ExternalLogic

/-- A fee owed to a third party. -/
structure ProtocolFee where
  recipient : Address
  asset : AssetId
  amount : UInt64
  deriving DecidableEq

/-- A protocol fee on the input that waits for the maker's input fees. -/
structure PendingFee where
  rate : UInt16
  recipient : Address
  deriving DecidableEq

/-- Work that an instruction leaves until the final amounts are known. -/
inductive Settlement where
  /-- Store the balances after the trade. -/
  | balances (balanceIn balanceOut : UInt64)
  /-- Record the trade as new offsets. -/
  | decay (period : UInt32)
  /-- Check the size of the trade and record the progress of the sale. -/
  | sale (offset : UInt64) (terms : Sale) (prior : SaleState)
  /-- Settle a fee.  `carried` is what was taken up front: the fee on a fixed
  input, or the requested amount of a fixed output. -/
  | fee (op : Opcode) (leg : Leg) (rate : UInt64) (carried : Option UInt64)
      (recipient : Option Address)
  /-- Check and record the amount filled so far. -/
  | fillCap (leg : Leg) (cap : UInt64)
  deriving DecidableEq

/-- The changing part of a run. -/
structure State where
  registers : Registers
  /-- Whether the unknown amount has been computed. -/
  solved : Bool
  journal : Order.Journal
  /-- Input protocol fees not yet applied, in program order. -/
  pending : List PendingFee
  protocolFees : List ProtocolFee
  /-- The settlement deferred last comes first. -/
  settlements : List Settlement
  /-- The external calls made so far, in order. -/
  calls : List ExternalCall
  /-- The index of the record to run next. -/
  next : Nat
  /-- The number of records run so far. -/
  steps : Nat

/-- The state a run over `store` starts from. -/
def State.initial (query : Query) (store : Order.Store) : State where
  registers := Registers.seeded query
  solved := false
  journal := Order.Journal.opened store
  pending := []
  protocolFees := []
  settlements := []
  calls := []
  next := 0
  steps := 0

/-- A part of a run, which may fail. -/
abbrev Run := Except RunError

/-- A calculation on behalf of an instruction. -/
def calculate {α : Type} (op : Opcode) (x : Except MathError α) : Run α :=
  x.mapError (RunError.arithmetic op)

/-- The value that a guard demands. -/
def demand {α : Type} (op : Opcode) (failure : GuardFailure) : Option α → Run α
  | some a => .ok a
  | none => .error (.guard op failure)

/-- Fails unless the guard `p` holds. -/
def check (op : Opcode) (failure : GuardFailure) (p : Prop) [Decidable p] : Run Unit :=
  if p then .ok () else .error (.guard op failure)

namespace State

def requireUnsolved (s : State) (op : Opcode) : Run Unit :=
  if s.solved then .error (.ordering (.alreadySolved op)) else .ok ()

def requireSolved (s : State) (op : Opcode) : Run Unit :=
  if s.solved then .ok () else .error (.ordering (.notSolved op))

def setBalances (s : State) (balanceIn balanceOut : UInt64) : State :=
  { s with registers := s.registers.setBalances balanceIn balanceOut }

def setAmount (s : State) (leg : Leg) (amount : UInt64) : State :=
  { s with registers := s.registers.setAmount leg amount }

/-- Leaves work until the program has ended. -/
def defer (s : State) (work : Settlement) : State :=
  { s with settlements := work :: s.settlements }

/-- Writes to the order state, if the run is to leave effects behind. -/
def write (s : State) (mode : ExecutionMode) (change : Order.Journal → Order.Journal) : State :=
  match mode with
  | .simulate => s
  | .commit => { s with journal := change s.journal }

/-- Goes on at a byte offset of the program. -/
def jump (s : State) (program : Program) (offset : UInt16) : Run State :=
  match program.indexOf offset.toNat with
  | .ok index => .ok { s with next := index }
  | .error reason => .error (.malformed reason)

end State
end Machine
end SwapPricing
