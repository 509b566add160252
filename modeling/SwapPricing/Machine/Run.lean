import SwapPricing.Machine.Step

/-!
# Runs

A run steps through a program until it ends, at most as often as its limit
allows, and then unwinds the settlements.  A quote is a run that leaves nothing
behind.  A swap writes its journal to the store, but only if all of it
succeeded.
-/

namespace SwapPricing

/-- The limit on steps where none is given. -/
def defaultStepLimit : UInt32 := 1024

namespace Machine

/-- The result of a run. -/
structure Outcome where
  registers : Registers
  protocolFees : List ProtocolFee
  /-- The number of records run. -/
  steps : Nat
  deriving DecidableEq

namespace Outcome

def amountIn (o : Outcome) : UInt64 :=
  o.registers.amountIn

def amountOut (o : Outcome) : UInt64 :=
  o.registers.amountOut

def ofState (s : State) : Outcome :=
  ⟨s.registers, s.protocolFees, s.steps⟩

end Outcome

/-- The failure of a run that reaches one more record than its limit.  The
count of steps is a 32-bit word, so behind the largest limit it has no value. -/
def limitError (limit : UInt32) : RunError :=
  if limit.toNat + 1 < UInt32.size then .stepLimitExceeded limit else .countExhausted

/-- Runs records until the program ends; `left` more steps are allowed. -/
def runSteps (setup : Setup) (limit : UInt32) : (left : Nat) → State → Run State
  | left, s =>
      match setup.program.records[s.next]? with
      | none => .ok s
      | some r =>
          match left with
          | 0 => .error (limitError limit)
          | left + 1 => do runSteps setup limit left (← step setup r s)

/-- Settles all that was deferred, the last first. -/
def settleAll (setup : Setup) : List Settlement → State → Run State
  | [], s => .ok s
  | work :: rest, s => do settleAll setup rest (← settle setup work s)

/-- The state behind the last record: waiting fees are applied, and the amount
must be solved. -/
def finishSteps (setup : Setup) (s : State) : Run State := do
  let s ← release setup s
  if s.solved then .ok s else .error (.ordering .amountNotSolved)

/-- A whole run over a store. -/
def run (setup : Setup) (limit : UInt32) (store : Order.Store) : Run State := do
  let stepped ← runSteps setup limit limit.toNat (State.initial setup.query store)
  let finished ← finishSteps setup stepped
  settleAll setup finished.settlements { finished with settlements := [] }

/-!
# Quotes and swaps
-/

/-- Refuses a query that is meant for the other kind of run, and a query that is
no trade. -/
def accept (query : Query) (mode : ExecutionMode) : Run Unit := do
  if query.mode ≠ mode then
    .error (.modeMismatch query.mode mode)
  else
    query.validate.mapError RunError.invalidQuery

/-- Prices a trade and leaves nothing behind. -/
def quote (program : Program) (query : Query) (environment : Environment) (limit : UInt32)
    (store : Order.Store) : Run Outcome := do
  accept query .simulate
  let setup : Setup := ⟨program, query, environment, environment.quoteExternal⟩
  return .ofState (← run setup limit store)

/-- Prices a trade and writes the order state it leaves behind.  The result
comes with the store afterwards, which a failed swap does not change. -/
def swap (program : Program) (query : Query) (environment : Environment)
    (external : ExternalLogic) (limit : UInt32) (store : Order.Store) :
    Run Outcome × Order.Store :=
  let setup : Setup := ⟨program, query, environment, external⟩
  match (do accept query .commit; run setup limit store : Run State) with
  | .ok s => (.ok (.ofState s), s.journal.commit)
  | .error e => (.error e, store)

end Machine
end SwapPricing
