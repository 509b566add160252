import SwapPricing.Machine.Run
import SwapPricing.Text.Hex

/-!
# Traces

A run can be watched: every record as it is entered, every external call and
its answer, and every settlement.  The trace is computed beside the run from
the same steps, so that watching cannot change a run.
-/

namespace SwapPricing
namespace Machine

/-- Something that happens during a run. -/
inductive Event where
  | entered (r : Record) (registers : Registers) (solved : Bool)
  | called (call : ExternalCall)
  | answered (target : Address) (outcome : ExternalOutcome)
  | settling (work : Settlement) (registers : Registers)

/-- What happens when external logic is called. -/
def callEvents (setup : Setup) (target : Address) (input : List UInt8) (s : State) :
    List Event :=
  let call := externalCall setup target input s
  match setup.external s.calls call with
  | .ok outcome => [.called call, .answered target outcome]
  | .error _ => [.called call]

/-- What happens in one step. -/
def stepEvents (setup : Setup) (r : Record) (s : State) : List Event :=
  match enter setup r s with
  | .error _ => []
  | .ok s =>
      .entered r s.registers s.solved ::
        match r.instruction with
        | .extruction logic input => callEvents setup logic input s
        | _ => []

/-- What happens until the program ends. -/
def runEvents (setup : Setup) : (left : Nat) → State → List Event
  | left, s =>
      match setup.program.records[s.next]? with
      | none => []
      | some r =>
          match left with
          | 0 => []
          | left + 1 =>
              stepEvents setup r s ++
                match step setup r s with
                | .ok s => runEvents setup left s
                | .error _ => []

/-- What happens when the settlements are unwound. -/
def settleEvents (setup : Setup) : List Settlement → State → List Event
  | [], _ => []
  | work :: rest, s =>
      .settling work s.registers ::
        match settle setup work s with
        | .ok s => settleEvents setup rest s
        | .error _ => []

/-- The trace of a whole run. -/
def events (setup : Setup) (limit : UInt32) (store : Order.Store) : List Event :=
  let start := State.initial setup.query store
  let settled : List Event :=
    match runSteps setup limit limit.toNat start >>= finishSteps setup with
    | .ok s => settleEvents setup s.settlements { s with settlements := [] }
    | .error _ => []
  runEvents setup limit.toNat start ++ settled

/-- The external calls in a trace. -/
def callsOf (trace : List Event) : List ExternalCall :=
  trace.filterMap fun
    | .called call => some call
    | _ => none

/-!
# Log lines
-/

inductive Severity where
  | trace
  | debug
  | info
  | warn
  deriving DecidableEq

def Severity.name : Severity → String
  | trace => "TRACE"
  | debug => "DEBUG"
  | info => "INFO"
  | warn => "WARN"

structure LogLine where
  severity : Severity
  text : String
  deriving DecidableEq

/-- Named fields, as diagnostic output shows them. -/
def shownFields (name : String) (fields : List (String × String)) : String :=
  let shown := fields.map fun field => field.1 ++ ": " ++ field.2
  name ++ " \x7b " ++ ", ".intercalate shown ++ " \x7d"

/-- An optional value, as diagnostic output shows it. -/
def shownOption {α : Type} (text : α → String) : Option α → String
  | some a => "Some(" ++ text a ++ ")"
  | none => "None"

def shownRegisters (r : Registers) : String :=
  shownFields "SwapRegisters"
    [("balance_in", toString r.balanceIn), ("balance_out", toString r.balanceOut),
      ("amount_in", toString r.amountIn), ("amount_out", toString r.amountOut)]

def shownOutcome (o : ExternalOutcome) : String :=
  shownFields "ExternalOutcome"
    [("registers", shownRegisters o.registers), ("jump", shownOption toString o.jump)]

def shownSale (s : Sale) : String :=
  shownFields "TwapSchedule"
    [("start", toString s.start), ("duration", toString s.duration),
      ("balance_in", toString s.balanceIn), ("balance_out", toString s.balanceOut),
      ("decay", toString s.decay), ("illiquidity_period", toString s.illiquidityPeriod),
      ("price_bump", toString s.priceBump), ("min_trade_out", toString s.minTradeOut)]

def shownProgress (s : SaleState) : String :=
  shownFields "TwapState"
    [("sold", toString s.sold), ("last_fill_at", shownOption toString s.lastFill),
      ("bumped", toString s.bumped)]

def Settlement.shown : Settlement → String
  | balances balanceIn balanceOut =>
      shownFields "DynamicBalances"
        [("balance_in", toString balanceIn), ("balance_out", toString balanceOut)]
  | decay period => shownFields "Decay" [("period", toString period)]
  | sale offset terms prior =>
      shownFields "Twap"
        [("offset", toString offset), ("schedule", shownSale terms),
          ("prior", shownProgress prior)]
  | fee op leg rate carried recipient =>
      shownFields "Fee"
        [("opcode", op.label), ("leg", leg.label), ("rate_bps", toString rate),
          ("carried", shownOption toString carried),
          ("recipient", shownOption Identifier.labelled recipient)]
  | fillCap leg cap =>
      shownFields "FillCap"
        [("opcode", (Opcode.fillCap leg).label), ("leg", leg.label), ("max", toString cap)]

/-- The line that an event logs, if it logs one. -/
def Event.line? : Event → Option LogLine
  | entered r registers solved =>
      let record := s!"{Operation.address r.offset} {r.opcode.mnemonic}"
      some ⟨.debug, s!"{record} regs={shownRegisters registers} solved={solved}"⟩
  | called _ => none
  | answered target outcome =>
      some ⟨.debug, s!"external {target.text} returned {shownOutcome outcome}"⟩
  | settling work registers =>
      some ⟨.trace, s!"epilogue {work.shown} regs={shownRegisters registers}"⟩

/-- The line that warns of a guard that failed. -/
def warning (program : Program) : Run State → List LogLine
  | .error e => if e.isGuard then [⟨.warn, s!"program {program.id.text}: {e.message}"⟩] else []
  | .ok _ => []

/-- The line that announces the writes of a swap. -/
def announcement (program : Program) : Run State → List LogLine
  | .ok s =>
      [⟨.info, s!"program {program.id.text}: committing {s.journal.written.size} state entries"⟩]
  | .error _ => []

/-- The log of a run that was admitted. -/
def runLog (setup : Setup) (limit : UInt32) (store : Order.Store) : List LogLine :=
  let result := run setup limit store
  let announced := match setup.query.mode with
    | .commit => announcement setup.program result
    | .simulate => []
  (events setup limit store).filterMap Event.line? ++ warning setup.program result ++ announced

/-- The log of a quote or a swap; a query that is refused logs nothing. -/
def log (setup : Setup) (entry : ExecutionMode) (limit : UInt32) (store : Order.Store) :
    List LogLine :=
  match accept setup.query entry with
  | .ok () => runLog setup limit store
  | .error _ => []

end Machine
end SwapPricing
