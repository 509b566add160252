import SwapPricing.CommandLine.Host
import SwapPricing.CommandLine.Request
import SwapPricing.Order.Snapshot
import SwapPricing.Strategy.Source

/-!
# Commands

A command prints lines until it is done or fails.  The order state is written
only behind a swap or an invalidation that succeeded.
-/

namespace SwapPricing
namespace CommandLine

/-- A running command: it may fail, and it keeps what it has printed. -/
abbrev Session (m : Type → Type) := ExceptT Failure (StateT String m)

variable {m : Type → Type} [Monad m]

/-- Prints a text as it is. -/
def put (text : String) : Session m Unit :=
  modify fun printed => printed ++ text

/-- Prints a line. -/
def say (text : String) : Session m Unit :=
  put (text ++ "\n")

def orFail {ε α : Type} (failure : ε → Failure) (x : Except ε α) : Session m α :=
  ExceptT.mk (pure (x.mapError failure))

/-- What the host answers to a request. -/
def ask {α : Type} (x : m α) : Session m α :=
  ExceptT.lift (StateT.lift x)

/-!
# Files
-/

/-- The text of a file, if there is such a file. -/
def readOptional (host : Host m) (role : FileRole) (path : String) : Session m (Option String) := do
  match ← ask (host.read path) with
  | .ok text => return some text
  | .error fault => if fault.isAbsent then return none else throw (.unreadable role path fault)

/-- The settings in a file; without a file they are the initial ones. -/
def loadSettings (host : Host m) (path : String) : Session m Settings := do
  match ← readOptional host .config path with
  | none => return .initial
  | some text =>
      match Settings.parse? text with
      | some settings => return settings
      | none => throw (.unparsable .config path)

/-- The order state in a file; without a file it is empty. -/
def loadState (host : Host m) (settings : Settings) : Session m Order.Store := do
  match ← readOptional host .state settings.statePath with
  | none => return .empty
  | some text =>
      match Order.Store.load? text with
      | some store => return store
      | none => throw (.unparsable .state settings.statePath)

def saveState (host : Host m) (settings : Settings) (store : Order.Store) : Session m Unit := do
  match ← ask (host.write settings.statePath store.save) with
  | .ok () => return ()
  | .error fault => throw (.unwritable .state settings.statePath fault)

def loadStrategy (host : Host m) (path : String) : Session m Strategy := do
  match ← ask (host.read path) with
  | .error fault => throw (.unreadable .strategy path fault)
  | .ok text =>
      match Strategy.parse? text with
      | some strategy => return strategy
      | none => throw (.unparsable .strategy path)

def instructionSet (settings : Settings) : Except Failure InstructionSet :=
  settings.set.mapError Failure.unknownSet

/-- The program of a strategy file. -/
def loadProgram (host : Host m) (settings : Settings) (path : String) : Session m Program := do
  let strategy ← loadStrategy host path
  let set ← orFail id (instructionSet settings)
  orFail Failure.strategy (strategy.compile set)

/-!
# Programs
-/

def assemble (host : Host m) (settings : Settings) (path : String) : Session m Unit := do
  let set ← orFail id (instructionSet settings)
  let strategy ← loadStrategy host path
  let program ← orFail Failure.strategy (strategy.compile set)
  say "=== Assemble ==="
  say s!"Instruction set: {set.name}"
  say s!"Program: {program.id.text}"
  say s!"Records: {program.size} ({program.bytes.size} bytes)"
  say (Text.Hex.encode program.bytes.toList)

/-- The characters that count as blank around a text: the white space of
Unicode. -/
def isBlank (c : Char) : Bool :=
  let n := c.toNat
  (9 ≤ n && n ≤ 13) || n == 0x20 || n == 0x85 || n == 0xA0 || n == 0x1680 ||
    (0x2000 ≤ n && n ≤ 0x200A) || n == 0x2028 || n == 0x2029 || n == 0x202F || n == 0x205F ||
    n == 0x3000

/-- The text without blanks around it. -/
def trim (chars : List Char) : List Char :=
  ((chars.dropWhile isBlank).reverse.dropWhile isBlank).reverse

/-- The text behind every `0x` that it starts with. -/
def behindMarks : List Char → List Char
  | '0' :: 'x' :: rest => behindMarks rest
  | rest => rest

/-- The program that bytes in hexadecimal hold.  It is called by the identifier
that is given, or else by the digest of its bytes. -/
def decodeHex (settings : Settings) (text : String) (id : Option String) :
    Except Failure Program := do
  let digits := String.ofList (behindMarks (trim text.toList))
  let bytes ← (Text.Hex.decode digits).mapError Failure.hex
  let id ← match id with
    | none => .ok (ProgramId.ofContent bytes)
    | some id => parseIdentifier .program id
  let set ← instructionSet settings
  (Program.decode set id bytes).mapError Failure.malformed

def disassemble (host : Host m) (settings : Settings) (strategy hex id : Option String) :
    Session m Unit := do
  let program ← match strategy, hex with
    | some path, none => loadProgram host settings path
    | none, some text => orFail (fun f : Failure => f) (decodeHex settings text id)
    | _, _ => throw .noSource
  say "=== Disassembly ==="
  say s!"Program: {program.id.text}"
  put program.listing

/-!
# Trades
-/

/-- Prints what a trade comes to. -/
def sayOutcome (query : Query) (outcome : Machine.Outcome) : Session m Unit := do
  say s!"Pay: {outcome.amountIn} {query.assetIn.text}"
  say s!"Receive: {outcome.amountOut} {query.assetOut.text}"
  say s!"Balances: {outcome.registers.balanceIn} / {outcome.registers.balanceOut}"
  say s!"Steps: {outcome.steps}"
  for fee in outcome.protocolFees do
    say s!"Protocol fee: {fee.amount} {fee.asset.text} to {fee.recipient.text}"

/-- What a trade on a program needs: the program, the environment, the order
state and the query, checked in this order. -/
structure Prepared where
  program : Program
  environment : Environment
  store : Order.Store
  query : Query

def prepare (host : Host m) (settings : Settings) (path : String) (trade : TradeRequest) :
    Session m Prepared := do
  let program ← loadProgram host settings path
  let clock ← ask host.clock
  let observations ← orFail Failure.moment (settings.environment.observations clock)
  let store ← loadState host settings
  let query ← orFail (fun f : Failure => f) trade.query
  return ⟨program, observations.environment, store, query⟩

def quote (host : Host m) (settings : Settings) (path : String) (trade : TradeRequest) :
    Session m Unit := do
  let p ← prepare host settings path trade
  say "=== Quote ==="
  say s!"Program: {p.program.id.text}"
  let outcome ← orFail Failure.quote
    (Machine.quote p.program p.query p.environment settings.stepLimit p.store)
  sayOutcome p.query outcome

def swap (host : Host m) (settings : Settings) (path : String) (trade : TradeRequest) :
    Session m Unit := do
  let p ← prepare host settings path trade
  let query := p.query.committing
  say "=== Swap ==="
  say s!"Program: {p.program.id.text}"
  let (result, store) :=
    Machine.swap p.program query p.environment ExternalLogic.absent settings.stepLimit p.store
  let outcome ← orFail Failure.swap result
  sayOutcome query outcome
  saveState host settings store
  say s!"State saved: {settings.statePath}"

/-!
# Order state
-/

def invalidate (host : Host m) (settings : Settings) (path : String) (bit : UInt32) :
    Session m Unit := do
  let program ← loadProgram host settings path
  let store ← loadState host settings
  say "=== Invalidate ==="
  say s!"Program: {program.id.text}"
  say s!"Bit: {bit}"
  let (fresh, store) := store.invalidate program.id bit
  if fresh then
    saveState host settings store
    say "Order invalidated"
  else
    say "Bit already set"

def state (host : Host m) (settings : Settings) (program : Option String) : Session m Unit := do
  let whole ← loadState host settings
  let store ← match program with
    | none => pure whole
    | some id => do
        let id ← orFail (fun f : Failure => f) (parseIdentifier .program id)
        pure (whole.ofProgram id)
  say "=== Order State ==="
  say s!"File: {settings.statePath}"
  if store.isEmpty then
    say "No state recorded"
  else
    say store.save

/-!
# Price bands
-/

def concentrate (band : BandRequest) : Session m Unit := do
  let price ← orFail Failure.price (Price.parse band.price)
  let bottom ← orFail Failure.price (Price.parse band.bottom)
  let top ← orFail Failure.price (Price.parse band.top)
  let (lower, higher) ← orFail (Failure.band band.bottom band.top band.price)
    (Arithmetic.bandDeltas band.balanceA band.balanceB price bottom top)
  say "=== Price Range ==="
  say s!"Range: {band.bottom} .. {band.top} (price {band.price})"
  say s!"delta_lt: {lower}"
  say s!"delta_gt: {higher}"
  say ""
  say "[[step]]"
  say "op = \"concentrate_grow_price_range\""
  say s!"delta_lt = {lower}"
  say s!"delta_gt = {higher}"

/-!
# Command lines
-/

/-- Runs a command. -/
def Command.run (host : Host m) (settings : Settings) : Command → Session m Unit
  | .assemble path => CommandLine.assemble host settings path
  | .disassemble path hex id => CommandLine.disassemble host settings path hex id
  | .quote path trade => CommandLine.quote host settings path trade
  | .swap path trade => CommandLine.swap host settings path trade
  | .invalidate path bit => CommandLine.invalidate host settings path bit
  | .concentrate band => CommandLine.concentrate band
  | .state program => CommandLine.state host settings program

/-- Loads the settings and runs a command. -/
def Invocation.run (host : Host m) (i : Invocation) : Session m Unit := do
  let settings ← loadSettings host i.config
  if i.verbose then
    say s!"Config: {i.config}"
    say s!"State: {settings.statePath}"
    say s!"Instruction set: {settings.instructionSet}"
  i.command.run host settings

end CommandLine
end SwapPricing
