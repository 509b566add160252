import SwapPricing.Document.Shape
import SwapPricing.Document.Toml
import SwapPricing.Machine.Run
import SwapPricing.Text.Timestamp

/-!
# Settings

Settings name the file that keeps the order state, the limit on steps and the
instruction set, and describe the environment that runs see.
-/

namespace SwapPricing

/-!
# Moments
-/

/-- A point in time, in seconds or as a timestamp. -/
inductive Moment where
  | seconds (n : UInt64)
  | stamp (text : String)
  deriving DecidableEq

namespace Moment

/-- Why a moment has no number of seconds. -/
inductive Fault where
  | invalid (text : String)
  | beforeEpoch (text : String)
  deriving DecidableEq

/-- The message of the failure itself. -/
def Fault.message : Fault → String
  | invalid text => "Invalid timestamp: " ++ text
  | beforeEpoch text => "Timestamp before 1970: " ++ text

/-- The message of the failure behind it. -/
def Fault.cause? : Fault → Option String
  | invalid _ => none
  | beforeEpoch _ => some "number too small to fit in target type"

/-- The seconds since the start of 1970. -/
def unix : Moment → Except Fault UInt64
  | seconds n => .ok n
  | stamp text =>
      match Text.Timestamp.seconds? text.toList with
      | none => .error (.invalid text)
      | some n => if 0 ≤ n then .ok (UInt64.ofNat n.toNat) else .error (.beforeEpoch text)

def shape : Document.Shape Moment := fun v =>
  ((Document.Shape.uint64 v).map Moment.seconds).or ((Document.Shape.text v).map Moment.stamp)

end Moment

/-!
# Settings
-/

/-- An oracle reading whose time may be a timestamp. -/
structure OracleSetting where
  value : UInt64
  updatedAt : Moment

/-- The environment as settings describe it. -/
structure EnvironmentSettings where
  /-- The time; without it runs see the time of the host. -/
  now : Option Moment
  baseFee : UInt64
  oracles : Table Address OracleSetting
  balances : Table AssetId (Table Address UInt64)
  supply : Table AssetId UInt64
  reserves : Table AssetId UInt64

structure Settings where
  statePath : String
  stepLimit : UInt32
  instructionSet : String
  environment : EnvironmentSettings

/-- No instruction set has this name. -/
structure UnknownInstructionSet where
  name : String
  deriving DecidableEq

def UnknownInstructionSet.message (e : UnknownInstructionSet) : String :=
  "Unknown instruction set: " ++ e.name ++ ". Use v1 or stateless"

namespace EnvironmentSettings

def initial : EnvironmentSettings :=
  ⟨none, 0, .empty, .empty, .empty, .empty⟩

/-- The holdings of all accounts, in the order of the settings. -/
def holdings (e : EnvironmentSettings) : List (Holding × UInt64) :=
  e.balances.entries.flatMap fun (asset, holders) =>
    holders.entries.map fun (holder, amount) => (⟨asset, holder⟩, amount)

/-- The values a host at time `clock` notes down; a time that is set counts
instead. -/
def observations (e : EnvironmentSettings) (clock : UInt64) : Except Moment.Fault Observations := do
  let now ← match e.now with
    | some moment => moment.unix
    | none => .ok clock
  let oracles ← e.oracles.entries.mapM fun (oracle, setting) => do
    let updatedAt ← setting.updatedAt.unix
    return (oracle, (⟨setting.value, updatedAt⟩ : OracleReading))
  return ⟨now, e.baseFee, .ofList oracles, .ofList e.holdings, e.supply, e.reserves⟩

end EnvironmentSettings

namespace Settings

/-- The settings of an empty document. -/
def initial : Settings :=
  ⟨"swapvm-state.json", defaultStepLimit, "v1", .initial⟩

/-- The instruction set of the given name. -/
def set (s : Settings) : Except UnknownInstructionSet InstructionSet :=
  match s.instructionSet with
  | "v1" => .ok .full
  | "stateless" => .ok .stateless
  | other => .error ⟨other⟩

/-!
# Documents
-/

open Document (Shape)
open Document.Shape (fieldsOf required defaulted)

def oracleShape : Shape OracleSetting := fun v => do
  let fields ← fieldsOf ⟨true, true⟩ ["value", "updated_at"] v
  return ⟨← required fields "value" Shape.uint64, ← required fields "updated_at" Moment.shape⟩

/-- The environment; other fields than its own are refused. -/
def environmentShape : Shape EnvironmentSettings := fun v => do
  let fields ←
    fieldsOf ⟨false, true⟩ ["now", "base_fee", "oracles", "balances", "supply", "reserves"] v
  let now ← defaulted fields "now" (fun v => (Moment.shape v).map some) none
  let baseFee ← defaulted fields "base_fee" Shape.uint64 0
  let oracles ← defaulted fields "oracles" (Shape.table oracleShape) .empty
  let balances ← defaulted fields "balances" (Shape.table (Shape.table Shape.uint64)) .empty
  let supply ← defaulted fields "supply" (Shape.table Shape.uint64) .empty
  let reserves ← defaulted fields "reserves" (Shape.table Shape.uint64) .empty
  return ⟨now, baseFee, oracles, balances, supply, reserves⟩

/-- The settings; other fields than their own are refused. -/
def ofValue? : Shape Settings := fun v => do
  let fields ←
    fieldsOf ⟨false, true⟩ ["state_path", "max_steps", "instruction_set", "environment"] v
  let statePath ← defaulted fields "state_path" Shape.text initial.statePath
  let stepLimit ← defaulted fields "max_steps" Shape.uint32 initial.stepLimit
  let instructionSet ← defaulted fields "instruction_set" Shape.text initial.instructionSet
  let environment ← defaulted fields "environment" environmentShape .initial
  return ⟨statePath, stepLimit, instructionSet, environment⟩

/-- The settings that a text writes. -/
def parse? (text : String) : Option Settings := do
  ofValue? (← Document.Toml.parse? text)

end Settings
end SwapPricing
