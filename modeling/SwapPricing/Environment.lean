import SwapPricing.Table
import SwapPricing.Trade

/-!
# Environments

A run reads its host through an environment: the clock, the base fee, oracles
and token holdings.  A program may also call external logic, which sees the
registers and answers with new ones.  `Observations` is the environment of a
host that has noted all these values down.
-/

namespace SwapPricing

/-- An oracle's valuation of the lower asset, as a fraction. -/
structure OracleReading where
  value : UInt64
  updatedAt : UInt64
  deriving DecidableEq

/-!
# External logic
-/

/-- What a program hands to external logic. -/
structure ExternalCall where
  target : Address
  program : ProgramId
  query : Query
  registers : Registers
  input : List UInt8
  deriving DecidableEq

/-- The answer of external logic: new registers, and where to go on. -/
structure ExternalOutcome where
  registers : Registers
  jump : Option UInt16
  deriving DecidableEq

/-- A refusal by external logic. -/
structure ExternalError where
  target : Address
  reason : String
  deriving DecidableEq

def ExternalError.message (e : ExternalError) : String :=
  "external logic " ++ e.target.text ++ " failed: " ++ e.reason

/-- External logic as seen from one run: its answer may depend on the earlier
calls of the run. -/
abbrev ExternalLogic :=
  (earlier : List ExternalCall) → (call : ExternalCall) → Except ExternalError ExternalOutcome

/-- The external logic of a host that has none. -/
def ExternalLogic.absent : ExternalLogic := fun _ call =>
  .error ⟨call.target, "no external logic available"⟩

/-!
# The host
-/

/-- What a run may ask its host. -/
structure Environment where
  /-- The time in seconds. -/
  now : UInt64
  /-- The price of a unit of gas. -/
  baseFee : UInt64
  oracle? : Address → Option OracleReading
  balanceOf : AssetId → Address → UInt64
  totalSupply : AssetId → UInt64
  /-- The maker's reserve behind a program. -/
  reserve? : ProgramId → AssetId → Option UInt64
  /-- External logic that only answers and leaves nothing behind. -/
  quoteExternal : ExternalLogic

/-- An asset held by an account. -/
structure Holding where
  asset : AssetId
  holder : Address
  deriving DecidableEq

namespace Holding

instance : Ord Holding where
  compare := compareLex (compareOn Holding.asset) (compareOn Holding.holder)

theorem compare_def (a b : Holding) :
    compare a b = (compare a.asset b.asset).then (compare a.holder b.holder) :=
  rfl

instance : Std.TransOrd Holding :=
  inferInstanceAs (Std.TransCmp (compareLex (compareOn Holding.asset) (compareOn Holding.holder)))

instance : Std.LawfulEqOrd Holding where
  eq_of_compare {a b} h := by
    cases a
    cases b
    rw [compare_def, Ordering.then_eq_eq] at h
    obtain ⟨hasset, hholder⟩ := h
    cases Std.LawfulEqCmp.eq_of_compare hasset
    cases Std.LawfulEqCmp.eq_of_compare hholder
    rfl
  compare_self {a} := by
    simp [Std.ReflCmp.compare_self]

end Holding

/-- The values a host has noted down.  Reserves back every program alike. -/
structure Observations where
  now : UInt64
  baseFee : UInt64
  oracles : Table Address OracleReading
  balances : Table Holding UInt64
  supply : Table AssetId UInt64
  reserves : Table AssetId UInt64

namespace Observations

/-- A host that has noted nothing but the time. -/
def atTime (now : UInt64) : Observations :=
  ⟨now, 0, .empty, .empty, .empty, .empty⟩

/-- The environment that reads from the notes.  Balances and supplies that were
not noted are zero. -/
def environment (o : Observations) : Environment where
  now := o.now
  baseFee := o.baseFee
  oracle? := o.oracles.find?
  balanceOf asset holder := (o.balances.find? ⟨asset, holder⟩).getD 0
  totalSupply asset := (o.supply.find? asset).getD 0
  reserve? _ := o.reserves.find?
  quoteExternal := ExternalLogic.absent

end Observations
end SwapPricing
