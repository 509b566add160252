import SwapPricing.Identifier

/-!
# Trades

A trade has two legs, named from the taker's side.  The taker fixes the amount
of one leg, and a program computes the amount of the other.  Four registers
carry the balances and amounts of both legs through a run.
-/

namespace SwapPricing

/-!
# Legs
-/

/-- A side of a trade: what the taker pays, or what the taker receives. -/
inductive Leg where
  | input
  | output
  deriving DecidableEq, Repr

namespace Leg

def other : Leg → Leg
  | input => output
  | output => input

/-- The written form of a leg. -/
def name : Leg → String
  | input => "in"
  | output => "out"

/-- The leg in diagnostic output. -/
def label : Leg → String
  | input => "In"
  | output => "Out"

def ofName? (name : String) : Option Leg :=
  if name = "in" then some input
  else if name = "out" then some output
  else none

instance : Ord Leg where
  compare
    | input, output => .lt
    | output, input => .gt
    | _, _ => .eq

instance : Std.TransOrd Leg where
  eq_swap {a b} := by cases a <;> cases b <;> rfl
  isLE_trans {a b c} := by cases a <;> cases b <;> cases c <;> decide

instance : Std.LawfulEqOrd Leg where
  eq_of_compare {a b} := by cases a <;> cases b <;> decide
  compare_self {a} := by cases a <;> rfl

end Leg

/-!
# Queries
-/

/-- Whether a run may leave state behind. -/
inductive ExecutionMode where
  | simulate
  | commit
  deriving DecidableEq, Repr

/-- The mode in diagnostic output. -/
def ExecutionMode.label : ExecutionMode → String
  | .simulate => "Simulate"
  | .commit => "Commit"

/-- What a taker asks for. -/
structure Query where
  taker : Address
  assetIn : AssetId
  assetOut : AssetId
  amount : UInt64
  /-- The leg whose amount the taker fixes. -/
  fixed : Leg
  mode : ExecutionMode
  deriving DecidableEq

namespace Query

/-- A simulated query of the zero address. -/
def simulated (fixed : Leg) (assetIn assetOut : AssetId) (amount : UInt64) : Query where
  taker := Identifier.zero
  assetIn := assetIn
  assetOut := assetOut
  amount := amount
  fixed := fixed
  mode := .simulate

def withTaker (q : Query) (taker : Address) : Query :=
  { q with taker := taker }

/-- The same query, with its effects wanted. -/
def committing (q : Query) : Query :=
  { q with mode := .commit }

def asset (q : Query) : Leg → AssetId
  | .input => q.assetIn
  | .output => q.assetOut

/-- The leg whose amount the program computes. -/
def unknown (q : Query) : Leg :=
  q.fixed.other

theorem unknown_ne_fixed (q : Query) : q.unknown ≠ q.fixed := by
  unfold unknown
  cases q.fixed <;> decide

/-- Whether the paid asset sorts before the received one. -/
def inputIsLower (q : Query) : Bool :=
  q.assetIn.precedes q.assetOut

/-- Of a pair given for the lower and the higher asset, the parts of the input
and of the output asset. -/
def orient {α : Type} (q : Query) (lower higher : α) : α × α :=
  if q.inputIsLower then (lower, higher) else (higher, lower)

end Query

/-!
# Registers
-/

/-- The quantities that every instruction of a run may read and change. -/
structure Registers where
  balanceIn : UInt64
  balanceOut : UInt64
  amountIn : UInt64
  amountOut : UInt64
  deriving DecidableEq

namespace Registers

def zero : Registers :=
  ⟨0, 0, 0, 0⟩

def balance (r : Registers) : Leg → UInt64
  | .input => r.balanceIn
  | .output => r.balanceOut

def amount (r : Registers) : Leg → UInt64
  | .input => r.amountIn
  | .output => r.amountOut

def setAmount (r : Registers) (leg : Leg) (amount : UInt64) : Registers :=
  match leg with
  | .input => { r with amountIn := amount }
  | .output => { r with amountOut := amount }

/-- Registers that hold both balances as given. -/
def setBalances (r : Registers) (balanceIn balanceOut : UInt64) : Registers :=
  { r with balanceIn := balanceIn, balanceOut := balanceOut }

/-- The registers a run starts from: only the fixed amount is known. -/
def seeded (q : Query) : Registers :=
  zero.setAmount q.fixed q.amount

theorem amount_setAmount (r : Registers) (leg : Leg) (amount : UInt64) :
    (r.setAmount leg amount).amount leg = amount := by
  cases leg <;> rfl

theorem amount_setAmount_of_ne (r : Registers) {leg other : Leg} (h : other ≠ leg)
    (amount : UInt64) : (r.setAmount leg amount).amount other = r.amount other := by
  cases leg <;> cases other <;> first | rfl | exact absurd rfl h

theorem balance_setAmount (r : Registers) (leg other : Leg) (amount : UInt64) :
    (r.setAmount leg amount).balance other = r.balance other := by
  cases leg <;> cases other <;> rfl

theorem amount_setBalances (r : Registers) (balanceIn balanceOut : UInt64) (leg : Leg) :
    (r.setBalances balanceIn balanceOut).amount leg = r.amount leg := by
  cases leg <;> rfl

end Registers
end SwapPricing
