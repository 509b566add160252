import SwapPricing.Arithmetic.Scaling
import SwapPricing.Machine.State

/-!
# Fees

A fee widens the trade in the maker's favour by a rate on one leg.  On the leg
whose amount the taker fixed it acts before the amount is solved, and its
settlement restores the fixed amount; on the other leg all of it happens in the
settlement.  A protocol fee does the same and also notes what is owed to its
recipient.

Protocol fees are charged on what the maker's fee of the same leg leaves.  On
the output this follows from the order of the settlements.  On the input a
protocol fee waits until the next instruction that is not an input fee.
-/

namespace SwapPricing
namespace Machine

open Arithmetic (deductRate grossUp gain difference)

/-- Applies a fee of `rate` as far as the fixed amount allows, and defers its
settlement. -/
def openFee (setup : Setup) (op : Opcode) (leg : Leg) (rate : UInt64)
    (recipient : Option Address) (s : State) : Run State := do
  s.requireUnsolved op
  match leg, setup.query.fixed with
  | .input, .input =>
      let amount := s.registers.amountIn
      let net ← calculate op (deductRate amount rate)
      let fee ← calculate op (difference amount net)
      return (s.setAmount .input net).defer (.fee op .input rate (some fee) recipient)
  | .output, .output =>
      let requested := s.registers.amountOut
      let gross ← calculate op (grossUp requested rate)
      return (s.setAmount .output gross).defer (.fee op .output rate (some requested) recipient)
  | _, _ => return s.defer (.fee op leg rate none recipient)

def flatFee (setup : Setup) (leg : Leg) (rate : UInt16) (s : State) : Run State :=
  openFee setup (.flatFee leg) leg rate.toUInt64 none s

/-- The rate grows with the fixed amount in proportion to the balance of its
leg. -/
def progressiveFee (setup : Setup) (leg : Leg) (terms : ProgressiveFee) (s : State) :
    Run State := do
  let op := Opcode.progressiveFee leg
  let known := setup.query.fixed
  let rate ← calculate op <| Arithmetic.progressiveRate terms.base.toUInt64 terms.slope.toUInt64
    terms.cap.toUInt64 (s.registers.amount known) (s.registers.balance known)
  openFee setup op leg rate none s

def protocolFee (setup : Setup) (leg : Leg) (rate : UInt16) (recipient : Address) (s : State) :
    Run State := do
  match leg with
  | .input =>
      s.requireUnsolved (.protocolFee .input)
      return { s with pending := s.pending ++ [⟨rate, recipient⟩] }
  | .output => openFee setup (.protocolFee .output) .output rate.toUInt64 (some recipient) s

/-!
# Waiting protocol fees
-/

/-- Whether waiting protocol fees go on waiting before an instruction. -/
def keepsWaiting : Opcode → Bool
  | .flatFee .input | .progressiveFee .input | .protocolFee .input => true
  | _ => false

/-- Applies the waiting protocol fees in program order. -/
def release (setup : Setup) (s : State) : Run State :=
  s.pending.foldlM
    (fun s fee =>
      openFee setup (.protocolFee .input) .input fee.rate.toUInt64 (some fee.recipient) s)
    { s with pending := [] }

/-- Applies the waiting protocol fees, unless `next` is one more input fee. -/
def releaseBefore (setup : Setup) (next : Opcode) (s : State) : Run State :=
  if keepsWaiting next then .ok s else release setup s

/-!
# Settlement
-/

/-- The fee that settlement takes on `amount`, and the amount it leaves. -/
def settledFee (leg : Leg) (rate : UInt64) (carried : Option UInt64) (amount : UInt64) :
    Except MathError (UInt64 × UInt64) :=
  match leg, carried with
  | .input, some fee => do return (fee, ← gain amount fee)
  | .input, none => do
      let gross ← grossUp amount rate
      return (← difference gross amount, gross)
  | .output, none => do
      let net ← deductRate amount rate
      return (← difference amount net, net)
  | .output, some requested =>
      return (UInt64.ofNat (amount.toNat - requested.toNat), requested)

/-- Settles a fee and notes what is owed to its recipient. -/
def settleFee (setup : Setup) (op : Opcode) (leg : Leg) (rate : UInt64) (carried : Option UInt64)
    (recipient : Option Address) (s : State) : Run State := do
  let (fee, amount) ← calculate op (settledFee leg rate carried (s.registers.amount leg))
  let settled := s.setAmount leg amount
  match recipient with
  | none => return settled
  | some recipient =>
      if fee = 0 then
        return settled
      else
        let owed : ProtocolFee := ⟨recipient, setup.query.asset leg, fee⟩
        return { settled with protocolFees := settled.protocolFees ++ [owed] }

end Machine
end SwapPricing
