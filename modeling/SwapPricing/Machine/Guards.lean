import SwapPricing.Machine.State

/-!
# Guards

Guards end a run unless a condition on the host, the taker or the order state
holds.  A fill cap needs the final amounts, so it is checked in its settlement.
-/

namespace SwapPricing
namespace Machine

open Arithmetic (wad maxAmount exact)

def deadline (setup : Setup) (last : UInt64) (s : State) : Run State := do
  let now := setup.environment.now
  check .deadline (.deadlinePassed last now) (now ≤ last)
  return s

def takerBalance (setup : Setup) (asset : AssetId) (least : UInt64) (s : State) : Run State := do
  let balance := setup.environment.balanceOf asset setup.query.taker
  check .takerBalance (.takerBalanceTooLow balance least) (least ≤ balance)
  return s

/-- The share of the supply that a balance makes up, as a fraction.  A share
too large for a word counts as the largest one. -/
def supplyShare (balance supply : UInt64) : Except MathError UInt64 := do
  let product ← exact (balance.toNat * wad)
  let share ← Arithmetic.quotient product supply.toNat
  Arithmetic.word .fault (min share maxAmount)

/-- Nobody holds a share of an asset without supply. -/
def takerShare (setup : Setup) (asset : AssetId) (least : UInt64) (s : State) : Run State := do
  let balance := setup.environment.balanceOf asset setup.query.taker
  let supply := setup.environment.totalSupply asset
  if supply = 0 then
    .error (.guard .takerShare (.takerShareTooLow 0 least))
  else
    let share ← calculate .takerShare (supplyShare balance supply)
    check .takerShare (.takerShareTooLow share least) (least ≤ share)
    return s

/-- Fails once the bit is set; a run with effects sets it. -/
def invalidateBit (setup : Setup) (bit : UInt32) (s : State) : Run State := do
  let program := setup.program.id
  check .invalidateBit (.orderInvalidated bit) (¬ s.journal.isBitSet program bit)
  return s.write setup.query.mode fun j => j.setBit program bit

/-- Checks the amount filled so far, this trade included, and records it. -/
def settleFillCap (setup : Setup) (leg : Leg) (cap : UInt64) (s : State) : Run State := do
  let program := setup.program.id
  let side : Side := ⟨setup.query.asset leg, leg⟩
  let filled := s.journal.filled program side
  let amount := s.registers.amount leg
  check (.fillCap leg) (.fillCapExceeded filled amount cap)
    (filled.toNat + amount.toNat ≤ cap.toNat)
  return s.write setup.query.mode fun j => j.setFilled program side (filled + amount)

end Machine
end SwapPricing
