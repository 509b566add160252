import SwapPricing.Proofs.Changes

/-!
# Setting balances

An instruction that does nothing but set the balances finds them from the old
ones, the host and the traded assets.  Who trades which amount in which mode,
and whatever else a state holds, makes no difference to it.
-/

namespace SwapPricing
namespace Machine

/-- The setup of another query for the same assets at the same host. -/
def Setup.reasked (setup : Setup) (query : Query) (external : ExternalLogic) : Setup where
  program := setup.program
  query := { query with assetIn := setup.query.assetIn, assetOut := setup.query.assetOut }
  environment := setup.environment
  external := external

/-- A map of states that keeps all that balances are computed from. -/
structure KeepsBalances (k : State → State) : Prop where
  solved : ∀ s, (k s).solved = s.solved
  balanceIn : ∀ s, (k s).registers.balanceIn = s.registers.balanceIn
  balanceOut : ∀ s, (k s).registers.balanceOut = s.registers.balanceOut
  setBalances : ∀ s balanceIn balanceOut,
    (k s).setBalances balanceIn balanceOut = k (s.setBalances balanceIn balanceOut)

namespace KeepsBalances

variable {k : State → State} {setup : Setup} {query : Query} {external : ExternalLogic}
  {s : State} (hk : KeepsBalances k)

include hk

theorem requireUnsolved {op : Opcode} : (k s).requireUnsolved op = s.requireUnsolved op := by
  unfold State.requireUnsolved
  rw [hk.solved]

theorem ret {balanceIn balanceOut : UInt64} :
    (pure ((k s).setBalances balanceIn balanceOut) : Run State) =
      (pure (s.setBalances balanceIn balanceOut) : Run State).map k := by
  rw [hk.setBalances]
  rfl

theorem staticBalances {balances : Entries} :
    Machine.staticBalances (setup.reasked query external) balances (k s) =
      (Machine.staticBalances setup balances s).map k := by
  unfold Machine.staticBalances
  rw [hk.requireUnsolved]
  exact bind_eq_map fun _ => bind_eq_map fun _ => bind_eq_map fun _ => hk.ret

theorem externalBalances :
    Machine.externalBalances (setup.reasked query external) (k s) =
      (Machine.externalBalances setup s).map k := by
  unfold Machine.externalBalances
  rw [hk.requireUnsolved]
  exact bind_eq_map fun _ => bind_eq_map fun _ => bind_eq_map fun _ => hk.ret

theorem grow {op : Opcode} {deltaIn deltaOut : UInt64} :
    Machine.grow op deltaIn deltaOut (k s) = (Machine.grow op deltaIn deltaOut s).map k := by
  unfold Machine.grow
  rw [hk.requireUnsolved, hk.balanceIn, hk.balanceOut]
  exact bind_eq_map fun _ => bind_eq_map fun _ => bind_eq_map fun _ => hk.ret

theorem auction {leg : Leg} {terms : Auction} :
    Machine.auction (setup.reasked query external) leg terms (k s) =
      (Machine.auction setup leg terms s).map k := by
  unfold Machine.auction
  simp only [hk.requireUnsolved, hk.balanceIn, hk.balanceOut]
  apply bind_eq_map
  intro _
  apply bind_eq_map
  intro factor
  cases leg with
  | input => exact bind_eq_map fun _ => hk.ret
  | output => exact bind_eq_map fun _ => hk.ret

theorem revalue {op : Opcode} {valuation : UInt64} {maxDelta : Option UInt16} :
    Machine.revalue (setup.reasked query external) op valuation maxDelta (k s) =
      (Machine.revalue setup op valuation maxDelta s).map k := by
  unfold Machine.revalue
  simp only [hk.balanceIn, hk.balanceOut]
  apply bind_eq_map
  intro _
  apply bind_eq_map
  intro complement
  apply bind_eq_map
  intro fair
  cases maxDelta with
  | none => exact hk.ret
  | some delta => exact bind_eq_map fun _ => bind_eq_map fun _ => hk.ret

theorem valuationStatic {valuation : UInt64} :
    Machine.valuationStatic (setup.reasked query external) valuation (k s) =
      (Machine.valuationStatic setup valuation s).map k := by
  unfold Machine.valuationStatic
  rw [hk.requireUnsolved]
  exact bind_eq_map fun _ => hk.revalue

theorem valuationOracle {op : Opcode} {oracle : Address} {maxAge : Option UInt32}
    {maxDelta : Option UInt16} :
    Machine.valuationOracle (setup.reasked query external) op oracle maxAge maxDelta (k s) =
      (Machine.valuationOracle setup op oracle maxAge maxDelta s).map k := by
  unfold Machine.valuationOracle
  rw [hk.requireUnsolved]
  apply bind_eq_map
  intro _
  apply bind_eq_map
  intro reading
  cases maxAge with
  | none => exact hk.revalue
  | some limit => exact bind_eq_map fun _ => hk.revalue

/-- The balances that an instruction sets are the same for every query of the
same assets. -/
theorem execute {offset : Nat} {i : Instruction} (hi : i.setsBalances = true) :
    Machine.execute (setup.reasked query external) offset i (k s) =
      (Machine.execute setup offset i s).map k := by
  cases i with
  | staticBalances balances => exact hk.staticBalances
  | externalBalances => exact hk.externalBalances
  | growLiquidity deltas => exact hk.grow
  | growPriceRange lower higher => exact hk.grow
  | auction leg terms => exact hk.auction
  | valuationStatic valuation => exact hk.valuationStatic
  | valuationOracle oracle =>
      rw [Machine.execute, Machine.execute]
      exact hk.valuationOracle
  | valuationFresh oracle maxAge =>
      rw [Machine.execute, Machine.execute]
      exact hk.valuationOracle
  | valuationBounded oracle maxAge maxDelta =>
      rw [Machine.execute, Machine.execute]
      exact hk.valuationOracle
  | _ => cases hi

end KeepsBalances
end Machine
end SwapPricing
