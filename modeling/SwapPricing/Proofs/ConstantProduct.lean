import SwapPricing.Proofs.Unwinding

/-!
# The product of the balances

The maker's balances are priced once, and their product does not shrink from
then on: bounds and fees only move amounts in the maker's favour, and what is
owed to third parties comes out of what the fees took.
-/

namespace SwapPricing
namespace Machine

/-!
# Owed fees
-/

/-- The sum of the fees owed in an asset. -/
def owed (fees : List ProtocolFee) (asset : AssetId) : Nat :=
  ((fees.filter fun fee => fee.asset = asset).map fun fee => fee.amount.toNat).sum

theorem owed_append (fees more : List ProtocolFee) (asset : AssetId) :
    owed (fees ++ more) asset = owed fees asset + owed more asset := by
  simp [owed]

theorem owed_owing_le (setup : Setup) (leg : Leg) (recipient : Option Address) (fee : UInt64)
    (asset : AssetId) : owed (owing setup leg recipient fee) asset ≤ fee.toNat := by
  cases recipient with
  | none => exact Nat.zero_le _
  | some recipient =>
      simp only [owing]
      split
      · exact Nat.zero_le _
      · by_cases hasset : setup.query.asset leg = asset
        · simp [owed, hasset]
        · simp [owed, hasset]

theorem owed_owing_of_ne {setup : Setup} {leg : Leg} {asset : AssetId}
    (h : setup.query.asset leg ≠ asset) (recipient : Option Address) (fee : UInt64) :
    owed (owing setup leg recipient fee) asset = 0 := by
  cases recipient with
  | none => rfl
  | some recipient =>
      simp only [owing]
      split
      · rfl
      · simp [owed, h]

/-!
# Covered trades
-/

/-- The trade in `r` leaves the product of the balances no smaller, even after
`feesIn` of the input and `feesOut` of the output have been paid out. -/
structure Covered (r : Registers) (feesIn feesOut : Nat) : Prop where
  input : feesIn ≤ r.amountIn.toNat
  output : r.amountOut.toNat + feesOut < r.balanceOut.toNat
  product : r.balanceIn.toNat * r.balanceOut.toNat ≤
    (r.balanceIn.toNat + r.amountIn.toNat - feesIn) *
      (r.balanceOut.toNat - r.amountOut.toNat - feesOut)

namespace Covered

variable {r r' : Registers} {feesIn feesOut feesIn' feesOut' : Nat}

/-- What the maker keeps may grow, and what the maker pays may shrink. -/
theorem mono (h : Covered r feesIn feesOut) (hbalanceIn : r'.balanceIn = r.balanceIn)
    (hbalanceOut : r'.balanceOut = r.balanceOut) (hfees : feesIn' ≤ r'.amountIn.toNat)
    (hin : r.amountIn.toNat + feesIn' ≤ r'.amountIn.toNat + feesIn)
    (hout : r'.amountOut.toNat + feesOut' ≤ r.amountOut.toNat + feesOut) :
    Covered r' feesIn' feesOut' := by
  have hinput := h.input
  have houtput := h.output
  constructor
  · exact hfees
  · rw [hbalanceOut]
    omega
  · rw [hbalanceIn, hbalanceOut]
    refine Nat.le_trans h.product (Nat.mul_le_mul ?_ ?_)
    · omega
    · omega

theorem solvedOutput {s : State} {amount : UInt64}
    (h : Arithmetic.quoteExactIn s.registers.balanceIn s.registers.balanceOut
      s.registers.amountIn = .ok amount) :
    Covered (s.setAmount .output amount).registers 0 0 := by
  rcases Arithmetic.product_le_of_quoteExactIn h with ⟨hlt, hproduct⟩
  exact ⟨Nat.zero_le _, hlt, hproduct⟩

theorem solvedInput {s : State} {amount : UInt64}
    (h : Arithmetic.quoteExactOut s.registers.balanceIn s.registers.balanceOut
      s.registers.amountOut = .ok amount) :
    Covered (s.setAmount .input amount).registers 0 0 := by
  rcases Arithmetic.product_le_of_quoteExactOut h with ⟨hlt, hproduct⟩
  exact ⟨Nat.zero_le _, hlt, hproduct⟩

end Covered

/-!
# The invariant
-/

/-- Between records: nothing is owed yet, and a solved trade is covered. -/
structure Sound (setup : Setup) (s : State) : Prop where
  restores : Restores setup s.settlements s
  covered : s.solved = true → Covered s.registers 0 0
  unowed : s.protocolFees = []

/-- Between settlements: the trade is covered with all that is owed so far. -/
structure Settling (setup : Setup) (works : List Settlement) (s : State) : Prop where
  restores : Restores setup works s
  covered : Covered s.registers (owed s.protocolFees setup.query.assetIn)
    (owed s.protocolFees setup.query.assetOut)

namespace Sound

variable {setup : Setup} {s s' : State}

theorem initial (store : Order.Store) : Sound setup (State.initial setup.query store) where
  restores := Restores.initial store
  covered h := by cases h
  unowed := rfl

theorem opening {op : Opcode} {leg : Leg} {rate : UInt64} {recipient : Option Address}
    (hsolved : s.solved = false) (h : Opening setup op leg rate recipient s s')
    (hs : Sound setup s) : Sound setup s' := by
  have hrestores := hs.restores.opening h
  have hunsolved : ¬ s.solved = true := by rw [hsolved]; decide
  cases h with
  | charged hleg hfixed hnet hfee => exact ⟨hrestores, fun h => absurd h hunsolved, hs.unowed⟩
  | raised hleg hfixed hgross => exact ⟨hrestores, fun h => absurd h hunsolved, hs.unowed⟩
  | postponed hleg => exact ⟨hrestores, fun h => absurd h hunsolved, hs.unowed⟩

theorem change {i : Instruction} (hexternal : i.opcode ≠ .extruction)
    (hgas : i.opcode ≠ .baseFeeAdjust) (h : Change setup i s s') (hs : Sound setup s) :
    Sound setup s' := by
  have hrestores := hs.restores.change hexternal h
  cases h with
  | idle hidle => exact ⟨hrestores, hs.covered, hs.unowed⟩
  | moved hjump next => exact ⟨hrestores, hs.covered, hs.unowed⟩
  | repriced hi hsolved =>
      refine ⟨hrestores, fun h => ?_, hs.unowed⟩
      exact absurd (hsolved.symm.trans h) (by decide)
  | loaded hsolved hin hout =>
      refine ⟨hrestores, fun h => ?_, hs.unowed⟩
      exact absurd (hsolved.symm.trans h) (by decide)
  | faded hsolved hin hout =>
      refine ⟨hrestores, fun h => ?_, hs.unowed⟩
      exact absurd (hsolved.symm.trans h) (by decide)
  | offered hsolved =>
      refine ⟨hrestores, fun h => ?_, hs.unowed⟩
      exact absurd (hsolved.symm.trans h) (by decide)
  | opened hi hsolved hopening => exact hs.opening hsolved hopening
  | held hsolved => exact ⟨hrestores, hs.covered, hs.unowed⟩
  | solvedOutput hsolved hfixed hquote =>
      exact ⟨hrestores, fun _ => Covered.solvedOutput hquote, hs.unowed⟩
  | solvedInput hsolved hfixed hquote =>
      exact ⟨hrestores, fun _ => Covered.solvedInput hquote, hs.unowed⟩
  | lowered hsolved hfixed hle =>
      refine ⟨hrestores, fun h => ?_, hs.unowed⟩
      have hnat := UInt64.le_iff_toNat_le.mp hle
      exact (hs.covered hsolved).mono rfl rfl (Nat.zero_le _) (Nat.le_refl _) hnat
  | lifted hsolved hfixed hle =>
      refine ⟨hrestores, fun h => ?_, hs.unowed⟩
      have hnat := UInt64.le_iff_toNat_le.mp hle
      exact (hs.covered hsolved).mono rfl rfl (Nat.zero_le _) hnat (Nat.le_refl _)
  | compensated hsolved => exact absurd rfl hgas
  | marked hclear =>
      refine ⟨hrestores, ?_, ?_⟩
      · rw [State.solved_write, State.registers_write]
        exact hs.covered
      · rw [State.protocolFees_write]
        exact hs.unowed
  | capped => exact ⟨hrestores, hs.covered, hs.unowed⟩
  | answered => exact absurd rfl hexternal

theorem finish (hsolved : s.solved = true) (hs : Sound setup s) :
    Settling setup s.settlements { s with settlements := [] } := by
  have hcovered := hs.covered hsolved
  refine ⟨hs.restores, ?_⟩
  simp only [hs.unowed]
  exact hcovered

end Sound

namespace Settling

variable {setup : Setup} {s s' : State}

theorem write {work : Settlement} {rest : List Settlement} {mode : ExecutionMode}
    {change : Order.Journal → Order.Journal}
    (hrestores : Restores setup rest (s.write mode change))
    (hs : Settling setup (work :: rest) s) : Settling setup rest (s.write mode change) := by
  refine ⟨hrestores, ?_⟩
  rw [State.registers_write, State.protocolFees_write]
  exact hs.covered

/-- A settled fee on the input is at most what it adds to the amount, and one on
the output at most what it takes off. -/
theorem fee_le {leg : Leg} {rate amount fee settled : UInt64} {carried : Option UInt64}
    (hcarried : ∀ requested, leg = .output → carried = some requested → requested ≤ amount)
    (h : settledFee leg rate carried amount = .ok (fee, settled)) :
    match leg with
    | .input => settled.toNat = amount.toNat + fee.toNat
    | .output => settled.toNat + fee.toNat = amount.toNat := by
  cases leg with
  | input =>
      cases carried with
      | none =>
          simp only [settledFee, bind_eq_ok_iff, Arithmetic.difference_eq_ok_iff, pure_eq_ok_iff,
            Prod.mk.injEq] at h
          rcases h with ⟨gross, -, difference, ⟨hle, rfl⟩, rfl, rfl⟩
          have hsum := Arithmetic.toNat_sub_add hle
          show gross.toNat = amount.toNat + (gross - amount).toNat
          omega
      | some carriedFee =>
          simp only [settledFee, bind_eq_ok_iff, Arithmetic.gain_eq_ok_iff, pure_eq_ok_iff,
            Prod.mk.injEq] at h
          rcases h with ⟨gross, hgross, rfl, rfl⟩
          exact hgross
  | output =>
      cases carried with
      | none =>
          simp only [settledFee, bind_eq_ok_iff, Arithmetic.difference_eq_ok_iff, pure_eq_ok_iff,
            Prod.mk.injEq] at h
          rcases h with ⟨net, -, difference, ⟨hle, rfl⟩, rfl, rfl⟩
          have hsum := Arithmetic.toNat_sub_add hle
          show net.toNat + (amount - net).toNat = amount.toNat
          omega
      | some requested =>
          simp only [settledFee, pure_eq_ok_iff, Prod.mk.injEq] at h
          rcases h with ⟨rfl, rfl⟩
          have hle := UInt64.le_iff_toNat_le.mp (hcarried requested rfl rfl)
          have hlt : amount.toNat - requested.toNat < UInt64.size :=
            Nat.lt_of_le_of_lt (Nat.sub_le _ _) amount.toNat_lt
          show requested.toNat + (UInt64.ofNat (amount.toNat - requested.toNat)).toNat =
            amount.toNat
          rw [UInt64.toNat_ofNat_of_lt' hlt]
          omega

theorem fee {op : Opcode} {leg : Leg} {rate fee amount : UInt64} {carried : Option UInt64}
    {recipient : Option Address} {rest : List Settlement}
    (hdistinct : setup.query.asset .input ≠ setup.query.asset .output)
    (hfee : settledFee leg rate carried (s.registers.amount leg) = .ok (fee, amount))
    (hs : Settling setup (.fee op leg rate carried recipient :: rest) s) :
    Covered (s.setAmount leg amount).registers
      (owed (s.protocolFees ++ owing setup leg recipient fee) setup.query.assetIn)
      (owed (s.protocolFees ++ owing setup leg recipient fee) setup.query.assetOut) := by
  have hsettled := fee_le (fun requested => hs.restores.requested_le) hfee
  have hinput := hs.covered.input
  rw [owed_append, owed_append]
  cases leg with
  | input =>
      have hsettled : amount.toNat = s.registers.amountIn.toNat + fee.toNat := hsettled
      have howedIn := owed_owing_le setup .input recipient fee setup.query.assetIn
      have howedOut : owed (owing setup .input recipient fee) setup.query.assetOut = 0 :=
        owed_owing_of_ne hdistinct recipient fee
      refine hs.covered.mono rfl rfl ?_ ?_ ?_
      · show _ ≤ amount.toNat
        omega
      · show _ ≤ amount.toNat + _
        omega
      · show s.registers.amountOut.toNat + _ ≤ _
        omega
  | output =>
      have hsettled : amount.toNat + fee.toNat = s.registers.amountOut.toNat := hsettled
      have howedOut := owed_owing_le setup .output recipient fee setup.query.assetOut
      have howedIn : owed (owing setup .output recipient fee) setup.query.assetIn = 0 :=
        owed_owing_of_ne hdistinct.symm recipient fee
      refine hs.covered.mono rfl rfl ?_ ?_ ?_
      · show _ ≤ s.registers.amountIn.toNat
        omega
      · show _ ≤ s.registers.amountIn.toNat + _
        omega
      · show amount.toNat + _ ≤ _
        omega

theorem settle {work : Settlement} {rest : List Settlement}
    (hdistinct : setup.query.assetIn ≠ setup.query.assetOut) (h : Settled setup work s s')
    (hs : Settling setup (work :: rest) s) : Settling setup rest s' := by
  have hrestores := hs.restores.settle h
  cases h with
  | stored hin hout => exact hs.write hrestores
  | shifted => exact hs.write hrestores
  | sold => exact hs.write hrestores
  | charged hfee => exact ⟨hrestores, hs.fee hdistinct hfee⟩
  | filled hcap => exact hs.write hrestores

end Settling

/-- Runs without gas compensation and external logic keep trades covered. -/
theorem soundInvariant {setup : Setup} (hdistinct : setup.query.assetIn ≠ setup.query.assetOut)
    (hplain : ∀ r ∈ setup.program.records, r.opcode ≠ .baseFeeAdjust ∧ r.opcode ≠ .extruction) :
    Invariant setup (Sound setup) (Settling setup) where
  advance _ _ hs := ⟨hs.restores, hs.covered, hs.unowed⟩
  release hs := ⟨hs.restores, hs.covered, hs.unowed⟩
  opening hsolved h hs := hs.opening hsolved h
  change hr h hs := hs.change (hplain _ hr).2 (hplain _ hr).1 h
  finish hsolved hs := hs.finish hsolved
  settle h hs := hs.settle hdistinct h

/-- However a program prices a trade, and whatever fees it stacks, the product
of the maker's balances does not shrink, even after all protocol fees are paid. -/
theorem product_le_after_fees {program : Program}
    (hplain : ∀ r ∈ program.records, r.opcode ≠ .baseFeeAdjust ∧ r.opcode ≠ .extruction)
    {query : Query} {environment : Environment} (external : ExternalLogic) {limit : UInt32}
    {store : Order.Store} {o : Outcome}
    (h : quote program query environment limit store = .ok o ∨
      (swap program query environment external limit store).1 = .ok o) :
    owed o.protocolFees query.assetIn ≤ o.amountIn.toNat ∧
      o.amountOut.toNat + owed o.protocolFees query.assetOut < o.registers.balanceOut.toNat ∧
      o.registers.balanceIn.toNat * o.registers.balanceOut.toNat ≤
        (o.registers.balanceIn.toNat + o.amountIn.toNat - owed o.protocolFees query.assetIn) *
          (o.registers.balanceOut.toNat - o.amountOut.toNat -
            owed o.protocolFees query.assetOut) := by
  have hcovered : Covered o.registers (owed o.protocolFees query.assetIn)
      (owed o.protocolFees query.assetOut) := by
    rcases h with hquote | hswap
    · rcases quote_eq_ok_iff.mp hquote with ⟨haccepted, s, hrun, rfl⟩
      exact ((soundInvariant haccepted.distinct hplain).run hrun (Sound.initial store)).covered
    · rcases swap_eq_ok hswap with ⟨haccepted, s, hrun, rfl⟩
      exact ((soundInvariant haccepted.distinct hplain).run hrun (Sound.initial store)).covered
  exact ⟨hcovered.input, hcovered.output, hcovered.product⟩

/-- A pool with a fee of the maker between protocol fees on both legs. -/
def taxedPool : Program where
  id := .single 80
  bytes := #[]
  records := #[⟨0, .staticBalances [(.single 65, 1000000), (.single 66, 2000000)]⟩,
    ⟨83, .protocolFee .input 100 (.single 82)⟩, ⟨119, .flatFee .input 30⟩,
    ⟨123, .protocolFee .output 50 (.single 82)⟩, ⟨159, .solve⟩]

theorem product_le_after_taxed_trade :
    quote taxedPool (.simulated .input (.single 65) (.single 66) 1000)
        (Observations.atTime 0).environment 16 .empty =
      .ok ⟨⟨1000000, 2000000, 1000, 1962⟩,
        [⟨.single 82, .single 66, 10⟩, ⟨.single 82, .single 65, 10⟩], 5⟩ ∧
    10 ≤ 1000 ∧ 1962 + 10 < 2000000 ∧
      1000000 * 2000000 ≤ (1000000 + 1000 - 10) * (2000000 - 1962 - 10) := by
  have hquote : quote taxedPool (.simulated .input (.single 65) (.single 66) 1000)
      (Observations.atTime 0).environment 16 .empty =
    .ok ⟨⟨1000000, 2000000, 1000, 1962⟩,
      [⟨.single 82, .single 66, 10⟩, ⟨.single 82, .single 65, 10⟩], 5⟩ := rfl
  exact ⟨hquote, product_le_after_fees (by decide) .absent (Or.inl hquote)⟩

end Machine
end SwapPricing
