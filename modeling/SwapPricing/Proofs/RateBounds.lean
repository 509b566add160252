import Mathlib
import SwapPricing.Proofs.ConstantProduct
import SwapPricing.Proofs.Decoding
import SwapPricing.Proofs.Executed

/-!
# Rate bounds

A rate bound acts on the amounts of the moment at which it runs.  Behind it,
bounds and fees only move amounts in the maker's favour, so the final amounts
keep to it as well, unless a gas adjustment improves the price afterwards.
-/

namespace SwapPricing

namespace Operation

/-- The bound that an instruction puts on the rate. -/
def rateBound? : Instruction → Option RateBound
  | minRateAdjust bound => some bound
  | minRateRequire bound => some bound
  | _ => none

/-- Whether an instruction gives gas costs back at a base fee. -/
def compensates (baseFee : UInt64) : Instruction → Bool
  | baseFeeAdjust terms => terms.baseFee < baseFee
  | _ => false

end Operation

/-- Whether the amounts in `r` keep to a bound, of whose rates the lower asset
of the trade has the first one. -/
def RateBound.HeldBy (bound : RateBound) (query : Query) (r : Registers) : Prop :=
  let rates := query.orient bound.lower bound.higher
  r.amountOut.toNat * rates.1.toNat ≤ r.amountIn.toNat * rates.2.toNat

instance (bound : RateBound) (query : Query) (r : Registers) :
    Decidable (bound.HeldBy query r) :=
  Nat.decLe _ _

namespace RateBound.HeldBy

variable {bound : RateBound} {query : Query} {r r' : Registers}

/-- What keeps to a bound goes on doing so when the maker gets more for less. -/
theorem mono (h : bound.HeldBy query r) (hin : r.amountIn ≤ r'.amountIn)
    (hout : r'.amountOut ≤ r.amountOut) : bound.HeldBy query r' := by
  have hmore := Nat.mul_le_mul_right (query.orient bound.lower bound.higher).2.toNat
    (UInt64.le_iff_toNat_le.mp hin)
  have hless := Nat.mul_le_mul_right (query.orient bound.lower bound.higher).1.toNat
    (UInt64.le_iff_toNat_le.mp hout)
  exact Nat.le_trans hless (Nat.le_trans h hmore)

end RateBound.HeldBy

namespace Machine

open Arithmetic (mulDivFloor mulDivCeil)

theorem le_amount_max (a b : UInt64) : b ≤ max a b := by
  show b ≤ (if a ≤ b then b else a)
  split
  · exact UInt64.le_refl b
  · rename_i h
    exact UInt64.le_of_lt (UInt64.not_le.mp h)

/-!
# Setting a bound
-/

section Bounds

variable {setup : Setup} {bound : RateBound} {s s' : State}

theorem heldBy_of_minRateAdjust (h : minRateAdjust setup bound s = .ok s') :
    s'.solved = true ∧ bound.HeldBy setup.query s'.registers := by
  simp only [minRateAdjust, bind_eq_ok_iff, requireSolved_eq_ok_iff] at h
  rcases h with ⟨-, hsolved, h⟩
  unfold RateBound.HeldBy
  generalize setup.query.orient bound.lower bound.higher = rates at h ⊢
  rcases rates with ⟨rateIn, rateOut⟩
  cases hfixed : setup.query.fixed with
  | input =>
      simp only [hfixed, bind_eq_ok_iff, calculate_eq_ok_iff, Arithmetic.mulDivFloor_eq_ok_iff,
        pure_eq_ok_iff] at h
      rcases h with ⟨most, ⟨-, hmost⟩, rfl⟩
      refine ⟨hsolved, ?_⟩
      have hle : (min s.registers.amountOut most).toNat ≤ most.toNat :=
        UInt64.le_iff_toNat_le.mp Std.min_le_right
      calc (min s.registers.amountOut most).toNat * rateIn.toNat
          ≤ most.toNat * rateIn.toNat := Nat.mul_le_mul_right _ hle
        _ = s.registers.amountIn.toNat * rateOut.toNat / rateIn.toNat * rateIn.toNat := by
            rw [hmost]
        _ ≤ s.registers.amountIn.toNat * rateOut.toNat := Nat.div_mul_le_self _ _
  | output =>
      simp only [hfixed, bind_eq_ok_iff, calculate_eq_ok_iff, Arithmetic.mulDivCeil_eq_ok_iff,
        pure_eq_ok_iff] at h
      rcases h with ⟨least, ⟨hne, hleast⟩, rfl⟩
      refine ⟨hsolved, ?_⟩
      have hpos : 0 < rateOut.toNat := Nat.pos_of_ne_zero fun h => hne (UInt64.toNat_inj.mp h)
      have hle : least.toNat ≤ (max s.registers.amountIn least).toNat :=
        UInt64.le_iff_toNat_le.mp (le_amount_max _ _)
      calc s.registers.amountOut.toNat * rateIn.toNat
          ≤ rateOut.toNat * least.toNat := by
            rw [← ceilDiv_le_iff_le_mul hpos, hleast]
        _ = least.toNat * rateOut.toNat := Nat.mul_comm _ _
        _ ≤ (max s.registers.amountIn least).toNat * rateOut.toNat := Nat.mul_le_mul_right _ hle

theorem heldBy_of_minRateRequire (h : minRateRequire setup bound s = .ok s') :
    s'.solved = true ∧ bound.HeldBy setup.query s'.registers := by
  simp only [minRateRequire, bind_eq_ok_iff, requireSolved_eq_ok_iff, check_eq_ok_iff,
    pure_eq_ok_iff] at h
  rcases h with ⟨-, hsolved, -, hwithin, rfl⟩
  refine ⟨hsolved, ?_⟩
  unfold RateBound.HeldBy
  simpa [withinRate] using hwithin

theorem heldBy_of_execute {offset : Nat} {i : Instruction} (hi : i.rateBound? = some bound)
    (h : execute setup offset i s = .ok s') :
    s'.solved = true ∧ bound.HeldBy setup.query s'.registers := by
  cases i with
  | minRateAdjust given =>
      cases hi
      exact heldBy_of_minRateAdjust h
  | minRateRequire given =>
      cases hi
      exact heldBy_of_minRateRequire h
  | _ => cases hi

end Bounds

/-!
# Keeping to a bound
-/

/-- The amounts are solved and keep to a bound. -/
structure KeepsTo (setup : Setup) (bound : RateBound) (s : State) : Prop where
  solved : s.solved = true
  held : bound.HeldBy setup.query s.registers

namespace KeepsTo

variable {setup : Setup} {bound : RateBound} {s s' : State}

theorem steady (setup : Setup) (bound : RateBound) : Steady setup (KeepsTo setup bound) where
  advance _ _ hs := ⟨hs.solved, hs.held⟩
  release hs := ⟨hs.solved, hs.held⟩
  opening hunsolved _ hs := absurd (hs.solved.symm.trans hunsolved) (by decide)

theorem baseFeeAdjust_of_le {terms : GasAdjust} (hle : setup.environment.baseFee ≤ terms.baseFee)
    (h : baseFeeAdjust setup terms s = .ok s') : s' = s := by
  simp only [baseFeeAdjust, bind_eq_ok_iff, if_pos hle, pure_eq_ok_iff] at h
  rcases h with ⟨-, -, rfl⟩
  rfl

theorem execute {offset : Nat} {i : Instruction} (hexternal : i.opcode ≠ .extruction)
    (hgas : i.compensates setup.environment.baseFee = false)
    (h : Machine.execute setup offset i s = .ok s') (hs : KeepsTo setup bound s) :
    KeepsTo setup bound s' := by
  have hne : s.solved ≠ false := by rw [hs.solved]; decide
  have hchange := execute_eq_ok h
  cases hchange with
  | idle hidle => exact hs
  | moved hjump next => exact ⟨hs.solved, hs.held⟩
  | repriced hi hunsolved => exact absurd hunsolved hne
  | loaded hunsolved hin hout => exact absurd hunsolved hne
  | faded hunsolved hin hout => exact absurd hunsolved hne
  | offered hunsolved => exact absurd hunsolved hne
  | opened hi hunsolved hopening => exact absurd hunsolved hne
  | held hunsolved => exact absurd hunsolved hne
  | solvedOutput hunsolved hfixed hquote => exact absurd hunsolved hne
  | solvedInput hunsolved hfixed hquote => exact absurd hunsolved hne
  | lowered hsolved hfixed hle => exact ⟨hsolved, hs.held.mono (UInt64.le_refl _) hle⟩
  | lifted hsolved hfixed hle => exact ⟨hsolved, hs.held.mono hle (UInt64.le_refl _)⟩
  | compensated hsolved =>
      rename_i terms amount
      have hle : setup.environment.baseFee ≤ terms.baseFee :=
        UInt64.not_lt.mp (of_decide_eq_false hgas)
      rw [baseFeeAdjust_of_le hle h]
      exact hs
  | marked hclear =>
      refine ⟨?_, ?_⟩
      · rw [State.solved_write]
        exact hs.solved
      · rw [State.registers_write]
        exact hs.held
  | capped => exact ⟨hs.solved, hs.held⟩
  | answered => exact absurd rfl hexternal

theorem step {r : Record} (hexternal : r.opcode ≠ .extruction)
    (hgas : r.instruction.compensates setup.environment.baseFee = false)
    (h : Machine.step setup r s = .ok s') (hs : KeepsTo setup bound s) :
    KeepsTo setup bound s' := by
  rcases step_eq_ok h with ⟨t, henter, hexecute⟩
  exact ((steady setup bound).enter henter hs).execute hexternal hgas hexecute

/-- Without gas adjustments ahead, the rest of a run keeps to a bound. -/
theorem ran (hexternal : ∀ r ∈ setup.program.records, r.opcode ≠ .extruction) {left : Nat}
    (h : Ran setup left s s')
    (hgas : ∀ i ∈ executedFrom setup left s, i.compensates setup.environment.baseFee = false)
    (hs : KeepsTo setup bound s) : KeepsTo setup bound s' := by
  induction h with
  | finished hend => exact hs
  | stepped hr hstep hrest ih =>
      rw [executedFrom_step hr hstep] at hgas
      rcases List.forall_mem_cons.mp hgas with ⟨hfirst, hothers⟩
      exact ih hothers (hs.step (hexternal _ (Array.mem_of_getElem? hr)) hfirst hstep)

/-- A run keeps to a bound that it executes before its last gas adjustments. -/
theorem of_executedFrom (hexternal : ∀ r ∈ setup.program.records, r.opcode ≠ .extruction)
    {left : Nat} (h : Ran setup left s s') {before after : List Instruction} {i : Instruction}
    (hsplit : executedFrom setup left s = before ++ i :: after) (hi : i.rateBound? = some bound)
    (hgas : ∀ j ∈ after, j.compensates setup.environment.baseFee = false) :
    KeepsTo setup bound s' := by
  induction h generalizing before with
  | finished hend =>
      rw [executedFrom_none _ hend] at hsplit
      cases before <;> cases hsplit
  | stepped hr hstep hrest ih =>
      rw [executedFrom_step hr hstep] at hsplit
      cases before with
      | nil =>
          rcases List.cons.inj hsplit with ⟨rfl, rfl⟩
          rcases step_eq_ok hstep with ⟨entered, -, hexecute⟩
          rcases heldBy_of_execute hi hexecute with ⟨hsolved, hheld⟩
          exact KeepsTo.ran hexternal hrest hgas ⟨hsolved, hheld⟩
      | cons first before =>
          rcases List.cons.inj hsplit with ⟨-, hsplit⟩
          exact ih hsplit

end KeepsTo

/-!
# Settling
-/

/-- From `r` to `r'` the amounts have only moved in the maker's favour. -/
structure Favoured (r r' : Registers) : Prop where
  input : r.amountIn ≤ r'.amountIn
  output : r'.amountOut ≤ r.amountOut
  balanceOut : r'.balanceOut = r.balanceOut

theorem Favoured.refl (r : Registers) : Favoured r r :=
  ⟨UInt64.le_refl _, UInt64.le_refl _, rfl⟩

/-- A settlement moves no amount in the taker's favour. -/
theorem favoured_of_settled {setup : Setup} {work : Settlement} {rest : List Settlement}
    {s s' : State} (hs : Restores setup (work :: rest) s) (h : Settled setup work s s') :
    Favoured s.registers s'.registers := by
  cases h with
  | stored hin hout =>
      rw [State.registers_write]
      exact .refl _
  | shifted =>
      rw [State.registers_write]
      exact .refl _
  | sold =>
      rw [State.registers_write]
      exact .refl _
  | charged hfee =>
      rename_i op leg rate fee amount carried recipient
      have hsettled := Settling.fee_le (fun requested => hs.requested_le) hfee
      cases leg with
      | input =>
          have hsettled : amount.toNat = s.registers.amountIn.toNat + fee.toNat := hsettled
          refine ⟨?_, UInt64.le_refl _, rfl⟩
          exact UInt64.le_iff_toNat_le.mpr (hsettled ▸ Nat.le_add_right _ _)
      | output =>
          have hsettled : amount.toNat + fee.toNat = s.registers.amountOut.toNat := hsettled
          refine ⟨UInt64.le_refl _, ?_, rfl⟩
          exact UInt64.le_iff_toNat_le.mpr (hsettled ▸ Nat.le_add_right _ _)
  | filled hcap =>
      rw [State.registers_write]
      exact .refl _

/-- Between settlements: the fixed amount leads back to the query's, and the
registers are as demanded. -/
structure Demands (setup : Setup) (P : Registers → Prop) (works : List Settlement) (s : State) :
    Prop where
  restores : Restores setup works s
  met : P s.registers

theorem Demands.settle {setup : Setup} {P : Registers → Prop}
    (hkeeps : ∀ {r r' : Registers}, Favoured r r' → P r → P r') {work : Settlement}
    {rest : List Settlement} {s s' : State} (h : Settled setup work s s')
    (hs : Demands setup P (work :: rest) s) : Demands setup P rest s' :=
  ⟨hs.restores.settle h, hkeeps (favoured_of_settled hs.restores h) hs.met⟩

/-- What holds of the registers behind the last record, and goes on holding in
the maker's favour, holds at the end of a run. -/
theorem registers_of_run {setup : Setup} {Running : State → Prop} {P : Registers → Prop}
    (hkeeps : ∀ {r r' : Registers}, Favoured r r' → P r → P r') (hsteady : Steady setup Running)
    (hfinish : ∀ {s : State}, s.solved = true → Running s → P s.registers)
    (hexternal : ∀ r ∈ setup.program.records, r.opcode ≠ .extruction) {limit : UInt32}
    {store : Order.Store} {s : State} (h : run setup limit store = .ok s)
    (hran : ∀ {stepped : State},
      Ran setup limit.toNat (State.initial setup.query store) stepped → Running stepped) :
    P s.registers := by
  rcases run_eq_ok h with ⟨stepped, finished, hsteps, hfinished, hsettle⟩
  have hrestores := (Restores.invariant hexternal).ran (ran_of_runSteps hsteps)
    (Restores.initial store)
  have hunwinds := ((Restores.invariant hexternal).finishSteps hfinished hrestores).2
  rcases hsteady.finishSteps hfinished (hran (ran_of_runSteps hsteps)) with ⟨hsolved, hrunning⟩
  have hmet : P finished.registers := hfinish hsolved hrunning
  have hstart : Demands setup P finished.settlements { finished with settlements := [] } :=
    ⟨hunwinds, hmet⟩
  exact (settleAll_keeps (Demands.settle hkeeps) hsettle hstart).met

/-- A run ends within every bound behind which it gives no gas costs back. -/
theorem heldBy_of_run {setup : Setup}
    (hexternal : ∀ r ∈ setup.program.records, r.opcode ≠ .extruction) {limit : UInt32}
    {store : Order.Store} {s : State} (h : run setup limit store = .ok s)
    {before after : List Instruction} {i : Instruction} {bound : RateBound}
    (hsplit : executed setup limit store = before ++ i :: after)
    (hi : i.rateBound? = some bound)
    (hgas : ∀ j ∈ after, j.compensates setup.environment.baseFee = false) :
    bound.HeldBy setup.query s.registers := by
  rw [executed_eq] at hsplit
  refine registers_of_run (P := bound.HeldBy setup.query) ?_ (KeepsTo.steady setup bound) ?_
    hexternal h ?_
  · exact fun hfavoured hheld => hheld.mono hfavoured.input hfavoured.output
  · exact fun _ hkeeps => hkeeps.held
  · exact fun hran => .of_executedFrom hexternal hran hsplit hi hgas

/-!
# Quotes and swaps
-/

/-- The registers of `o` keep to every bound that the run executes and behind
which it gives no gas costs back. -/
def BoundsHeld (setup : Setup) (limit : UInt32) (store : Order.Store) (o : Outcome) : Prop :=
  ∀ (before after : List Instruction) (i : Instruction) (bound : RateBound),
    executed setup limit store = before ++ i :: after → i.rateBound? = some bound →
    (∀ j ∈ after, j.compensates setup.environment.baseFee = false) →
    bound.HeldBy setup.query o.registers

/-- Rate bounds hold on the final amounts, with all fees settled. -/
theorem rate_bounds_held {program : Program}
    (hexternal : ∀ r ∈ program.records, r.opcode ≠ .extruction) (query : Query)
    (environment : Environment) (external : ExternalLogic) (limit : UInt32) (store : Order.Store)
    (o : Outcome) :
    (quote program query environment limit store = .ok o →
      BoundsHeld ⟨program, query, environment, environment.quoteExternal⟩ limit store o) ∧
    ((swap program query environment external limit store).1 = .ok o →
      BoundsHeld ⟨program, query, environment, external⟩ limit store o) := by
  constructor
  · intro hquote before after i bound hsplit hi hgas
    rcases quote_eq_ok_iff.mp hquote with ⟨-, s, hrun, rfl⟩
    exact heldBy_of_run hexternal hrun hsplit hi hgas
  · intro hswap before after i bound hsplit hi hgas
    rcases swap_eq_ok hswap with ⟨-, s, hrun, rfl⟩
    exact heldBy_of_run hexternal hrun hsplit hi hgas

/-- A pool with fees on both legs, two bounds, and gas costs given back only in
front of the second one. -/
def boundedPool : Program where
  id := .single 80
  bytes := #[]
  records := #[⟨0, .flatFee .input 30⟩, ⟨4, .protocolFee .output 50 (.single 82)⟩,
    ⟨40, .staticBalances [(.single 65, 1000000), (.single 66, 2000000)]⟩, ⟨122, .solve⟩,
    ⟨124, .baseFeeAdjust ⟨10, 100, 1000000000000000000, 200⟩⟩, ⟨152, .minRateAdjust ⟨2, 3⟩⟩]

/-- The bound of the pool binds: its output is worth less than half as much
again as its input. -/
theorem rate_bound_held_behind_gas :
    quote boundedPool (.simulated .input (.single 65) (.single 66) 1000)
        { Observations.atTime 100 with baseFee := 11 }.environment 16 .empty =
      .ok ⟨⟨1000000, 2000000, 1000, 1487⟩, [⟨.single 82, .single 66, 8⟩], 6⟩ ∧
    RateBound.HeldBy ⟨2, 3⟩ (.simulated .input (.single 65) (.single 66) 1000)
      ⟨1000000, 2000000, 1000, 1487⟩ := by
  have hquote : quote boundedPool (.simulated .input (.single 65) (.single 66) 1000)
      { Observations.atTime 100 with baseFee := 11 }.environment 16 .empty =
    .ok ⟨⟨1000000, 2000000, 1000, 1487⟩, [⟨.single 82, .single 66, 8⟩], 6⟩ := rfl
  refine ⟨hquote, ?_⟩
  refine (rate_bounds_held (by decide) _ _ .absent _ _ _).1 hquote
    (boundedPool.records.toList.map Record.instruction).dropLast [] (.minRateAdjust ⟨2, 3⟩) _
    ?_ rfl (by simp)
  rfl

def loosenedBytes : List UInt8 :=
  Operation.recorded 7 (.staticBalances [(.single 65, 1000), (.single 66, 1000000)]) ++
    Operation.recorded 10 .solve ++ Operation.recorded 23 (.minRateAdjust ⟨1, 3⟩) ++
    Operation.recorded 25 (.baseFeeAdjust ⟨10, 100, 1000000000000000000, 200⟩) ++
    Operation.recorded 24 (.minRateRequire ⟨1, 4⟩)

/-- A pool that gives gas costs back between a bound and a looser one. -/
def loosenedPool : Program where
  id := .single 80
  bytes := loosenedBytes.toArray
  records := #[⟨0, .staticBalances [(.single 65, 1000), (.single 66, 1000000)]⟩, ⟨82, .solve⟩,
    ⟨84, .minRateAdjust ⟨1, 3⟩⟩, ⟨102, .baseFeeAdjust ⟨10, 100, 1000000000000000000, 200⟩⟩,
    ⟨130, .minRateRequire ⟨1, 4⟩⟩]

/-- Behind the last bound no gas costs are given back, but the first bound is
exceeded by what was given back in front of the last. -/
theorem rate_bound_exceeded_before_gas :
    Program.decode .full (.single 80) loosenedBytes = .ok loosenedPool ∧
    quote loosenedPool (.simulated .input (.single 65) (.single 66) 1000)
        { Observations.atTime 100 with baseFee := 11 }.environment 16 .empty =
      .ok ⟨⟨1000, 1000000, 1000, 3060⟩, [], 5⟩ ∧
    executed ⟨loosenedPool, .simulated .input (.single 65) (.single 66) 1000,
        { Observations.atTime 100 with baseFee := 11 }.environment, .absent⟩ 16 .empty =
      [.staticBalances [(.single 65, 1000), (.single 66, 1000000)], .solve,
        .minRateAdjust ⟨1, 3⟩, .baseFeeAdjust ⟨10, 100, 1000000000000000000, 200⟩,
        .minRateRequire ⟨1, 4⟩] ∧
    ¬ RateBound.HeldBy ⟨1, 3⟩ (.simulated .input (.single 65) (.single 66) 1000)
      ⟨1000, 1000000, 1000, 3060⟩ := by
  refine ⟨?_, rfl, rfl, by decide⟩
  cbv

end Machine
end SwapPricing
