import Mathlib
import SwapPricing.Proofs.Decoding
import SwapPricing.Proofs.Executed
import SwapPricing.Proofs.Offsets
import SwapPricing.Proofs.Refusals

/-!
# Failures of decoded programs

What decoding checks is enough for a run: whatever the host, the order state and
external logic answer, no step of a decoded program leaves a width that nothing
guards, and what it fails with is one of the failures that are meant to happen.
-/

namespace SwapPricing

namespace Machine

open Arithmetic (bps wad wadWord maxAmount)
open MathError (OfAmounts)

/-- The failures that a run may end with.  Only an auction of the output divides by
what may be zero, a constant valuation was checked when it was decoded, and only
external logic, by an answer that is in the trace, aims off the records. -/
def Foreseen (program : Program) (trace : List Event) : RunError → Prop
  | .malformed reason => ∃ target outcome offset, .answered target outcome ∈ trace ∧
      outcome.jump = some offset ∧ program.indexOf offset.toNat = .error reason
  | .arithmetic op reason =>
      reason.OfAmounts ∨ reason = .divisionByZero ∧ op = .auction .output
  | .guard op failure => ∀ valuation, failure = .invalidValuation valuation → op ≠ .valuationStatic
  | .countExhausted => False
  | _ => True

theorem Foreseen.mono {program : Program} {trace more : List Event} (h : trace ⊆ more)
    (e : RunError) (he : Foreseen program trace e) : Foreseen program more e := by
  cases e with
  | malformed reason =>
      rcases he with ⟨target, outcome, offset, hmem, hjump⟩
      exact ⟨target, outcome, offset, h hmem, hjump⟩
  | _ => exact he

/-!
# Parts of instructions
-/

section Parts

variable {program : Program} {trace : List Event} {s : State}

theorem failsOnly_calculate {α : Type} {op : Opcode} {x : Except MathError α}
    (h : FailsOnly OfAmounts x) : FailsOnly (Foreseen program trace) (calculate op x) := by
  cases x with
  | ok a => exact .ok a
  | error reason => exact .error (Or.inl (h reason rfl))

theorem failsOnly_check {op : Opcode} {failure : GuardFailure} {p : Prop} [Decidable p]
    (h : op ≠ .valuationStatic) : FailsOnly (Foreseen program trace) (check op failure p) :=
  .ite (fun _ => .ok _) fun _ => .error fun _ _ => h

theorem failsOnly_demand {α : Type} {op : Opcode} {failure : GuardFailure}
    {x : Option α} (h : op ≠ .valuationStatic) :
    FailsOnly (Foreseen program trace) (demand op failure x) := by
  cases x with
  | none => exact .error fun _ _ => h
  | some a => exact .ok a

theorem failsOnly_requireUnsolved (op : Opcode) :
    FailsOnly (Foreseen program trace) (s.requireUnsolved op) :=
  .ite (fun _ => .error trivial) fun _ => .ok _

theorem failsOnly_requireSolved (op : Opcode) :
    FailsOnly (Foreseen program trace) (s.requireSolved op) :=
  .ite (fun _ => .ok _) fun _ => .error trivial

theorem failsOnly_jump {destination : UInt16}
    (h : ∃ index, program.indexOf destination.toNat = .ok index) :
    FailsOnly (Foreseen program trace) (s.jump program destination) := by
  rcases h with ⟨index, hindex⟩
  unfold State.jump
  rw [hindex]
  exact .ok _

end Parts

/-!
# Instructions
-/

section Instructions

variable {setup : Setup} {trace : List Event} {s : State}

theorem failsOnly_openFee {op : Opcode} {leg : Leg} {rate : UInt64} {recipient : Option Address}
    (h : rate.toNat < bps) :
    FailsOnly (Foreseen setup.program trace) (openFee setup op leg rate recipient s) := by
  refine .bind (failsOnly_requireUnsolved op) fun _ _ => ?_
  cases leg with
  | input =>
      cases setup.query.fixed with
      | input =>
          refine .bind (failsOnly_calculate (Arithmetic.failsOnly_deductRate _ h)) fun net hnet => ?_
          have hle := Arithmetic.deductRate_le (calculate_eq_ok_iff.mp hnet)
          exact .bind (failsOnly_calculate (Arithmetic.failsOnly_difference hle)) fun _ _ => .ok _
      | output => exact .ok _
  | output =>
      cases setup.query.fixed with
      | input => exact .ok _
      | output =>
          exact .bind (failsOnly_calculate (Arithmetic.failsOnly_grossUp _ h)) fun _ _ => .ok _

theorem failsOnly_takerShare (asset : AssetId) (least : UInt64) :
    FailsOnly (Foreseen setup.program trace) (takerShare setup asset least s) := by
  unfold takerShare
  refine .ite (fun _ => .error fun _ _ => by decide) fun hsupply => ?_
  refine .bind (failsOnly_calculate (failsOnly_supplyShare _ hsupply)) fun share _ => ?_
  exact .bind (failsOnly_check (by decide)) fun _ _ => .ok _

/-- Looking up both balances fails only where one of them is not listed. -/
theorem failsOnly_prices {op : Opcode} (hop : op ≠ .valuationStatic)
    (priceIn priceOut : Option UInt64) (priced : UInt64 → UInt64 → State) :
    FailsOnly (Foreseen setup.program trace) (do
      s.requireUnsolved op
      let balanceIn ← demand op .assetNotPriced priceIn
      let balanceOut ← demand op .assetNotPriced priceOut
      return priced balanceIn balanceOut) := by
  refine .bind (failsOnly_requireUnsolved op) fun _ _ => ?_
  refine .bind (failsOnly_demand hop) fun balanceIn _ => ?_
  exact .bind (failsOnly_demand hop) fun balanceOut _ => .ok _

theorem failsOnly_solve : FailsOnly (Foreseen setup.program trace) (solve setup s) := by
  refine .bind (failsOnly_requireUnsolved _) fun _ _ => ?_
  refine .bind (failsOnly_calculate ?_) fun amount _ => .ok _
  cases setup.query.fixed with
  | input => exact Arithmetic.failsOnly_quoteExactIn _ _ _
  | output => exact Arithmetic.failsOnly_quoteExactOut _ _ _

theorem failsOnly_grow (op : Opcode) (deltaIn deltaOut : UInt64) :
    FailsOnly (Foreseen setup.program trace) (grow op deltaIn deltaOut s) := by
  refine .bind (failsOnly_requireUnsolved _) fun _ _ => ?_
  refine .bind (failsOnly_calculate (Arithmetic.failsOnly_gain _ _)) fun balanceIn _ => ?_
  exact .bind (failsOnly_calculate (Arithmetic.failsOnly_gain _ _)) fun balanceOut _ => .ok _

theorem failsOnly_offsetNow (period : UInt32) (side : Side) :
    FailsOnly (Foreseen setup.program trace) (offsetNow setup period side s) := by
  rcases exists_offsetNow setup period side s with ⟨left, hleft, -⟩
  exact .of_eq_ok hleft

theorem failsOnly_decay (period : UInt32) :
    FailsOnly (Foreseen setup.program trace) (decay setup period s) := by
  refine .bind (failsOnly_requireUnsolved _) fun _ _ => ?_
  refine .bind (failsOnly_offsetNow _ _) fun restored _ => ?_
  refine .bind (failsOnly_offsetNow _ _) fun locked _ => ?_
  refine .bind (failsOnly_calculate (Arithmetic.failsOnly_gain _ _)) fun balanceIn _ => ?_
  exact .bind (failsOnly_calculate (Arithmetic.failsOnly_drain _ _)) fun balanceOut _ => .ok _

/-- Growing the balance of the output divides by the factor, which may be zero. -/
theorem failsOnly_auction (leg : Leg) (terms : Auction) :
    FailsOnly (Foreseen setup.program trace) (auction setup leg terms s) := by
  refine .bind (failsOnly_requireUnsolved _) fun _ _ => ?_
  refine .bind ?_ fun factor _ => ?_
  · refine .bind (failsOnly_check nofun) fun _ _ => ?_
    exact failsOnly_calculate (Arithmetic.failsOnly_wadPower _ _)
  · cases leg with
    | input =>
        have hwad : wadWord ≠ 0 := by decide
        exact .bind (failsOnly_calculate (Arithmetic.failsOnly_mulDivCeil _ _ hwad))
          fun balanceIn _ => .ok _
    | output =>
        refine .bind ?_ fun balanceOut _ => .ok _
        by_cases hfactor : factor = 0
        · unfold Arithmetic.mulDivFloor
          rw [if_pos hfactor]
          exact .error (Or.inr ⟨rfl, rfl⟩)
        · exact failsOnly_calculate (Arithmetic.failsOnly_mulDivFloor _ _ hfactor)

theorem failsOnly_sale {terms : Sale} (h : Operation.InRange (.twap terms)) (offset : UInt64) :
    FailsOnly (Foreseen setup.program trace) (sale setup offset terms s) := by
  rcases h with ⟨hduration, hsold, -⟩
  refine .bind (failsOnly_requireUnsolved _) fun _ _ => ?_
  refine .bind (failsOnly_check (by decide)) fun _ hstart => ?_
  have hdifference := Arithmetic.failsOnly_difference (check_eq_ok_iff.mp hstart)
  refine .bind (failsOnly_calculate hdifference) fun elapsed _ => ?_
  rcases exists_unlocked hduration elapsed.toNat with ⟨released, hreleased⟩
  refine .bind (failsOnly_calculate (.of_eq_ok hreleased)) fun released _ => ?_
  refine .bind (failsOnly_check (by decide)) fun _ _ => ?_
  exact .bind (failsOnly_calculate (failsOnly_askedFor hsold _ _ _)) fun balanceIn _ => .ok _

theorem failsOnly_progressiveFee {leg : Leg} {terms : ProgressiveFee}
    (h : terms.cap.toNat < bps) :
    FailsOnly (Foreseen setup.program trace) (progressiveFee setup leg terms s) := by
  rcases Arithmetic.exists_progressiveRate terms.base.toUInt64 terms.slope.toUInt64
    terms.cap.toUInt64 (s.registers.amount setup.query.fixed)
    (s.registers.balance setup.query.fixed) with ⟨rate, hrate⟩
  refine .bind (failsOnly_calculate (.of_eq_ok hrate)) fun own hown => ?_
  have hle := Arithmetic.progressiveRate_le (calculate_eq_ok_iff.mp hown)
  exact failsOnly_openFee (Nat.lt_of_le_of_lt hle h)

theorem failsOnly_protocolFee {leg : Leg} {rate : UInt16} (h : rate.toNat < bps)
    (recipient : Address) :
    FailsOnly (Foreseen setup.program trace) (protocolFee setup leg rate recipient s) := by
  cases leg with
  | input => exact .bind (failsOnly_requireUnsolved _) fun _ _ => .ok _
  | output => exact failsOnly_openFee h

theorem orient_of_both {α : Type} {P : α → Prop} (query : Query) {lower higher : α}
    (h : P lower ∧ P higher) :
    P (query.orient lower higher).1 ∧ P (query.orient lower higher).2 := by
  unfold Query.orient
  split
  · exact h
  · exact h.symm

theorem failsOnly_minRateAdjust {bound : RateBound} (h : bound.lower ≠ 0 ∧ bound.higher ≠ 0) :
    FailsOnly (Foreseen setup.program trace) (minRateAdjust setup bound s) := by
  have hrates := orient_of_both (P := (· ≠ 0)) setup.query h
  refine .bind (failsOnly_requireSolved _) fun _ _ => ?_
  cases setup.query.fixed with
  | input =>
      exact .bind (failsOnly_calculate (Arithmetic.failsOnly_mulDivFloor _ _ hrates.1))
        fun most _ => .ok _
  | output =>
      exact .bind (failsOnly_calculate (Arithmetic.failsOnly_mulDivCeil _ _ hrates.2))
        fun least _ => .ok _

theorem failsOnly_minRateRequire (bound : RateBound) :
    FailsOnly (Foreseen setup.program trace) (minRateRequire setup bound s) := by
  refine .bind (failsOnly_requireSolved _) fun _ _ => ?_
  exact .bind (failsOnly_check (by decide)) fun _ _ => .ok _

/-- A valuation above zero and below one leaves such a valuation to the other asset. -/
theorem valid_complement {v : UInt64} (h : v ≠ 0 ∧ v < wadWord) :
    wadWord - v ≠ 0 ∧ wadWord - v < wadWord := by
  have hpos := Arithmetic.toNat_ne_zero h.1
  have hlt := UInt64.lt_iff_toNat_lt.mp h.2
  have hsum := Arithmetic.toNat_sub_add (UInt64.le_of_lt h.2)
  rw [UInt64.lt_iff_toNat_lt]
  refine ⟨?_, by omega⟩
  intro hzero
  rw [hzero, UInt64.toNat_zero] at hsum
  omega

theorem failsOnly_revalue {op : Opcode} {valuation : UInt64} {maxDelta : Option UInt16}
    (h : op = .valuationStatic → valuation ≠ 0 ∧ valuation < wadWord) :
    FailsOnly (Foreseen setup.program trace) (revalue setup op valuation maxDelta s) := by
  unfold revalue
  refine .bind ?_ fun _ hvaluation => ?_
  · refine .ite (fun _ => .ok _) fun hfailed => .error ?_
    intro _ _ hop
    exact hfailed (h hop)
  · have hvalid := check_eq_ok_iff.mp hvaluation
    have hle : valuation ≤ wadWord := UInt64.le_of_lt hvalid.2
    refine .bind (failsOnly_calculate (Arithmetic.failsOnly_difference hle))
      fun complement hcomplement => ?_
    rcases Arithmetic.difference_eq_ok_iff.mp (calculate_eq_ok_iff.mp hcomplement) with ⟨-, rfl⟩
    rcases (orient_of_both (P := fun v => v ≠ 0 ∧ v < wadWord) setup.query
      ⟨hvalid, valid_complement hvalid⟩).1 with ⟨hpos, hlt⟩
    refine .bind (failsOnly_calculate (Arithmetic.failsOnly_rebalance _ _ hpos
      (UInt64.lt_iff_toNat_lt.mp hlt))) fun fair _ => ?_
    cases maxDelta with
    | none => exact .ok _
    | some delta =>
        refine .bind (failsOnly_calculate (Arithmetic.failsOnly_clampDelta _ _ _)) fun _ _ => ?_
        exact .bind (failsOnly_calculate (Arithmetic.failsOnly_clampDelta _ _ _)) fun _ _ => .ok _

theorem failsOnly_valuationOracle {op : Opcode} (hop : op ≠ .valuationStatic) (oracle : Address)
    (maxAge : Option UInt32) (maxDelta : Option UInt16) :
    FailsOnly (Foreseen setup.program trace) (valuationOracle setup op oracle maxAge maxDelta s) := by
  refine .bind (failsOnly_requireUnsolved _) fun _ _ => ?_
  refine .bind (failsOnly_demand hop) fun reading _ => ?_
  cases maxAge with
  | none => exact failsOnly_revalue fun hstatic => absurd hstatic hop
  | some limit =>
      refine .bind (failsOnly_check hop) fun _ _ => ?_
      exact failsOnly_revalue fun hstatic => absurd hstatic hop

theorem failsOnly_baseFeeAdjust {terms : GasAdjust} (h : terms.cap.toNat < bps) :
    FailsOnly (Foreseen setup.program trace) (baseFeeAdjust setup terms s) := by
  have hbps : Arithmetic.bpsWord ≠ 0 := by decide
  refine .bind (failsOnly_requireSolved _) fun _ _ => .ite (fun _ => .ok _) fun _ => ?_
  cases setup.query.fixed with
  | input =>
      exact .bind (failsOnly_calculate (Arithmetic.failsOnly_mulDivFloor _ _ hbps)) fun _ _ => .ok _
  | output =>
      refine .ite (fun _ => .ok _) fun hout => ?_
      refine .bind (failsOnly_calculate (.of_eq_ok (Arithmetic.exact_mul _ _))) fun product _ => ?_
      refine .bind (failsOnly_calculate (.of_eq_ok
        (Arithmetic.quotient_eq_ok (Arithmetic.toNat_ne_zero hout)))) fun costIn _ => ?_
      refine .bind (failsOnly_calculate (Arithmetic.failsOnly_mulDivFloor _ _ hbps))
        fun most hmost => ?_
      -- What is given back is a share of the input, and the share is below one.
      have hle : most ≤ s.registers.amountIn := by
        have hvalue := (Arithmetic.mulDivFloor_eq_ok_iff.mp (calculate_eq_ok_iff.mp hmost)).2
        rw [UInt64.le_iff_toNat_le, hvalue, UInt16.toNat_toUInt64]
        apply Nat.div_le_of_le_mul
        rw [Nat.mul_comm]
        exact Nat.mul_le_mul_right _ (Nat.le_of_lt h)
      have hoff : min (UInt64.ofNat (min costIn maxAmount)) most ≤ s.registers.amountIn :=
        UInt64.le_trans Std.min_le_right hle
      exact .bind (failsOnly_calculate (Arithmetic.failsOnly_difference hoff)) fun _ _ => .ok _

/-- External logic refuses, or its answer aims where there is no record. -/
theorem failsOnly_extruction (target : Address) (input : List UInt8) :
    FailsOnly (Foreseen setup.program (callEvents setup target input s))
      (extruction setup target input s) := by
  cases hanswer : setup.external s.calls (externalCall setup target input s) with
  | error reason =>
      simp only [extruction, callEvents, hanswer]
      exact .error trivial
  | ok outcome =>
      cases hjump : outcome.jump with
      | none =>
          simp only [extruction, callEvents, hanswer, hjump]
          exact .ok _
      | some offset =>
          simp only [extruction, callEvents, hanswer, hjump, State.jump]
          cases hindex : setup.program.indexOf offset.toNat with
          | ok index => exact .ok _
          | error reason =>
              have hmem : Event.answered target outcome ∈
                  [.called (externalCall setup target input s), .answered target outcome] :=
                List.mem_cons_of_mem _ List.mem_cons_self
              exact .error ⟨target, outcome, offset, hmem, hjump, hindex⟩

/-- Decoding has checked the arguments of an instruction and where it aims. -/
structure Checked (program : Program) (i : Instruction) : Prop where
  inRange : i.InRange
  lands : ∀ destination, i.target? = some destination →
    ∃ index, program.indexOf destination.toNat = .ok index

theorem failsOnly_execute {offset : Nat} {i : Instruction} (hi : Checked setup.program i)
    (hcalls : ∀ logic input, i = .extruction logic input →
      callEvents setup logic input s ⊆ trace) :
    FailsOnly (Foreseen setup.program trace) (execute setup offset i s) := by
  rcases hi with ⟨hrange, hlands⟩
  cases i with
  | jump destination => exact failsOnly_jump (hlands destination rfl)
  | jumpIfAsset leg asset destination =>
      exact .ite (fun _ => failsOnly_jump (hlands destination rfl)) fun _ => .ok s
  | deadline last => exact .bind (failsOnly_check (by decide)) fun _ _ => .ok _
  | takerBalance asset least => exact .bind (failsOnly_check (by decide)) fun _ _ => .ok _
  | takerShare asset least => exact failsOnly_takerShare asset least
  | salt bytes => exact .ok s
  | staticBalances balances => exact failsOnly_prices (by decide) _ _ fun a b => s.setBalances a b
  | dynamicBalances balances =>
      exact failsOnly_prices (by decide) _ _ fun a b => (s.setBalances a b).defer (.balances a b)
  | externalBalances => exact failsOnly_prices (by decide) _ _ fun a b => s.setBalances a b
  | solve => exact failsOnly_solve
  | growLiquidity deltas => exact failsOnly_grow _ _ _
  | growPriceRange lower higher => exact failsOnly_grow _ _ _
  | decay period => exact failsOnly_decay period
  | auction leg terms => exact failsOnly_auction leg terms
  | twap terms => exact failsOnly_sale hrange _
  | flatFee leg rate => exact failsOnly_openFee hrange
  | progressiveFee leg terms => exact failsOnly_progressiveFee hrange.2
  | protocolFee leg rate recipient => exact failsOnly_protocolFee hrange recipient
  | minRateAdjust bound => exact failsOnly_minRateAdjust hrange
  | minRateRequire bound => exact failsOnly_minRateRequire bound
  | baseFeeAdjust terms => exact failsOnly_baseFeeAdjust hrange
  | valuationStatic valuation =>
      refine .bind (failsOnly_requireUnsolved _) fun _ _ => failsOnly_revalue fun _ => ?_
      exact ⟨hrange.1, UInt64.lt_iff_toNat_lt.mpr hrange.2⟩
  | valuationOracle oracle =>
      rw [execute]
      exact failsOnly_valuationOracle (by decide) oracle none none
  | valuationFresh oracle maxAge =>
      rw [execute]
      exact failsOnly_valuationOracle (by decide) oracle (some maxAge) none
  | valuationBounded oracle maxAge maxDelta =>
      rw [execute]
      exact failsOnly_valuationOracle (by decide) oracle (some maxAge) (some maxDelta)
  | invalidateBit bit => exact .bind (failsOnly_check (by decide)) fun _ _ => .ok _
  | fillCap leg cap => exact .ok _
  | extruction logic input =>
      exact (failsOnly_extruction logic input).mono (Foreseen.mono (hcalls logic input rfl))

end Instructions

/-!
# Rates

The rate of every fee that waits or that is to be settled is below one, because the
rate of its instruction is.
-/

def Settlement.RateBounded : Settlement → Prop
  | .fee _ _ rate _ _ => rate.toNat < bps
  | _ => True

structure RatesBounded (s : State) : Prop where
  pending : ∀ fee ∈ s.pending, fee.rate.toNat < bps
  settlements : ∀ work ∈ s.settlements, work.RateBounded

section Rates

variable {setup : Setup} {s s' : State}

namespace RatesBounded

theorem defer {work : Settlement} (hwork : work.RateBounded) (hs : RatesBounded s) :
    RatesBounded (s.defer work) where
  pending := hs.pending
  settlements := List.forall_mem_cons.mpr ⟨hwork, hs.settlements⟩

theorem setBalances {balanceIn balanceOut : UInt64} (hs : RatesBounded s) :
    RatesBounded (s.setBalances balanceIn balanceOut) :=
  ⟨hs.pending, hs.settlements⟩

theorem setAmount {leg : Leg} {amount : UInt64} (hs : RatesBounded s) :
    RatesBounded (s.setAmount leg amount) :=
  ⟨hs.pending, hs.settlements⟩

theorem openFee {op : Opcode} {leg : Leg} {rate : UInt64} {recipient : Option Address}
    (h : Machine.openFee setup op leg rate recipient s = .ok s') (hrate : rate.toNat < bps)
    (hs : RatesBounded s) : RatesBounded s' := by
  cases (openFee_eq_ok h).2 with
  | charged => exact hs.setAmount.defer hrate
  | raised => exact hs.setAmount.defer hrate
  | postponed => exact hs.defer hrate

theorem release (h : Machine.release setup s = .ok s') (hs : RatesBounded s) :
    RatesBounded s' := by
  refine openAll_keeps ?_ h ⟨nofun, hs.settlements⟩
  intro fee hfee _ _ hopen ht
  exact ht.openFee hopen (hs.pending fee hfee)

theorem enter {r : Record} (h : Machine.enter setup r s = .ok s') (hs : RatesBounded s) :
    RatesBounded s' := by
  have hs : RatesBounded { s with next := s.next + 1, steps := s.steps + 1 } :=
    ⟨hs.pending, hs.settlements⟩
  unfold Machine.enter releaseBefore at h
  split at h
  · cases h
    exact hs
  · exact hs.release h

theorem execute {offset : Nat} {i : Instruction} (hi : i.InRange)
    (h : Machine.execute setup offset i s = .ok s') (hs : RatesBounded s) : RatesBounded s' := by
  -- The change of an opened fee does not say where its rate comes from.
  cases hopens : i.opensFee with
  | true =>
      cases i with
      | flatFee leg rate => exact hs.openFee h hi
      | progressiveFee leg terms =>
          have hfee : progressiveFee setup leg terms s = .ok s' := h
          simp only [progressiveFee, bind_eq_ok_iff, calculate_eq_ok_iff] at hfee
          rcases hfee with ⟨rate, hrate, hopen⟩
          exact hs.openFee hopen (Nat.lt_of_le_of_lt (Arithmetic.progressiveRate_le hrate) hi.2)
      | protocolFee leg rate recipient =>
          cases leg with
          | input => cases hopens
          | output => exact hs.openFee h hi
      | _ => cases hopens
  | false =>
      cases execute_eq_ok h with
      | opened hfee => rw [hopens] at hfee; cases hfee
      | held =>
          refine ⟨?_, hs.settlements⟩
          intro fee hfee
          rcases List.mem_append.mp hfee with hwaiting | hown
          · exact hs.pending fee hwaiting
          · cases List.mem_singleton.mp hown
            exact hi
      | loaded => exact hs.setBalances.defer trivial
      | faded => exact hs.setBalances.defer trivial
      | offered => exact hs.setBalances.defer trivial
      | capped => exact hs.defer trivial
      | marked =>
          cases setup.query.mode with
          | simulate => exact hs
          | commit => exact ⟨hs.pending, hs.settlements⟩
      | _ => exact ⟨hs.pending, hs.settlements⟩

theorem step {r : Record} (hr : r.instruction.InRange) (h : Machine.step setup r s = .ok s')
    (hs : RatesBounded s) : RatesBounded s' := by
  rcases step_eq_ok h with ⟨t, henter, hexecute⟩
  exact (hs.enter henter).execute hr hexecute

theorem ran {left : Nat} (hprogram : ∀ r ∈ setup.program.records, r.instruction.InRange)
    (h : Ran setup left s s') (hs : RatesBounded s) : RatesBounded s' := by
  induction h with
  | finished hend => exact hs
  | stepped hr hstep hrest ih =>
      have hrange := hprogram _ (Array.mem_of_getElem? hr)
      exact ih (hs.step hrange hstep)

end RatesBounded

/-!
# Runs
-/

theorem failsOnly_release {trace : List Event} (hs : RatesBounded s) :
    FailsOnly (Foreseen setup.program trace) (release setup s) := by
  refine .foldlM ?_ _
  intro fee hfee t
  exact failsOnly_openFee (hs.pending fee hfee)

theorem failsOnly_enter {trace : List Event} (r : Record) (hs : RatesBounded s) :
    FailsOnly (Foreseen setup.program trace) (enter setup r s) :=
  .ite (fun _ => .ok _) fun _ => failsOnly_release ⟨hs.pending, hs.settlements⟩

theorem callEvents_subset_stepEvents {r : Record} {t : State} (henter : enter setup r s = .ok t)
    {logic : Address} {input : List UInt8} (hr : r.instruction = .extruction logic input) :
    callEvents setup logic input t ⊆ stepEvents setup r s := by
  unfold stepEvents
  simp only [henter, hr]
  exact List.subset_cons_self _ _

theorem failsOnly_step {r : Record} (hr : Checked setup.program r.instruction)
    (hs : RatesBounded s) :
    FailsOnly (Foreseen setup.program (stepEvents setup r s)) (step setup r s) := by
  refine .bind (failsOnly_enter r hs) fun t henter => failsOnly_execute hr ?_
  intro logic input hinstruction
  exact callEvents_subset_stepEvents henter hinstruction

theorem failsOnly_runSteps {limit : UInt32} (hlimit : limit.toNat + 1 < UInt32.size)
    (hprogram : ∀ r ∈ setup.program.records, Checked setup.program r.instruction)
    (left : Nat) (hs : RatesBounded s) :
    FailsOnly (Foreseen setup.program (runEvents setup left s))
      (runSteps setup limit left s) := by
  -- What one step may fail with is in its own part of the trace, and the bound on
  -- the rates is carried to the rest.
  induction left generalizing s with
  | zero =>
      unfold runSteps
      split
      · exact .ok s
      · refine .error ?_
        unfold limitError
        rw [if_pos hlimit]
        trivial
  | succ left ih =>
      unfold runSteps runEvents
      cases hr : setup.program.records[s.next]? with
      | none => exact .ok s
      | some r =>
          have hchecked := hprogram r (Array.mem_of_getElem? hr)
          refine .bind ((failsOnly_step hchecked hs).mono
            (Foreseen.mono (List.subset_append_left _ _))) fun t hstep => ?_
          simp only [hstep]
          exact (ih (hs.step hchecked.inRange hstep)).mono
            (Foreseen.mono (List.subset_append_right _ _))

theorem failsOnly_finishSteps {trace : List Event} (hs : RatesBounded s) :
    FailsOnly (Foreseen setup.program trace) (finishSteps setup s) :=
  .bind (failsOnly_release hs) fun _ _ => .ite (fun _ => .ok _) fun _ => .error trivial

theorem failsOnly_settle {trace : List Event} {work : Settlement} (h : work.RateBounded) :
    FailsOnly (Foreseen setup.program trace) (settle setup work s) := by
  cases work with
  | balances balanceIn balanceOut =>
      refine .bind (failsOnly_calculate (Arithmetic.failsOnly_gain _ _)) fun newIn _ => ?_
      exact .bind (failsOnly_calculate (Arithmetic.failsOnly_drain _ _)) fun newOut _ => .ok _
  | decay period =>
      rcases settleDecay_cases setup period s with ⟨locked, restored, -, -, hok⟩ | ⟨-, herror⟩
      · exact .of_eq_ok hok
      · show FailsOnly _ (settleDecay setup period s)
        rw [herror]
        exact .error (Or.inl (Or.inl rfl))
  | sale offset terms prior =>
      refine .bind (failsOnly_check (by decide)) fun _ _ => ?_
      exact .bind (failsOnly_calculate (Arithmetic.failsOnly_gain _ _)) fun sold _ => .ok _
  | fee op leg rate carried recipient =>
      refine .bind (failsOnly_calculate (failsOnly_settledFee leg h carried _)) fun fee _ => ?_
      cases recipient with
      | none => exact .ok _
      | some recipient => exact .ite (fun _ => .ok _) fun _ => .ok _
  | fillCap leg cap => exact .bind (failsOnly_check nofun) fun _ _ => .ok _

theorem failsOnly_settleAll {trace : List Event} {works : List Settlement}
    (h : ∀ work ∈ works, work.RateBounded) :
    FailsOnly (Foreseen setup.program trace) (settleAll setup works s) := by
  induction works generalizing s with
  | nil => exact .ok s
  | cons work rest ih =>
      rcases List.forall_mem_cons.mp h with ⟨hwork, hrest⟩
      exact .bind (failsOnly_settle hwork) fun _ _ => ih hrest

theorem failsOnly_run {limit : UInt32} {store : Order.Store}
    (hlimit : limit.toNat + 1 < UInt32.size)
    (hprogram : ∀ r ∈ setup.program.records, Checked setup.program r.instruction) :
    FailsOnly (Foreseen setup.program (events setup limit store)) (run setup limit store) := by
  have hinitial : RatesBounded (State.initial setup.query store) := ⟨nofun, nofun⟩
  refine .bind ((failsOnly_runSteps hlimit hprogram _ hinitial).mono
    (Foreseen.mono (List.subset_append_left _ _))) fun stepped hsteps => ?_
  have hstepped := hinitial.ran (fun r hr => (hprogram r hr).inRange) (ran_of_runSteps hsteps)
  refine .bind (failsOnly_finishSteps hstepped) fun finished hfinish => failsOnly_settleAll ?_
  exact (hstepped.release (finishSteps_eq_ok hfinish).1).settlements

end Rates

end Machine

/-!
# Decoded programs
-/

theorem Program.checked_of_decode {set : InstructionSet} {id : ProgramId} {bytes : List UInt8}
    {program : Program} (h : Program.decode set id bytes = .ok program) :
    ∀ r ∈ program.records, Machine.Checked program r.instruction := by
  have hrange := Program.inRange_of_decode h
  rcases Program.decode_eq_ok_iff.mp h with ⟨is, hencodes, rfl⟩
  intro r hr
  refine ⟨hrange r hr, ?_⟩
  intro destination htarget
  rw [Program.exists_indexOf_iff (Record.pairwise_placed 0 is)]
  exact (hencodes.aims r (List.mem_toArray.mp hr) destination htarget).1

namespace Machine

open Arithmetic (wad maxAmount)

theorem toNat_ofNat_min (n : Nat) : (UInt64.ofNat (min n maxAmount)).toNat = min n maxAmount := by
  have hmax : maxAmount < UInt64.size := by decide
  exact UInt64.toNat_ofNat_of_lt' (Nat.lt_of_le_of_lt (Nat.min_le_right _ _) hmax)

theorem failsOnly_accept {program : Program} {trace : List Event} (query : Query)
    (mode : ExecutionMode) : FailsOnly (Foreseen program trace) (accept query mode) := by
  refine .ite (fun _ => .error trivial) fun _ => ?_
  cases query.validate with
  | error fault => exact .error trivial
  | ok u => exact .ok u

/-- What decoding checks is enough.  Whatever a quote or a swap of a decoded program
fails with is foreseen, and gas costs are cut to a word before they are narrowed. -/
theorem failures_foreseen {set : InstructionSet} {id : ProgramId} {bytes : List UInt8}
    {program : Program} (hdecode : Program.decode set id bytes = .ok program) {limit : UInt32}
    (hlimit : limit.toNat + 1 < UInt32.size) (query : Query) (environment : Environment)
    (external : ExternalLogic) (store : Order.Store) :
    FailsOnly (Foreseen program
        (events ⟨program, query, environment, environment.quoteExternal⟩ limit store))
      (quote program query environment limit store) ∧
    FailsOnly (Foreseen program (events ⟨program, query, environment, external⟩ limit store))
      (swap program query environment external limit store).1 ∧
    (∀ terms baseFee, (extraCost terms baseFee).toNat =
      min (min (min ((baseFee.toNat - terms.baseFee.toNat) * terms.gasAmount.toNat) maxWide *
        terms.gasPrice.toNat) maxWide / wad) maxAmount) ∧
    ∀ cost : Nat, (UInt64.ofNat (min cost maxAmount)).toNat = min cost maxAmount := by
  have hprogram := Program.checked_of_decode hdecode
  refine ⟨?_, ?_, fun _ _ => toNat_ofNat_min _, toNat_ofNat_min⟩
  · refine .bind (failsOnly_accept _ _) fun _ _ => ?_
    exact .bind (failsOnly_run hlimit hprogram) fun _ _ => .ok _
  · rw [fst_swap]
    exact .map (.bind (failsOnly_accept _ _) fun _ _ => failsOnly_run hlimit hprogram)

def strayingBytes : List UInt8 :=
  Operation.recorded 33 (.extruction (.single 69) []) ++
    Operation.recorded 15 (.auction .output ⟨0, 100, 0⟩)

/-- External logic, and an auction whose factor has faded to zero. -/
def strayingPool : Program where
  id := .single 80
  bytes := strayingBytes.toArray
  records := #[⟨0, .extruction (.single 69) []⟩, ⟨34, .auction .output ⟨0, 100, 0⟩⟩]

/-- The answer that keeps the registers and goes on at `jump`. -/
def aiming (jump : Option UInt16) : ExternalLogic :=
  fun _ call => .ok ⟨call.registers, jump⟩

/-- Both failures that a decoded program may still be blamed for. -/
theorem failures_foreseen_of_straying_pool :
    Program.decode .full (.single 80) strayingBytes = .ok strayingPool ∧
    (swap strayingPool (Query.simulated .input (.single 65) (.single 66) 1000).committing
        (Observations.atTime 10).environment (aiming none) 16 .empty).1 =
      .error (.arithmetic (.auction .output) .divisionByZero) ∧
    (swap strayingPool (Query.simulated .input (.single 65) (.single 66) 1000).committing
        (Observations.atTime 10).environment (aiming (some 7)) 16 .empty).1 =
      .error (.malformed (.invalidJumpTarget 7)) ∧
    Foreseen strayingPool
      (events ⟨strayingPool, (Query.simulated .input (.single 65) (.single 66) 1000).committing,
        (Observations.atTime 10).environment, aiming (some 7)⟩ 16 .empty)
      (.malformed (.invalidJumpTarget 7)) := by
  have hdecode : Program.decode .full (.single 80) strayingBytes = .ok strayingPool := by cbv
  have hmalformed : (swap strayingPool
      (Query.simulated .input (.single 65) (.single 66) 1000).committing
      (Observations.atTime 10).environment (aiming (some 7)) 16 .empty).1 =
        .error (.malformed (.invalidJumpTarget 7)) := by cbv
  refine ⟨hdecode, by cbv, hmalformed, ?_⟩
  exact (failures_foreseen hdecode (by decide) _ _ _ _).2.1 _ hmalformed

end Machine
end SwapPricing
