import SwapPricing.Proofs.Monotony
import SwapPricing.Proofs.Powers

/-!
# Better trades

Two runs of one program are followed side by side: the second one sees a later time,
or asks for an amount further along.  If neither sees balances that are worse for the
taker, no record between them turns the order of their amounts around.  An auction
only ever moves the balances in the taker's favour.
-/

namespace SwapPricing

/-- Whether an instruction answers better amounts and balances with better ones. -/
def Operation.keepsOrder : Instruction → Bool
  | staticBalances _ => true
  | externalBalances => true
  | growLiquidity _ => true
  | growPriceRange _ _ => true
  | auction _ _ => true
  | solve => true
  | flatFee _ _ => true
  | protocolFee _ _ _ => true
  | minRateAdjust _ => true
  | _ => false

namespace Machine

open Arithmetic (wad wadWord mulDivFloor mulDivCeil)

/-- Setups of the same trade over the same reserves, the second one no earlier and
for an amount no less far along. -/
structure Setup.Precedes (setup setup' : Setup) : Prop where
  program : setup'.program = setup.program
  asset : ∀ leg, setup'.query.asset leg = setup.query.asset leg
  fixed : setup'.query.fixed = setup.query.fixed
  amount : setup.query.fixed.Orders setup.query.amount setup'.query.amount
  reserve : setup'.environment.reserve? = setup.environment.reserve?
  now : setup.environment.now ≤ setup'.environment.now

/-- The run at `t` stands where the one at `s` does, at balances that are no worse for
the taker, and its amounts are no less far along. -/
structure Improves (fixed : Leg) (s t : State) : Prop where
  solved : t.solved = s.solved
  next : t.next = s.next
  fees : SameFees s t
  balanceIn : t.registers.balanceIn ≤ s.registers.balanceIn
  balanceOut : s.registers.balanceOut ≤ t.registers.balanceOut
  amount : ∀ leg, fixed.Orders (s.registers.amount leg) (t.registers.amount leg)

namespace Setup.Precedes

variable {setup setup' : Setup} (h : setup.Precedes setup')
include h

theorem unknown : setup'.query.unknown = setup.query.unknown := by
  unfold Query.unknown
  rw [h.fixed]

theorem orient {α : Type} (lower higher : α) :
    setup'.query.orient lower higher = setup.query.orient lower higher := by
  have hin : setup'.query.assetIn = setup.query.assetIn := h.asset .input
  have hout : setup'.query.assetOut = setup.query.assetOut := h.asset .output
  unfold Query.orient Query.inputIsLower
  rw [hin, hout]

end Setup.Precedes

namespace Improves

/-!
# Parts of instructions
-/

section Parts

variable {fixed : Leg} {s s' t t' : State}

theorem setBalances {balanceIn balanceIn' balanceOut balanceOut' : UInt64}
    (hin : balanceIn' ≤ balanceIn) (hout : balanceOut ≤ balanceOut') (h : Improves fixed s t) :
    Improves fixed (s.setBalances balanceIn balanceOut) (t.setBalances balanceIn' balanceOut') := by
  refine ⟨h.solved, h.next, ⟨h.fees.pending, h.fees.rates⟩, hin, hout, fun leg => ?_⟩
  have hamount := h.amount leg
  cases leg <;> exact hamount

theorem setAmount (leg : Leg) {a a' : UInt64} (ha : fixed.Orders a a')
    (h : Improves fixed s t) : Improves fixed (s.setAmount leg a) (t.setAmount leg a') := by
  have hin := h.amount .input
  have hout := h.amount .output
  have hfees : SameFees (s.setAmount leg a) (t.setAmount leg a') :=
    ⟨h.fees.pending, h.fees.rates⟩
  cases leg with
  | input =>
      refine ⟨h.solved, h.next, hfees, h.balanceIn, h.balanceOut, fun on => ?_⟩
      cases on with
      | input => exact ha
      | output => exact hout
  | output =>
      refine ⟨h.solved, h.next, hfees, h.balanceIn, h.balanceOut, fun on => ?_⟩
      cases on with
      | input => exact hin
      | output => exact ha

theorem solvedAt {leg : Leg} {a a' : UInt64} (ha : fixed.Orders a a') (h : Improves fixed s t) :
    Improves fixed (s.solvedAt leg a) (t.solvedAt leg a') := by
  have hset := h.setAmount leg ha
  exact ⟨rfl, h.next, ⟨h.fees.pending, h.fees.rates⟩, hset.balanceIn, hset.balanceOut,
    hset.amount⟩

end Parts

/-!
# Fees
-/

section Fees

variable {setup setup' : Setup} (hsetup : setup.Precedes setup') {s s' t t' : State}
include hsetup

theorem opening {op : Opcode} {leg : Leg} {rate : UInt64} {recipient : Option Address}
    (hs : Opening setup op leg rate recipient s s') (ht : Opening setup' op leg rate recipient t t')
    (h : Improves setup.query.fixed s t) : Improves setup.query.fixed s' t' := by
  have hfees := h.fees.opening hs ht
  have hin := h.amount .input
  have hout := h.amount .output
  cases hs with
  | charged hleg hfixed hnet hfee =>
      cases ht with
      | charged hleg' hfixed' hnet' hfee' =>
          rename_i net fee net' fee'
          rw [hfixed] at h hin ⊢
          have hnets : Leg.input.Orders net net' := Arithmetic.deductRate_mono hin hnet hnet'
          have hset := h.setAmount .input hnets
          exact ⟨h.solved, h.next, hfees, hset.balanceIn, hset.balanceOut, hset.amount⟩
      | raised hleg' => cases hleg.symm.trans hleg'
      | postponed hleg' => exact absurd (hleg.trans (hsetup.fixed.trans hfixed).symm) hleg'
  | raised hleg hfixed hgross =>
      cases ht with
      | charged hleg' => cases hleg.symm.trans hleg'
      | raised hleg' hfixed' hgross' =>
          rename_i gross gross'
          rw [hfixed] at h hout ⊢
          have hgrosses : Leg.output.Orders gross gross' :=
            Arithmetic.grossUp_mono hout hgross' hgross
          have hset := h.setAmount .output hgrosses
          exact ⟨h.solved, h.next, hfees, hset.balanceIn, hset.balanceOut, hset.amount⟩
      | postponed hleg' => exact absurd (hleg.trans (hsetup.fixed.trans hfixed).symm) hleg'
  | postponed hleg =>
      cases ht with
      | charged hleg' hfixed' =>
          exact absurd (hleg'.trans (hsetup.fixed.symm.trans hfixed').symm) hleg
      | raised hleg' hfixed' =>
          exact absurd (hleg'.trans (hsetup.fixed.symm.trans hfixed').symm) hleg
      | postponed hleg' =>
          exact ⟨h.solved, h.next, hfees, h.balanceIn, h.balanceOut, h.amount⟩

theorem openFee {op : Opcode} {leg : Leg} {rate : UInt64} {recipient : Option Address}
    (hs : Machine.openFee setup op leg rate recipient s = .ok s')
    (ht : Machine.openFee setup' op leg rate recipient t = .ok t')
    (h : Improves setup.query.fixed s t) : Improves setup.query.fixed s' t' :=
  h.opening hsetup (openFee_eq_ok hs).2 (openFee_eq_ok ht).2

theorem openAll {fees : List PendingFee}
    (hs : fees.foldlM (fun s fee => Machine.openFee setup (.protocolFee .input) .input
      fee.rate.toUInt64 (some fee.recipient) s) s = .ok s')
    (ht : fees.foldlM (fun t fee => Machine.openFee setup' (.protocolFee .input) .input
      fee.rate.toUInt64 (some fee.recipient) t) t = .ok t')
    (h : Improves setup.query.fixed s t) : Improves setup.query.fixed s' t' := by
  induction fees generalizing s t with
  | nil =>
      cases hs
      cases ht
      exact h
  | cons fee rest ih =>
      rw [List.foldlM_cons, bind_eq_ok_iff] at hs ht
      rcases hs with ⟨u, hfirst, hrest⟩
      rcases ht with ⟨v, hfirst', hrest'⟩
      exact ih hrest hrest' (h.openFee hsetup hfirst hfirst')

theorem release (hs : Machine.release setup s = .ok s') (ht : Machine.release setup' t = .ok t')
    (h : Improves setup.query.fixed s t) : Improves setup.query.fixed s' t' := by
  unfold Machine.release at hs ht
  rw [h.fees.pending] at ht
  refine openAll hsetup hs ht ?_
  exact ⟨h.solved, h.next, ⟨rfl, h.fees.rates⟩, h.balanceIn, h.balanceOut, h.amount⟩

theorem enter {r : Record} (hs : Machine.enter setup r s = .ok s')
    (ht : Machine.enter setup' r t = .ok t') (h : Improves setup.query.fixed s t) :
    Improves setup.query.fixed s' t' := by
  have hnext : Improves setup.query.fixed { s with next := s.next + 1, steps := s.steps + 1 }
      { t with next := t.next + 1, steps := t.steps + 1 } :=
    ⟨h.solved, congrArg (· + 1) h.next, ⟨h.fees.pending, h.fees.rates⟩, h.balanceIn, h.balanceOut,
      h.amount⟩
  unfold Machine.enter releaseBefore at hs ht
  split at hs
  · rename_i hwaits
    rw [if_pos hwaits] at ht
    cases hs
    cases ht
    exact hnext
  · rename_i hwaits
    rw [if_neg hwaits] at ht
    exact hnext.release hsetup hs ht

/-!
# Balances
-/

theorem staticBalances {balances : Entries}
    (hs : Machine.staticBalances setup balances s = .ok s')
    (ht : Machine.staticBalances setup' balances t = .ok t')
    (h : Improves setup.query.fixed s t) : Improves setup.query.fixed s' t' := by
  simp only [Machine.staticBalances, hsetup.asset, bind_eq_ok_iff, demand_eq_ok_iff,
    pure_eq_ok_iff] at hs ht
  rcases hs with ⟨-, -, balanceIn, hin, balanceOut, hout, rfl⟩
  rcases ht with ⟨-, -, balanceIn', hin', balanceOut', hout', rfl⟩
  cases hin.symm.trans hin'
  cases hout.symm.trans hout'
  exact h.setBalances (UInt64.le_refl _) (UInt64.le_refl _)

theorem externalBalances (hs : Machine.externalBalances setup s = .ok s')
    (ht : Machine.externalBalances setup' t = .ok t') (h : Improves setup.query.fixed s t) :
    Improves setup.query.fixed s' t' := by
  simp only [Machine.externalBalances, hsetup.asset, hsetup.program, hsetup.reserve,
    bind_eq_ok_iff, demand_eq_ok_iff, pure_eq_ok_iff] at hs ht
  rcases hs with ⟨-, -, balanceIn, hin, balanceOut, hout, rfl⟩
  rcases ht with ⟨-, -, balanceIn', hin', balanceOut', hout', rfl⟩
  cases hin.symm.trans hin'
  cases hout.symm.trans hout'
  exact h.setBalances (UInt64.le_refl _) (UInt64.le_refl _)

omit hsetup in
theorem grow {op : Opcode} {deltaIn deltaOut : UInt64}
    (hs : Machine.grow op deltaIn deltaOut s = .ok s')
    (ht : Machine.grow op deltaIn deltaOut t = .ok t') (h : Improves setup.query.fixed s t) :
    Improves setup.query.fixed s' t' := by
  simp only [Machine.grow, bind_eq_ok_iff, calculate_eq_ok_iff, pure_eq_ok_iff] at hs ht
  rcases hs with ⟨-, -, balanceIn, hin, balanceOut, hout, rfl⟩
  rcases ht with ⟨-, -, balanceIn', hin', balanceOut', hout', rfl⟩
  exact h.setBalances (Arithmetic.gain_mono h.balanceIn (UInt64.le_refl _) hin' hin)
    (Arithmetic.gain_mono h.balanceOut (UInt64.le_refl _) hout hout')

/-- The later it is, the further an auction has faded. -/
theorem auctionFactor_anti {op : Opcode} {terms : Auction} {factor factor' : UInt64}
    (hdecay : terms.decay.toNat ≤ wad) (hs : auctionFactor setup op terms = .ok factor)
    (ht : auctionFactor setup' op terms = .ok factor') : factor' ≤ factor := by
  simp only [auctionFactor, bind_eq_ok_iff, calculate_eq_ok_iff] at hs ht
  rcases hs with ⟨-, -, hfactor⟩
  rcases ht with ⟨-, -, hfactor'⟩
  refine Arithmetic.wadPower_anti hdecay ?_ hfactor hfactor'
  have hnow := UInt64.le_iff_toNat_le.mp hsetup.now
  have hfit (now : UInt64) : now.toNat - terms.start.toNat < UInt64.size :=
    Nat.lt_of_le_of_lt (Nat.sub_le _ _) now.toNat_lt
  rw [UInt64.le_iff_toNat_le, UInt64.toNat_ofNat_of_lt' (hfit _),
    UInt64.toNat_ofNat_of_lt' (hfit _)]
  exact Nat.sub_le_sub_right hnow _

theorem auction {leg : Leg} {terms : Auction} (hdecay : terms.decay.toNat ≤ wad)
    (hs : Machine.auction setup leg terms s = .ok s')
    (ht : Machine.auction setup' leg terms t = .ok t') (h : Improves setup.query.fixed s t) :
    Improves setup.query.fixed s' t' := by
  simp only [Machine.auction, bind_eq_ok_iff] at hs ht
  rcases hs with ⟨-, -, factor, hfactor, hs⟩
  rcases ht with ⟨-, -, factor', hfactor', ht⟩
  have hfaded := auctionFactor_anti hsetup hdecay hfactor hfactor'
  cases leg with
  | input =>
      simp only [bind_eq_ok_iff, calculate_eq_ok_iff, pure_eq_ok_iff] at hs ht
      rcases hs with ⟨balanceIn, hin, rfl⟩
      rcases ht with ⟨balanceIn', hin', rfl⟩
      exact h.setBalances
        (Arithmetic.mulDivCeil_mono h.balanceIn hfaded (UInt64.le_refl _) hin' hin) h.balanceOut
  | output =>
      simp only [bind_eq_ok_iff, calculate_eq_ok_iff, pure_eq_ok_iff] at hs ht
      rcases hs with ⟨balanceOut, hout, rfl⟩
      rcases ht with ⟨balanceOut', hout', rfl⟩
      exact h.setBalances h.balanceIn
        (Arithmetic.mulDivFloor_mono h.balanceOut (UInt64.le_refl _) hfaded hout hout')

/-!
# Amounts
-/

theorem protocolFee {leg : Leg} {rate : UInt16} {recipient : Address}
    (hs : Machine.protocolFee setup leg rate recipient s = .ok s')
    (ht : Machine.protocolFee setup' leg rate recipient t = .ok t')
    (h : Improves setup.query.fixed s t) : Improves setup.query.fixed s' t' := by
  cases leg with
  | input =>
      simp only [Machine.protocolFee, bind_eq_ok_iff, pure_eq_ok_iff] at hs ht
      rcases hs with ⟨-, -, rfl⟩
      rcases ht with ⟨-, -, rfl⟩
      have hpending : t.pending ++ [⟨rate, recipient⟩] = s.pending ++ [⟨rate, recipient⟩] := by
        rw [h.fees.pending]
      exact ⟨h.solved, h.next, ⟨hpending, h.fees.rates⟩, h.balanceIn, h.balanceOut, h.amount⟩
  | output => exact h.openFee hsetup hs ht

theorem solve (hs : Machine.solve setup s = .ok s') (ht : Machine.solve setup' t = .ok t')
    (h : Improves setup.query.fixed s t) : Improves setup.query.fixed s' t' := by
  have hunsolved : s.solved = false := by
    rcases bind_eq_ok_iff.mp hs with ⟨_, hunsolved, -⟩
    exact requireUnsolved_eq_ok_iff.mp hunsolved
  rcases (solve_eq_ok_iff hunsolved).mp hs with ⟨amount, hamount, rfl⟩
  rcases (solve_eq_ok_iff (h.solved.trans hunsolved)).mp ht with ⟨amount', hamount', rfl⟩
  rw [hsetup.fixed] at hamount'
  rw [hsetup.unknown]
  exact h.solvedAt (poolAmount_orders h.balanceIn h.balanceOut (h.amount _) hamount hamount')

theorem minRateAdjust {bound : RateBound} (hs : Machine.minRateAdjust setup bound s = .ok s')
    (ht : Machine.minRateAdjust setup' bound t = .ok t') (h : Improves setup.query.fixed s t) :
    Improves setup.query.fixed s' t' := by
  simp only [Machine.minRateAdjust, hsetup.orient, hsetup.fixed, bind_eq_ok_iff] at hs ht
  rcases hs with ⟨-, -, hs⟩
  rcases ht with ⟨-, -, ht⟩
  cases hfixed : setup.query.fixed with
  | input =>
      rw [hfixed] at h
      have hin : s.registers.amountIn ≤ t.registers.amountIn := h.amount .input
      have hout : s.registers.amountOut ≤ t.registers.amountOut := h.amount .output
      simp only [hfixed, bind_eq_ok_iff, calculate_eq_ok_iff, pure_eq_ok_iff] at hs ht
      rcases hs with ⟨most, hmost, rfl⟩
      rcases ht with ⟨most', hmost', rfl⟩
      have hle : most ≤ most' :=
        Arithmetic.mulDivFloor_mono hin (UInt64.le_refl _) (UInt64.le_refl _) hmost hmost'
      have hmin : min s.registers.amountOut most ≤ min t.registers.amountOut most' :=
        Arithmetic.min_mono hout hle
      exact h.setAmount .output hmin
  | output =>
      rw [hfixed] at h
      have hin : t.registers.amountIn ≤ s.registers.amountIn := h.amount .input
      have hout : t.registers.amountOut ≤ s.registers.amountOut := h.amount .output
      simp only [hfixed, bind_eq_ok_iff, calculate_eq_ok_iff, pure_eq_ok_iff] at hs ht
      rcases hs with ⟨least, hleast, rfl⟩
      rcases ht with ⟨least', hleast', rfl⟩
      have hle : least' ≤ least :=
        Arithmetic.mulDivCeil_mono hout (UInt64.le_refl _) (UInt64.le_refl _) hleast' hleast
      have hmax : max t.registers.amountIn least' ≤ max s.registers.amountIn least :=
        Arithmetic.max_mono hin hle
      exact h.setAmount .input hmax

/-!
# Runs
-/

theorem execute {offset : Nat} {i : Instruction} (hi : i.keepsOrder = true) (hrange : i.InRange)
    (hs : Machine.execute setup offset i s = .ok s')
    (ht : Machine.execute setup' offset i t = .ok t') (h : Improves setup.query.fixed s t) :
    Improves setup.query.fixed s' t' := by
  cases i with
  | staticBalances balances => exact h.staticBalances hsetup hs ht
  | externalBalances => exact h.externalBalances hsetup hs ht
  | growLiquidity deltas =>
      have ht : Machine.growLiquidity setup' deltas t = .ok t' := ht
      simp only [Machine.growLiquidity, hsetup.asset] at ht
      exact h.grow hs ht
  | growPriceRange lower higher =>
      have ht : Machine.growPriceRange setup' lower higher t = .ok t' := ht
      simp only [Machine.growPriceRange, hsetup.orient] at ht
      exact h.grow hs ht
  | auction leg terms => exact h.auction hsetup hrange.2 hs ht
  | solve => exact h.solve hsetup hs ht
  | flatFee leg rate => exact h.openFee hsetup hs ht
  | protocolFee leg rate recipient => exact h.protocolFee hsetup hs ht
  | minRateAdjust bound => exact h.minRateAdjust hsetup hs ht
  | _ => cases hi

theorem step {r : Record} (hr : r.instruction.keepsOrder = true) (hrange : r.instruction.InRange)
    (hs : Machine.step setup r s = .ok s') (ht : Machine.step setup' r t = .ok t')
    (h : Improves setup.query.fixed s t) : Improves setup.query.fixed s' t' := by
  rcases step_eq_ok hs with ⟨u, henter, hexecute⟩
  rcases step_eq_ok ht with ⟨v, henter', hexecute'⟩
  exact (h.enter hsetup henter henter').execute hsetup hr hrange hexecute hexecute'

/-- Both runs come to the same records, so what one step keeps, all of them keep. -/
theorem ran {left left' : Nat}
    (hrecords : ∀ r ∈ setup.program.records, r.instruction.keepsOrder = true)
    (hrange : ∀ r ∈ setup.program.records, r.instruction.InRange)
    (hs : Ran setup left s s') (ht : Ran setup' left' t t') (h : Improves setup.query.fixed s t) :
    Improves setup.query.fixed s' t' := by
  induction hs generalizing left' t with
  | finished hend =>
      cases ht with
      | finished => exact h
      | stepped hr =>
          rw [hsetup.program, h.next, hend] at hr
          cases hr
  | stepped hr hstep hrest ih =>
      cases ht with
      | finished hend =>
          rw [hsetup.program, h.next, hr] at hend
          cases hend
      | stepped hr' hstep' hrest' =>
          rw [hsetup.program, h.next, hr] at hr'
          cases hr'
          have hmem := Array.mem_of_getElem? hr
          exact ih hrest' (h.step hsetup (hrecords _ hmem) (hrange _ hmem) hstep hstep')

omit hsetup in
theorem initial {store store' : Order.Store} (hsetup : setup.Precedes setup') :
    Improves setup.query.fixed (State.initial setup.query store)
      (State.initial setup'.query store') := by
  refine ⟨rfl, rfl, ⟨rfl, fun _ => rfl⟩, ?_, ?_, fun leg => ?_⟩
  · show ((Registers.seeded setup'.query).balance .input) ≤
      (Registers.seeded setup.query).balance .input
    unfold Registers.seeded
    rw [Registers.balance_setAmount, Registers.balance_setAmount]
    exact UInt64.le_refl _
  · show ((Registers.seeded setup.query).balance .output) ≤
      (Registers.seeded setup'.query).balance .output
    unfold Registers.seeded
    rw [Registers.balance_setAmount, Registers.balance_setAmount]
    exact UInt64.le_refl _
  · show setup.query.fixed.Orders ((Registers.seeded setup.query).amount leg)
      ((Registers.seeded setup'.query).amount leg)
    unfold Registers.seeded
    rw [hsetup.fixed]
    by_cases hleg : leg = setup.query.fixed
    · rw [hleg, Registers.amount_setAmount, Registers.amount_setAmount]
      exact hsetup.amount
    · rw [Registers.amount_setAmount_of_ne _ hleg, Registers.amount_setAmount_of_ne _ hleg]
      exact .refl _ _

end Fees
end Improves

/-!
# Outcomes
-/

section Outcomes

variable {setup setup' : Setup} {s s' t : State}

/-- Instructions that keep the order leave nothing but fees to settle. -/
theorem isFee_of_execute {offset : Nat} {i : Instruction} (hi : i.keepsOrder = true)
    (h : execute setup offset i s = .ok s') (hs : ∀ work ∈ s.settlements, work.isFee = true) :
    ∀ work ∈ s'.settlements, work.isFee = true := by
  cases execute_eq_ok h with
  | opened _ _ hopening => cases hopening <;> exact List.forall_mem_cons.mpr ⟨rfl, hs⟩
  | loaded => cases hi
  | faded => cases hi
  | offered => cases hi
  | marked => cases hi
  | capped => cases hi
  | _ => exact hs

theorem isFee_steady : Steady setup fun s => ∀ work ∈ s.settlements, work.isFee = true where
  advance _ _ hs := hs
  release hs := hs
  opening _ hopening hs := by
    cases hopening <;> exact List.forall_mem_cons.mpr ⟨rfl, hs⟩

theorem opcode_of_keepsOrder {i : Instruction} (hi : i.keepsOrder = true) :
    i.opcode ≠ .extruction := by
  cases i with
  | extruction logic input => cases hi
  | _ =>
      intro h
      cases h

/-- Behind the records, the fees take the amount that was solved to its final value. -/
theorem afterFees_of_run {limit : UInt32} {store : Order.Store}
    (hrecords : ∀ r ∈ setup.program.records, r.instruction.keepsOrder = true)
    (h : run setup limit store = .ok s') :
    ∃ stepped finished,
      Ran setup limit.toNat (State.initial setup.query store) stepped ∧
        release setup stepped = .ok finished ∧
          afterFees setup.query.unknown (feeRates setup.query.unknown finished.settlements)
            (finished.registers.amount setup.query.unknown) =
              .ok (s'.registers.amount setup.query.unknown) := by
  rcases run_eq_ok h with ⟨stepped, finished, hsteps, hfinish, hsettle⟩
  have hran := ran_of_runSteps hsteps
  have hrelease := (finishSteps_eq_ok hfinish).1
  refine ⟨stepped, finished, hran, hrelease, ?_⟩
  have hfees : ∀ work ∈ finished.settlements, work.isFee = true := by
    have hstepped : ∀ work ∈ stepped.settlements, work.isFee = true :=
      isFee_steady.ran (fun hr hexecute hs => isFee_of_execute (hrecords _ hr) hexecute hs) hran
        (List.forall_mem_nil _)
    exact isFee_steady.released hrelease hstepped
  have hrestores : Restores setup finished.settlements { finished with settlements := [] } := by
    have hexternal : ∀ r ∈ setup.program.records, r.opcode ≠ .extruction := fun r hr =>
      opcode_of_keepsOrder (hrecords r hr)
    have hinvariant := Restores.invariant hexternal
    exact hinvariant.toSteady.released hrelease (hinvariant.ran hran (.initial store))
  exact (settleAll_unknown_iff hfees hrestores).mp ⟨s', hsettle, rfl⟩

/-- The better of two trades has the better outcome. -/
theorem orders_of_run {limit limit' : UInt32} {store store' : Order.Store}
    (hsetup : setup.Precedes setup')
    (hrecords : ∀ r ∈ setup.program.records, r.instruction.keepsOrder = true)
    (hrange : ∀ r ∈ setup.program.records, r.instruction.InRange)
    (hs : run setup limit store = .ok s) (ht : run setup' limit' store' = .ok t) :
    setup.query.fixed.Orders (s.registers.amount setup.query.unknown)
      (t.registers.amount setup.query.unknown) := by
  have hrecords' : ∀ r ∈ setup'.program.records, r.instruction.keepsOrder = true := by
    rw [hsetup.program]
    exact hrecords
  rcases afterFees_of_run hrecords hs with ⟨stepped, finished, hran, hrelease, hafter⟩
  rcases afterFees_of_run hrecords' ht with ⟨stepped', finished', hran', hrelease', hafter'⟩
  have hfinished : Improves setup.query.fixed finished finished' :=
    ((Improves.initial hsetup).ran hsetup hrecords hrange hran hran').release hsetup hrelease
      hrelease'
  rw [hsetup.unknown, hfinished.fees.rates] at hafter'
  exact (hfinished.amount setup.query.unknown).lift
    (fun hle => afterFees_mono hle hafter hafter') fun hle => afterFees_mono hle hafter' hafter

end Outcomes

/-- Of quotes at two times the later one is no worse for the taker: it pays no less
for the same input, and asks for no more for the same output. -/
theorem later_quote_no_worse {set : InstructionSet} {id : ProgramId} {bytes : List UInt8}
    {program : Program} (hdecode : Program.decode set id bytes = .ok program)
    (hrecords : ∀ r ∈ program.records, r.instruction.keepsOrder = true) {query : Query}
    {environment : Environment} {limit : UInt32} {store : Order.Store} {early late : UInt64}
    {o o' : Outcome} (htimes : early ≤ late)
    (h : quote program query { environment with now := early } limit store = .ok o)
    (h' : quote program query { environment with now := late } limit store = .ok o') :
    (query.fixed = .input → o.amountOut ≤ o'.amountOut) ∧
      (query.fixed = .output → o'.amountIn ≤ o.amountIn) := by
  rcases (quote_eq_ok_iff.mp h).2 with ⟨s, hrun, rfl⟩
  rcases (quote_eq_ok_iff.mp h').2 with ⟨t, hrun', rfl⟩
  have hsetup : Setup.Precedes
      ⟨program, query, { environment with now := early }, environment.quoteExternal⟩
      ⟨program, query, { environment with now := late }, environment.quoteExternal⟩ :=
    ⟨rfl, fun _ => rfl, rfl, .refl _ _, rfl, htimes⟩
  have horders : query.fixed.Orders (s.registers.amount query.unknown)
      (t.registers.amount query.unknown) :=
    orders_of_run hsetup hrecords (Program.inRange_of_decode hdecode) hrun hrun'
  unfold Query.unknown at horders
  constructor
  · intro hfixed
    rw [hfixed] at horders
    exact horders
  · intro hfixed
    rw [hfixed] at horders
    exact horders

def auctionedBytes : List UInt8 :=
  Operation.recorded 7 (.staticBalances [(.single 65, 1000000), (.single 66, 2000000)]) ++
    Operation.recorded 14 (.auction .input ⟨100, 600, 999000000000000000⟩) ++
    Operation.recorded 15 (.auction .output ⟨100, 300, 998000000000000000⟩) ++
    Operation.recorded 17 (.flatFee .input 30) ++
    Operation.recorded 22 (.protocolFee .output 50 (.single 82)) ++
    Operation.recorded 10 .solve ++ Operation.recorded 23 (.minRateAdjust ⟨1, 3⟩)

/-- A pool with an auction of either side, fees on both legs and a rate bound. -/
def auctionedPool : Program where
  id := .single 80
  bytes := auctionedBytes.toArray
  records :=
    #[⟨0, .staticBalances [(.single 65, 1000000), (.single 66, 2000000)]⟩,
      ⟨82, .auction .input ⟨100, 600, 999000000000000000⟩⟩,
      ⟨104, .auction .output ⟨100, 300, 998000000000000000⟩⟩, ⟨126, .flatFee .input 30⟩,
      ⟨130, .protocolFee .output 50 (.single 82)⟩, ⟨166, .solve⟩, ⟨168, .minRateAdjust ⟨1, 3⟩⟩]

/-- Three seconds later, the same input pays more. -/
theorem later_quote_no_worse_of_auctioned_pool :
    Program.decode .full (.single 80) auctionedBytes = .ok auctionedPool ∧
      quote auctionedPool (Query.simulated .input (.single 65) (.single 66) 1000)
        { (Observations.atTime 0).environment with now := 101 } 16 .empty =
          .ok ⟨⟨999000, 2004008, 1000, 1988⟩, [⟨.single 82, .single 66, 10⟩], 7⟩ ∧
      quote auctionedPool (Query.simulated .input (.single 65) (.single 66) 1000)
        { (Observations.atTime 0).environment with now := 104 } 16 .empty =
          .ok ⟨⟨996006, 2016080, 1000, 2005⟩, [⟨.single 82, .single 66, 11⟩], 7⟩ ∧
      (1988 : UInt64) ≤ 2005 := by
  have hdecode : Program.decode .full (.single 80) auctionedBytes = .ok auctionedPool := by
    decide +kernel
  have hearly : quote auctionedPool (Query.simulated .input (.single 65) (.single 66) 1000)
      { (Observations.atTime 0).environment with now := 101 } 16 .empty =
        .ok ⟨⟨999000, 2004008, 1000, 1988⟩, [⟨.single 82, .single 66, 10⟩], 7⟩ := by cbv
  have hlate : quote auctionedPool (Query.simulated .input (.single 65) (.single 66) 1000)
      { (Observations.atTime 0).environment with now := 104 } 16 .empty =
        .ok ⟨⟨996006, 2016080, 1000, 2005⟩, [⟨.single 82, .single 66, 11⟩], 7⟩ := by cbv
  have hrecords : ∀ r ∈ auctionedPool.records, r.instruction.keepsOrder = true := by decide
  exact ⟨hdecode, hearly, hlate,
    (later_quote_no_worse hdecode hrecords (by decide) hearly hlate).1 rfl⟩

end Machine
end SwapPricing
