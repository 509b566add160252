import SwapPricing.Proofs.Unwinding

/-!
# Straight-line programs

Where no record jumps, a run takes the records of a program one after another.
Where all that was deferred are fees, unwinding them never fails on the leg
that the taker fixed, and what becomes of the other amount depends on the rates
of the fees alone.
-/

namespace SwapPricing

/-- Whether a run goes on behind the record of an instruction. -/
def Operation.isStraight (i : Instruction) : Bool :=
  !i.opcode.isJump && i.opcode ≠ .extruction

namespace Machine

open Arithmetic (deductRate grossUp)

variable {setup : Setup} {s s' : State}

/-!
# Steps in order
-/

theorem next_change {i : Instruction} (hi : i.isStraight = true) (h : Change setup i s s') :
    s'.next = s.next := by
  cases h with
  | moved hjump next => simp [Operation.isStraight, hjump] at hi
  | opened hfee hsolved hopening =>
      cases hopening <;> rfl
  | marked hclear =>
      unfold State.write
      cases setup.query.mode <;> rfl
  | answered next => cases hi
  | _ => rfl

theorem next_enter {r : Record} (h : enter setup r s = .ok s') : s'.next = s.next + 1 := by
  have hreleasing : Releasing setup fun t => t.next = s.next + 1 := by
    refine ⟨fun ht => ht, ?_⟩
    intro op leg rate recipient t t' _ hopening ht
    cases hopening <;> exact ht
  exact hreleasing.releasedBefore h rfl

theorem next_step {r : Record} (hr : r.instruction.isStraight = true)
    (h : step setup r s = .ok s') : s'.next = s.next + 1 := by
  rcases step_eq_ok h with ⟨t, henter, hexecute⟩
  rw [next_change hr (execute_eq_ok hexecute), next_enter henter]

theorem cons_prefix_drop_iff {α : Type} {a : α} {rest l : List α} {n : Nat} :
    a :: rest <+: l.drop n ↔ l[n]? = some a ∧ rest <+: l.drop (n + 1) := by
  rw [← List.head?_drop, ← List.tail_drop]
  cases l.drop n with
  | nil => simp
  | cons b more =>
      rw [List.cons_prefix_cons, List.head?_cons, List.tail_cons, Option.some.injEq]
      exact ⟨fun h => ⟨h.1.symm, h.2⟩, fun h => ⟨h.1.symm, h.2⟩⟩

/-- Records that lie ahead are run in order. -/
theorem runSteps_ahead {records : List Record} {limit : UInt32} {left : Nat}
    (hahead : records <+: setup.program.records.toList.drop s.next)
    (hstraight : ∀ r ∈ records, r.instruction.isStraight = true) :
    runSteps setup limit (records.length + left) s =
      records.foldlM (fun s r => step setup r s) s >>= runSteps setup limit left := by
  induction records generalizing s with
  | nil =>
      rw [List.length_nil, Nat.zero_add]
      rfl
  | cons r rest ih =>
      rcases cons_prefix_drop_iff.mp hahead with ⟨hnow, hrest⟩
      rcases List.forall_mem_cons.mp hstraight with ⟨hfirst, hothers⟩
      rw [Array.getElem?_toList] at hnow
      rw [List.length_cons, Nat.add_right_comm, List.foldlM_cons, bind_assoc]
      unfold runSteps
      rw [hnow]
      apply bind_congr_of_ok
      intro t hstep
      apply ih
      · rw [next_step hfirst hstep]
        exact hrest
      · exact hothers

theorem next_foldlM_step {records : List Record}
    (hstraight : ∀ r ∈ records, r.instruction.isStraight = true)
    (h : records.foldlM (fun s r => step setup r s) s = .ok s') :
    s'.next = s.next + records.length := by
  induction records generalizing s with
  | nil =>
      cases h
      rfl
  | cons r rest ih =>
      rw [List.foldlM_cons, bind_eq_ok_iff] at h
      rcases h with ⟨u, hstep, hrest⟩
      rcases List.forall_mem_cons.mp hstraight with ⟨hfirst, hothers⟩
      rw [ih hothers hrest, next_step hfirst hstep, List.length_cons]
      omega

/-- A run of straight records takes all of them, one after the other. -/
theorem runSteps_eq_foldlM {records : List Record} {limit : UInt32} {left : Nat}
    (hahead : setup.program.records.toList.drop s.next = records)
    (hstraight : ∀ r ∈ records, r.instruction.isStraight = true) (hleft : records.length ≤ left) :
    runSteps setup limit left s = records.foldlM (fun s r => step setup r s) s := by
  rcases Nat.exists_eq_add_of_le hleft with ⟨rest, rfl⟩
  have hprefix : records <+: setup.program.records.toList.drop s.next := by
    rw [hahead]
  rw [runSteps_ahead hprefix hstraight]
  cases hfold : records.foldlM (fun s r => step setup r s) s with
  | error e => rfl
  | ok t =>
      -- Behind the records that lie ahead there is no other.
      have hend : setup.program.records[t.next]? = none := by
        rw [next_foldlM_step hstraight hfold, ← Array.getElem?_toList, ← List.getElem?_drop,
          hahead]
        exact List.getElem?_eq_none_iff.mpr (Nat.le_refl _)
      rw [ok_bind]
      unfold runSteps
      rw [hend]

/-- What a run does behind its last record. -/
def close (setup : Setup) (s : State) : Run State := do
  let finished ← finishSteps setup s
  settleAll setup finished.settlements { finished with settlements := [] }

theorem run_eq_foldlM {limit : UInt32} {store : Order.Store}
    (hstraight : ∀ r ∈ setup.program.records, r.instruction.isStraight = true)
    (hlimit : setup.program.records.size ≤ limit.toNat) :
    run setup limit store =
      setup.program.records.toList.foldlM (fun s r => step setup r s)
        (State.initial setup.query store) >>= close setup := by
  have hsteps : runSteps setup limit limit.toNat (State.initial setup.query store) = _ :=
    runSteps_eq_foldlM rfl (fun r hr => hstraight r (Array.mem_toList_iff.mp hr)) hlimit
  show runSteps setup limit limit.toNat (State.initial setup.query store) >>= close setup = _
  rw [hsteps]
  rfl

theorem finishSteps_of_solved (hsolved : s.solved = true) (hpending : s.pending = []) :
    finishSteps setup s = .ok s := by
  unfold finishSteps
  rw [release_of_pending_nil hpending, ok_bind, if_pos hsolved]

/-!
# Rates of fees
-/

/-- The rate of a fee on `leg`. -/
def Settlement.rate? (leg : Leg) : Settlement → Option UInt64
  | .fee _ on rate _ _ => if on = leg then some rate else none
  | _ => none

/-- The rates of the fees on `leg`, in the order of their settlement. -/
def feeRates (leg : Leg) (works : List Settlement) : List UInt64 :=
  works.filterMap (Settlement.rate? leg)

theorem feeRates_cons_self {op : Opcode} {leg : Leg} {rate : UInt64} {carried : Option UInt64}
    {recipient : Option Address} {rest : List Settlement} :
    feeRates leg (.fee op leg rate carried recipient :: rest) = rate :: feeRates leg rest :=
  List.filterMap_cons_some (if_pos rfl)

theorem feeRates_cons_of_ne {op : Opcode} {leg other : Leg} {rate : UInt64}
    {carried : Option UInt64} {recipient : Option Address} {rest : List Settlement}
    (h : leg ≠ other) :
    feeRates other (.fee op leg rate carried recipient :: rest) = feeRates other rest :=
  List.filterMap_cons_none (if_neg h)

/-- What a fee on `leg` makes of an amount that waited for it: an input also
pays for the fee, and an output pays it. -/
def afterFee (leg : Leg) (amount rate : UInt64) : Except MathError UInt64 :=
  match leg with
  | .input => grossUp amount rate
  | .output => deductRate amount rate

def afterFees (leg : Leg) (rates : List UInt64) (amount : UInt64) : Except MathError UInt64 :=
  rates.foldlM (afterFee leg) amount

theorem afterFees_cons {leg : Leg} {rate amount result : UInt64} {rates : List UInt64} :
    afterFees leg (rate :: rates) amount = .ok result ↔
      ∃ after, afterFee leg amount rate = .ok after ∧ afterFees leg rates after = .ok result := by
  unfold afterFees
  rw [List.foldlM_cons, bind_eq_ok_iff]

theorem settledFee_none_iff {leg : Leg} {rate amount after : UInt64} :
    (∃ fee, settledFee leg rate none amount = .ok (fee, after)) ↔
      afterFee leg amount rate = .ok after := by
  cases leg with
  | input =>
      simp only [settledFee, afterFee, bind_eq_ok_iff, Arithmetic.difference_eq_ok_iff,
        pure_eq_ok_iff, Prod.mk.injEq]
      constructor
      · rintro ⟨fee, gross, hgross, difference, -, rfl, rfl⟩
        exact hgross
      · intro h
        exact ⟨after - amount, after, h, after - amount, ⟨Arithmetic.le_grossUp h, rfl⟩, rfl, rfl⟩
  | output =>
      simp only [settledFee, afterFee, bind_eq_ok_iff, Arithmetic.difference_eq_ok_iff,
        pure_eq_ok_iff, Prod.mk.injEq]
      constructor
      · rintro ⟨fee, net, hnet, difference, -, rfl, rfl⟩
        exact hnet
      · intro h
        exact ⟨amount - after, after, h, amount - after, ⟨Arithmetic.deductRate_le h, rfl⟩, rfl,
          rfl⟩

/-!
# Settling fees
-/

theorem Query.eq_unknown {query : Query} {leg : Leg} (h : leg ≠ query.fixed) :
    leg = query.unknown := by
  unfold Query.unknown
  cases hfixed : query.fixed with
  | input =>
      cases leg with
      | input => exact absurd hfixed.symm h
      | output => rfl
  | output =>
      cases leg with
      | input => rfl
      | output => exact absurd hfixed.symm h

/-- A fee on the fixed leg settles, and the other amount stays as it is. -/
theorem exists_settle_fixed {op : Opcode} {leg : Leg} {rate : UInt64} {carried : Option UInt64}
    {recipient : Option Address} {rest : List Settlement}
    (hleg : leg = setup.query.fixed)
    (hs : Restores setup (.fee op leg rate carried recipient :: rest) s) :
    ∃ t, settle setup (.fee op leg rate carried recipient) s = .ok t ∧
      t.registers.amount setup.query.unknown = s.registers.amount setup.query.unknown := by
  have hother : setup.query.unknown ≠ leg := hleg ▸ setup.query.unknown_ne_fixed
  have hsettled : ∃ fee amount,
      settledFee leg rate carried (s.registers.amount leg) = .ok (fee, amount) := by
    cases hs with
    | input hfixed hsum hrest =>
        rename_i fee outer
        refine ⟨fee, outer, ?_⟩
        simp only [settledFee, bind_eq_ok_iff, pure_eq_ok_iff]
        rw [← hleg] at hsum
        exact ⟨outer, Arithmetic.gain_eq_ok_iff.mpr hsum, rfl⟩
    | output hfixed hle hrest => exact ⟨_, _, rfl⟩
    | other hne hrest => exact absurd hleg hne
    | skip hwork hrest => cases hwork
  rcases hsettled with ⟨fee, amount, hfee⟩
  refine ⟨_, settleFee_of_settledFee recipient hfee, ?_⟩
  exact Registers.amount_setAmount_of_ne _ hother _

/-- A fee on the other leg settles exactly if the amount allows for it. -/
theorem settle_unknown_iff {op : Opcode} {leg : Leg} {rate after : UInt64}
    {carried : Option UInt64} {recipient : Option Address} {rest : List Settlement}
    (hleg : leg ≠ setup.query.fixed)
    (hs : Restores setup (.fee op leg rate carried recipient :: rest) s) :
    (∃ t, settle setup (.fee op leg rate carried recipient) s = .ok t ∧
      t.registers.amount leg = after) ↔
        afterFee leg (s.registers.amount leg) rate = .ok after := by
  have hcarried : carried = none := by
    cases hs with
    | input hfixed hsum hrest => exact absurd hfixed.symm hleg
    | output hfixed hle hrest => exact absurd hfixed.symm hleg
    | other hne hrest => rfl
    | skip hwork hrest => cases hwork
  rw [hcarried, ← settledFee_none_iff]
  constructor
  · rintro ⟨t, hsettle, rfl⟩
    cases settle_eq_ok hsettle with
    | charged hfee =>
        rename_i fee amount
        refine ⟨fee, ?_⟩
        rw [hfee]
        show _ = Except.ok (fee, (s.registers.setAmount leg amount).amount leg)
        rw [Registers.amount_setAmount]
  · rintro ⟨fee, hfee⟩
    exact ⟨_, settleFee_of_settledFee recipient hfee, Registers.amount_setAmount _ _ _⟩

/-- Unwinding fees takes the other amount through their rates, and fails only
where these do. -/
theorem settleAll_unknown_iff {works : List Settlement}
    (hfees : ∀ work ∈ works, work.isFee = true) (hs : Restores setup works s) {result : UInt64} :
    (∃ s', settleAll setup works s = .ok s' ∧
      s'.registers.amount setup.query.unknown = result) ↔
        afterFees setup.query.unknown (feeRates setup.query.unknown works)
          (s.registers.amount setup.query.unknown) = .ok result := by
  induction works generalizing s with
  | nil =>
      show (∃ s', Except.ok s = Except.ok s' ∧ _) ↔ Except.ok _ = Except.ok _
      simp only [Except.ok.injEq, exists_eq_left']
  | cons work rest ih =>
      have hrestFees : ∀ later ∈ rest, later.isFee = true :=
        fun later hmem => hfees later (List.mem_cons_of_mem work hmem)
      have hfee := hfees work List.mem_cons_self
      simp only [settleAll, bind_eq_ok_iff]
      cases work with
      | fee op leg rate carried recipient =>
          by_cases hleg : leg = setup.query.fixed
          · have hother : leg ≠ setup.query.unknown :=
              fun h => setup.query.unknown_ne_fixed (h.symm.trans hleg)
            rcases exists_settle_fixed hleg hs with ⟨t, hsettle, hamount⟩
            rw [feeRates_cons_of_ne hother, ← hamount,
              ← ih hrestFees (hs.settle (settle_eq_ok hsettle)), hsettle]
            simp only [Except.ok.injEq, exists_eq_left']
          · have hunknown := Query.eq_unknown hleg
            rw [← hunknown, feeRates_cons_self, afterFees_cons]
            constructor
            · rintro ⟨s', ⟨t, hsettle, hrest⟩, hresult⟩
              refine ⟨t.registers.amount leg,
                (settle_unknown_iff hleg hs).mp ⟨t, hsettle, rfl⟩, ?_⟩
              rw [hunknown] at hresult ⊢
              exact (ih hrestFees (hs.settle (settle_eq_ok hsettle))).mp ⟨s', hrest, hresult⟩
            · rintro ⟨after, hafter, hrest⟩
              rcases (settle_unknown_iff hleg hs).mpr hafter with ⟨t, hsettle, rfl⟩
              rw [hunknown] at hrest
              rcases (ih hrestFees (hs.settle (settle_eq_ok hsettle))).mpr hrest with
                ⟨s', hall, hresult⟩
              refine ⟨s', ⟨t, hsettle, hall⟩, ?_⟩
              rw [hunknown]
              exact hresult
      | _ => cases hfee

theorem close_unknown_iff (hsolved : s.solved = true) (hpending : s.pending = [])
    (hfees : ∀ work ∈ s.settlements, work.isFee = true) (hs : Restores setup s.settlements s)
    {result : UInt64} :
    (∃ s', close setup s = .ok s' ∧ s'.registers.amount setup.query.unknown = result) ↔
      afterFees setup.query.unknown (feeRates setup.query.unknown s.settlements)
        (s.registers.amount setup.query.unknown) = .ok result := by
  unfold close
  rw [finishSteps_of_solved hsolved hpending, ok_bind]
  have hunwound : Restores setup s.settlements { s with settlements := [] } := hs
  exact settleAll_unknown_iff hfees hunwound

end Machine
end SwapPricing
