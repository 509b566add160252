import Mathlib
import SwapPricing.Proofs.CostInverse
import SwapPricing.Proofs.JournalViews
import SwapPricing.Proofs.Placement
import SwapPricing.Proofs.SplitTrades

/-!
# Charges around a trade

Fees at fixed rates look at the amounts alone.  So a trade behind such fees takes
the same input at any balances, and at balances that are better for the taker it
pays no less.  What else is to be settled, and in which journal, makes no
difference to it either.
-/

namespace SwapPricing
namespace Machine

open Arithmetic (deductRate quoteExactIn)

/-!
# What fees do not look at
-/

/-- A map of states that keeps all that fees are computed from. -/
structure KeepsFees (k : State → State) : Prop where
  solved : ∀ s, (k s).solved = s.solved
  pending : ∀ s, (k s).pending = s.pending
  amount : ∀ s leg, (k s).registers.amount leg = s.registers.amount leg
  setAmount : ∀ s leg amount, (k s).setAmount leg amount = k (s.setAmount leg amount)
  defer : ∀ s work, (k s).defer work = k (s.defer work)
  hold : ∀ s pending, ({ k s with pending := pending } : State) = k { s with pending := pending }
  advance : ∀ s, ({ k s with next := (k s).next + 1, steps := (k s).steps + 1 } : State) =
    k { s with next := s.next + 1, steps := s.steps + 1 }

namespace KeepsFees

variable {k : State → State} {setup setup' : Setup} {s : State} (hk : KeepsFees k)

include hk

theorem requireUnsolved {op : Opcode} : (k s).requireUnsolved op = s.requireUnsolved op := by
  unfold State.requireUnsolved
  rw [hk.solved]

variable (hquery : setup'.query = setup.query)

include hquery

theorem openFee {op : Opcode} {leg : Leg} {rate : UInt64} {recipient : Option Address} :
    Machine.openFee setup' op leg rate recipient (k s) =
      (Machine.openFee setup op leg rate recipient s).map k := by
  have hin : (k s).registers.amountIn = s.registers.amountIn := hk.amount s .input
  have hout : (k s).registers.amountOut = s.registers.amountOut := hk.amount s .output
  unfold Machine.openFee
  rw [hquery, hk.requireUnsolved, hin, hout]
  apply bind_eq_map
  intro _
  cases leg with
  | input =>
      cases setup.query.fixed with
      | input =>
          apply bind_eq_map
          intro net
          apply bind_eq_map
          intro fee
          simp only [hk.setAmount, hk.defer]
          rfl
      | output =>
          simp only [hk.defer]
          rfl
  | output =>
      cases setup.query.fixed with
      | input =>
          simp only [hk.defer]
          rfl
      | output =>
          apply bind_eq_map
          intro gross
          simp only [hk.setAmount, hk.defer]
          rfl

theorem openAll (fees : List PendingFee) (s : State) :
    (fees.foldlM (fun s fee => Machine.openFee setup' (.protocolFee .input) .input
        fee.rate.toUInt64 (some fee.recipient) s) (k s) : Run State) =
      (fees.foldlM (fun s fee => Machine.openFee setup (.protocolFee .input) .input
        fee.rate.toUInt64 (some fee.recipient) s) s).map k := by
  induction fees generalizing s with
  | nil => rfl
  | cons fee rest ih =>
      rw [List.foldlM_cons, List.foldlM_cons, hk.openFee hquery]
      exact map_bind_eq_map fun s _ => ih s

theorem enter {r : Record} :
    Machine.enter setup' r (k s) = (Machine.enter setup r s).map k := by
  unfold Machine.enter releaseBefore
  rw [hk.advance]
  split
  · rfl
  · unfold release
    rw [hk.pending, hk.hold]
    exact hk.openAll hquery _ _

theorem charge {offset : Nat} {i : Instruction} (hi : i.chargesRate = true) :
    execute setup' offset i (k s) = (execute setup offset i s).map k := by
  cases i with
  | flatFee leg rate => exact hk.openFee hquery
  | protocolFee leg rate recipient =>
      cases leg with
      | input =>
          let held (t : State) : State :=
            { t with pending := t.pending ++ [⟨rate, recipient⟩] }
          have hheld : held (k s) = k (held s) := by
            show ({ k s with pending := (k s).pending ++ _ } : State) = _
            rw [hk.pending, hk.hold]
          show ((k s).requireUnsolved (.protocolFee .input) >>= fun _ => pure (held (k s))) =
            (s.requireUnsolved (.protocolFee .input) >>= fun _ => pure (held s)).map k
          rw [hk.requireUnsolved, hheld]
          exact bind_eq_map fun _ => rfl
      | output => exact hk.openFee hquery
  | _ => cases hi

theorem foldlM_step {records : List Record}
    (hrecords : ∀ r ∈ records, r.instruction.chargesRate = true) :
    records.foldlM (fun s r => step setup' r s) (k s) =
      (records.foldlM (fun s r => step setup r s) s).map k := by
  induction records generalizing s with
  | nil => rfl
  | cons r rest ih =>
      rcases List.forall_mem_cons.mp hrecords with ⟨hr, hrest⟩
      have hstep : step setup' r (k s) = (step setup r s).map k := by
        unfold step
        rw [hk.enter hquery]
        exact map_bind_eq_map fun _ _ => hk.charge hquery hr
      rw [List.foldlM_cons, List.foldlM_cons, hstep]
      exact map_bind_eq_map fun _ _ => ih hrest

end KeepsFees

theorem keepsFees_setBalances (balanceIn balanceOut : UInt64) :
    KeepsFees fun s => s.setBalances balanceIn balanceOut where
  solved _ := rfl
  pending _ := rfl
  amount s leg := Registers.amount_setBalances s.registers balanceIn balanceOut leg
  setAmount s leg amount := by cases leg <;> rfl
  defer _ _ := rfl
  hold _ _ := rfl
  advance _ := rfl

/-- The state over the journal `j`, with `works` at the bottom of what is left to
settle. -/
def State.above (j : Order.Journal) (works : List Settlement) (s : State) : State :=
  { s with journal := j, settlements := s.settlements ++ works }

theorem keepsFees_above (j : Order.Journal) (works : List Settlement) :
    KeepsFees (State.above j works) where
  solved _ := rfl
  pending _ := rfl
  amount _ _ := rfl
  setAmount _ _ _ := rfl
  defer _ _ := rfl
  hold _ _ := rfl
  advance _ := rfl

/-!
# Charging
-/

namespace Charging

variable {setup : Setup} {c s s' : State}

theorem steady : Steady setup (Charging setup c) where
  release hs := hs.relabel (List.forall_mem_nil _)
  opening _ h hs := hs.opening h
  advance _ _ hs := hs.relabel hs.rates

theorem charge {offset : Nat} {i : Instruction} (hi : i.chargesRate = true) (hrange : i.InRange)
    (h : execute setup offset i s = .ok s') (hs : Charging setup c s) : Charging setup c s' := by
  cases i with
  | flatFee leg rate => exact hs.opening (openFee_eq_ok h).2
  | protocolFee leg rate recipient =>
      cases leg with
      | input =>
          have hheld := protocolFee_of_unsolved setup rate recipient hs.unsolved
          cases hheld.symm.trans h
          apply hs.relabel
          intro fee hmem
          rcases List.mem_append.mp hmem with hmem | hmem
          · exact hs.rates fee hmem
          · rw [List.mem_singleton.mp hmem]
            exact hrange
      | output => exact hs.opening (openFee_eq_ok h).2
  | _ => cases hi

theorem foldlM_step {records : List Record}
    (hrecords : ∀ r ∈ records, r.instruction.chargesRate = true)
    (hrange : ∀ r ∈ records, r.instruction.InRange)
    (h : records.foldlM (fun s r => step setup r s) s = .ok s') (hs : Charging setup c s) :
    Charging setup c s' := by
  induction records generalizing s with
  | nil =>
      cases h
      exact hs
  | cons r rest ih =>
      rw [List.foldlM_cons, bind_eq_ok_iff] at h
      rcases h with ⟨t, hstep, hfold⟩
      rcases step_eq_ok hstep with ⟨entered, henter, hexecute⟩
      rcases List.forall_mem_cons.mp hrecords with ⟨hr, hrest⟩
      rcases List.forall_mem_cons.mp hrange with ⟨hrangeOne, hrangeRest⟩
      exact ih hrest hrangeRest hfold (charge hr hrangeOne hexecute (steady.enter henter hs))

/-- At a fixed input the pool pays for what the fees have left of it, and the fees
on the output are taken off. -/
theorem trade_of_input {result : UInt64} (hfixed : setup.query.fixed = .input)
    (hs : Charging setup c s) (hpending : s.pending = []) :
    (∃ s', (solve setup s >>= close setup) = .ok s' ∧ s'.registers.amountOut = result) ↔
      ∃ paid, quoteExactIn c.registers.balanceIn c.registers.balanceOut s.registers.amountIn =
          .ok paid ∧
        afterFees .output (feeRates .output s.settlements) paid = .ok result := by
  have hunknown : setup.query.unknown = .output := by
    unfold Query.unknown
    rw [hfixed]
    rfl
  have htrade : _ ↔ ∃ amount, _ ∧ _ = Except.ok result := hs.trade hpending
  rw [hfixed, hunknown] at htrade
  exact htrade

end Charging

/-!
# What lies below the fees
-/

section Settlements

variable {setup : Setup} {s : State}

/-- The settlement of fees writes nothing and looks at no journal. -/
theorem settleAll_fees_withJournal {view : Order.Journal → Order.Journal}
    {works : List Settlement} (hworks : ∀ work ∈ works, work.isFee = true) (s : State) :
    settleAll setup works (s.withJournal view) =
      (settleAll setup works s).map (State.withJournal view) := by
  show settleAll (setup.inMode setup.query.mode setup.external) works _ = _
  apply settleAll_withJournal fun works _ => ∀ work ∈ works, work.isFee = true
  · intro work rest s hworks
    have hfee := hworks work List.mem_cons_self
    cases work with
    | fee op leg rate carried recipient => exact settleFee_withJournal
    | _ => cases hfee
  · intro work rest s s' _ hworks
    exact (List.forall_mem_cons.mp hworks).2
  · exact hworks

/-- The fees of a trade are settled before all that lies below them. -/
theorem close_above {j : Order.Journal} {works : List Settlement} (hsolved : s.solved = true)
    (hpending : s.pending = []) (hcharges : ∀ work ∈ s.settlements, work.isFee = true) :
    close setup (s.above j works) =
      close setup s >>= fun t => settleAll setup works (t.withJournal fun _ => j) := by
  have habove : finishSteps setup (s.above j works) = .ok (s.above j works) :=
    finishSteps_of_solved hsolved hpending
  unfold close
  rw [habove, finishSteps_of_solved hsolved hpending, ok_bind, ok_bind]
  show settleAll setup (s.settlements ++ works)
    (State.withJournal (fun _ => j) { s with settlements := [] }) = _
  rw [settleAll_append, settleAll_fees_withJournal hcharges]
  cases settleAll setup s.settlements { s with settlements := [] } <;> rfl

end Settlements

/-!
# Better balances
-/

theorem exists_quoteExactIn_of_le {balanceIn balanceOut lower higher amount paid : UInt64}
    (hlower : lower ≠ 0) (hin : lower ≤ balanceIn) (hout : balanceOut ≤ higher)
    (h : quoteExactIn balanceIn balanceOut amount = .ok paid) :
    ∃ more, quoteExactIn lower higher amount = .ok more ∧ paid ≤ more := by
  rcases Arithmetic.quoteExactIn_eq_ok_iff.mp h with ⟨-, houtPos, hpaid⟩
  have hhigher : higher ≠ 0 := by
    rintro rfl
    exact houtPos (UInt64.le_zero_iff.mp hout)
  rcases Arithmetic.exists_quoteExactIn hlower hhigher amount with ⟨more, hmore⟩
  refine ⟨more, hmore, ?_⟩
  have hlowerPos : 0 < lower.toNat :=
    Nat.pos_of_ne_zero fun hzero => hlower (UInt64.toNat_inj.mp hzero)
  rw [UInt64.le_iff_toNat_le, hpaid, (Arithmetic.quoteExactIn_eq_ok_iff.mp hmore).2.2]
  calc amount.toNat * balanceOut.toNat / (balanceIn.toNat + amount.toNat)
      ≤ amount.toNat * higher.toNat / (balanceIn.toNat + amount.toNat) :=
        Nat.div_le_div_right (Nat.mul_le_mul_left _ (UInt64.le_iff_toNat_le.mp hout))
    _ ≤ amount.toNat * higher.toNat / (lower.toNat + amount.toNat) :=
        Nat.div_le_div_left (Nat.add_le_add_right (UInt64.le_iff_toNat_le.mp hin) _)
          (Nat.add_pos_left hlowerPos _)

theorem exists_afterFees_of_le {rates : List UInt64} {paid more left : UInt64}
    (hle : paid ≤ more) (h : afterFees .output rates paid = .ok left) :
    ∃ kept, afterFees .output rates more = .ok kept ∧ left ≤ kept := by
  induction rates generalizing paid more with
  | nil =>
      cases h
      exact ⟨more, rfl, hle⟩
  | cons rate rest ih =>
      rcases afterFees_cons.mp h with ⟨net, hnet, hrest⟩
      rcases Arithmetic.deductRate_eq_ok_iff.mp hnet with ⟨hrate, hvalue⟩
      rcases Arithmetic.exists_deductRate more hrate with ⟨larger, hlarger⟩
      have hle : net ≤ larger := by
        rw [UInt64.le_iff_toNat_le, hvalue, (Arithmetic.deductRate_eq_ok_iff.mp hlarger).2]
        exact Nat.div_le_div_right (Nat.mul_le_mul_right _ (UInt64.le_iff_toNat_le.mp hle))
      rcases ih hle hrest with ⟨kept, hkept, hleft⟩
      exact ⟨kept, afterFees_cons.mpr ⟨larger, hlarger, hkept⟩, hleft⟩

/-!
# Trades behind fees
-/

/-- The state behind the fees `fees` and the trade `last`. -/
def solvedTrade (setup : Setup) (fees : List Record) (last : Record) (s : State) : Run State :=
  (fees.foldlM (fun s r => step setup r s) s >>= enter setup last) >>= solve setup

/-- The state in which all of that is settled. -/
def chargedTrade (setup : Setup) (fees : List Record) (last : Record) (s : State) : Run State :=
  solvedTrade setup fees last s >>= close setup

section Trades

variable {setup : Setup} {fees : List Record} {last : Record} {c s t : State}
  (hfees : ∀ r ∈ fees, r.instruction.chargesRate = true)
  (hlast : last.instruction = .solve)

include hfees

/-- What lies below does not bear on the trade. -/
theorem solvedTrade_above {j : Order.Journal} {works : List Settlement} :
    solvedTrade setup fees last (s.above j works) =
      (solvedTrade setup fees last s).map (State.above j works) := by
  have hk := keepsFees_above j works
  unfold solvedTrade
  rw [hk.foldlM_step rfl hfees, map_bind_eq_map fun _ _ => hk.enter rfl]
  exact map_bind_eq_map fun _ _ => bind_eq_map fun _ => bind_eq_map fun _ => rfl

include hlast

theorem charging_front (hrange : ∀ r ∈ fees, r.instruction.InRange)
    (h : (fees.foldlM (fun s r => step setup r s) s >>= enter setup last) = .ok t)
    (hs : Charging setup c s) : Charging setup c t ∧ t.pending = [] := by
  rcases bind_eq_ok_iff.mp h with ⟨opened, hfold, henter⟩
  have hwaits : keepsWaiting last.opcode = false := by
    unfold Record.opcode
    rw [hlast]
    rfl
  exact ⟨Charging.steady.enter henter (hs.foldlM_step hfees hrange hfold),
    Matched.pending_enter hwaits henter⟩

/-- At balances that are better for the taker, the trade pays no less for the same
input, wherever it is made. -/
theorem exists_chargedTrade_of_le {setup' : Setup} (hquery : setup'.query = setup.query)
    (hrange : ∀ r ∈ fees, r.instruction.InRange) (hfixed : setup.query.fixed = .input)
    {balanceIn balanceOut : UInt64} (hs : Charging setup s s)
    (hs' : Charging setup' (s.setBalances balanceIn balanceOut)
      (s.setBalances balanceIn balanceOut))
    (hpos : balanceIn ≠ 0) (hin : balanceIn ≤ s.registers.balanceIn)
    (hout : s.registers.balanceOut ≤ balanceOut) (h : chargedTrade setup fees last s = .ok t) :
    ∃ t', chargedTrade setup' fees last (s.setBalances balanceIn balanceOut) = .ok t' ∧
      t.registers.amountOut ≤ t'.registers.amountOut := by
  have hk := keepsFees_setBalances balanceIn balanceOut
  unfold chargedTrade solvedTrade at h
  rw [bind_assoc, bind_eq_ok_iff] at h
  rcases h with ⟨e, hfront, htrade⟩
  have hfront' : (fees.foldlM (fun s r => step setup' r s) (s.setBalances balanceIn balanceOut) >>=
      enter setup' last) = .ok (e.setBalances balanceIn balanceOut) := by
    rcases bind_eq_ok_iff.mp hfront with ⟨opened, hfold, henter⟩
    rw [hk.foldlM_step hquery hfees, hfold]
    show enter setup' last (opened.setBalances balanceIn balanceOut) = _
    rw [hk.enter hquery, henter]
    rfl
  rcases charging_front hfees hlast hrange hfront hs with ⟨he, hpending⟩
  rcases charging_front hfees hlast hrange hfront' hs' with ⟨he', -⟩
  have hfixed' : setup'.query.fixed = .input := by rw [hquery, hfixed]
  rcases (he.trade_of_input hfixed hpending).mp ⟨t, htrade, rfl⟩ with ⟨paid, hpaid, hleft⟩
  rcases exists_quoteExactIn_of_le hpos hin hout hpaid with ⟨more, hmore, hle⟩
  rcases exists_afterFees_of_le hle hleft with ⟨kept, hkept, hkeptLe⟩
  have hamount : (e.setBalances balanceIn balanceOut).registers.amountIn = e.registers.amountIn :=
    rfl
  rw [← hamount] at hmore
  rcases (he'.trade_of_input hfixed' hpending).mpr ⟨more, hmore, hkept⟩ with ⟨t', ht', rfl⟩
  refine ⟨t', ?_, hkeptLe⟩
  unfold chargedTrade solvedTrade
  rw [bind_assoc]
  exact bind_eq_ok_iff.mpr ⟨_, hfront', ht'⟩

/-- Behind the trade there is nothing but the settlement of its fees. -/
theorem solved_of_solvedTrade (hrange : ∀ r ∈ fees, r.instruction.InRange)
    (h : solvedTrade setup fees last s = .ok t) (hs : Charging setup c s) :
    t.solved = true ∧ t.pending = [] ∧ ∀ work ∈ t.settlements, work.isFee = true := by
  rcases bind_eq_ok_iff.mp h with ⟨e, hfront, hsolve⟩
  rcases charging_front hfees hlast hrange hfront hs with ⟨he, hpending⟩
  rcases (solve_eq_ok_iff he.unsolved).mp hsolve with ⟨amount, -, rfl⟩
  exact ⟨rfl, hpending, he.fees⟩

/-- No trade is made at a balance of zero. -/
theorem balances_ne_zero_of_chargedTrade (hrange : ∀ r ∈ fees, r.instruction.InRange)
    (h : chargedTrade setup fees last s = .ok t) (hs : Charging setup s s) :
    s.registers.balanceIn ≠ 0 ∧ s.registers.balanceOut ≠ 0 := by
  rcases bind_eq_ok_iff.mp h with ⟨v, hv, -⟩
  rcases bind_eq_ok_iff.mp hv with ⟨e, hfront, hsolve⟩
  rcases charging_front hfees hlast hrange hfront hs with ⟨he, -⟩
  rcases (solve_eq_ok_iff he.unsolved).mp hsolve with ⟨amount, hamount, -⟩
  rw [he.balanceIn, he.balanceOut] at hamount
  generalize setup.query.fixed = fixed at hamount
  cases fixed with
  | input =>
      have htrade : PoolTrade .input e.registers.amountIn _ _ e.registers.amountIn amount :=
        ⟨rfl, hamount⟩
      exact htrade.balances_ne_zero
  | output =>
      have htrade : PoolTrade .output e.registers.amountOut _ _ amount e.registers.amountOut :=
        ⟨rfl, hamount⟩
      exact htrade.balances_ne_zero

end Trades

end Machine
end SwapPricing
