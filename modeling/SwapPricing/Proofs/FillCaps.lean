import SwapPricing.Proofs.Histories
import SwapPricing.Proofs.Quoting
import SwapPricing.Proofs.Unwinding

/-!
# Fill caps

A fill cap adds the amount of its leg to what was filled before and refuses the
trade if that is more than the cap.  It sees the amount as it stands when the cap
is settled.  Settlements never raise an output, so what the taker receives is no
more than what a cap has counted.  A fee on the input raises the amount when it
is settled, so a cap sees all of the input only if the fees on the input are
settled before it, which is where the cap stands in front of them.
-/

namespace SwapPricing
namespace Machine

/-!
# What later settlements do
-/

def Settlement.isFeeOn (leg : Leg) : Settlement → Bool
  | .fee _ on _ _ _ => on = leg
  | _ => false

/-- Work that cannot raise the amount of a leg: anything for the output, and
anything but a fee on it for the input. -/
def Settlement.KeepsDown (leg : Leg) (work : Settlement) : Prop :=
  leg = .input → work.isFeeOn .input = false

section Settling

variable {setup : Setup} {s s' : State} {work : Settlement} {works rest : List Settlement}
  {leg : Leg}

theorem amount_le_of_settled (hdown : work.KeepsDown leg) (hs : Restores setup (work :: rest) s)
    (h : Settled setup work s s') : s'.registers.amount leg ≤ s.registers.amount leg := by
  cases h with
  | charged hfee =>
      rename_i op on rate fee amount carried recipient
      show (s.registers.setAmount on amount).amount leg ≤ s.registers.amount leg
      by_cases hon : leg = on
      · subst hon
        rw [Registers.amount_setAmount]
        cases leg with
        | input => cases hdown rfl
        | output =>
            cases carried with
            | none =>
                simp only [settledFee, bind_eq_ok_iff, pure_eq_ok_iff, Prod.mk.injEq] at hfee
                rcases hfee with ⟨net, hnet, owed, -, -, rfl⟩
                exact Arithmetic.deductRate_le hnet
            | some requested =>
                -- What was asked for was raised when the fee was opened, so the stack bounds it.
                simp only [settledFee, pure_eq_ok_iff, Prod.mk.injEq] at hfee
                rcases hfee with ⟨-, rfl⟩
                exact hs.requested_le rfl rfl
      · rw [Registers.amount_setAmount_of_ne _ hon]
        exact UInt64.le_refl _
  | _ =>
      rw [State.registers_write]
      exact UInt64.le_refl _

theorem amount_le_of_settleAll (hdown : ∀ work ∈ works, work.KeepsDown leg)
    (hs : Restores setup works s) (h : settleAll setup works s = .ok s') :
    s'.registers.amount leg ≤ s.registers.amount leg := by
  induction works generalizing s with
  | nil =>
      cases h
      exact UInt64.le_refl _
  | cons work rest ih =>
      rcases settleAll_cons_eq_ok h with ⟨t, hsettled, hrest⟩
      have hfirst := amount_le_of_settled (hdown work List.mem_cons_self) hs hsettled
      have hbehind : ∀ work ∈ rest, work.KeepsDown leg :=
        fun work hwork => hdown work (List.mem_cons_of_mem _ hwork)
      exact UInt64.le_trans (ih hbehind (hs.settle hsettled) hrest) hfirst

/-- No settlement lowers what was filled, of whatever program. -/
theorem filled_le_of_settled (program : ProgramId) (side : Side) (h : Settled setup work s s') :
    (s.journal.filled program side).toNat ≤ (s'.journal.filled program side).toNat := by
  cases h with
  | filled hcap =>
      apply State.write_keeps fun j =>
        (s.journal.filled program side).toNat ≤ (j.filled program side).toNat
      · exact Nat.le_refl _
      · exact s.journal.filled_le_setFilled program setup.program.id _
          (Nat.lt_of_le_of_lt hcap (UInt64.toNat_lt _)) side
  | charged hfee => exact Nat.le_refl _
  | _ =>
      apply State.write_keeps fun j =>
        (s.journal.filled program side).toNat ≤ (j.filled program side).toNat
      · exact Nat.le_refl _
      · exact Nat.le_refl _

theorem filled_le_of_settleAll (program : ProgramId) (side : Side)
    (h : settleAll setup works s = .ok s') :
    (s.journal.filled program side).toNat ≤ (s'.journal.filled program side).toNat := by
  induction works generalizing s with
  | nil =>
      cases h
      exact Nat.le_refl _
  | cons work rest ih =>
      rcases settleAll_cons_eq_ok h with ⟨t, hsettled, hrest⟩
      exact Nat.le_trans (filled_le_of_settled program side hsettled) (ih hrest)

def Setup.sideOf (setup : Setup) (leg : Leg) : Side :=
  ⟨setup.query.asset leg, leg⟩

/-- What was filled before a cap is settled, together with the amount in the
end, keeps to the cap and is recorded. -/
structure Counted (setup : Setup) (leg : Leg) (cap : UInt64) (s s' : State) : Prop where
  within : (s.journal.filled setup.program.id (setup.sideOf leg)).toNat +
    (s'.registers.amount leg).toNat ≤ cap.toNat
  recorded : (s.journal.filled setup.program.id (setup.sideOf leg)).toNat +
    (s'.registers.amount leg).toNat ≤
      (s'.journal.filled setup.program.id (setup.sideOf leg)).toNat

theorem Counted.of_le {t : State} {cap : UInt64}
    (hle : (s.journal.filled setup.program.id (setup.sideOf leg)).toNat ≤
      (t.journal.filled setup.program.id (setup.sideOf leg)).toNat)
    (h : Counted setup leg cap t s') : Counted setup leg cap s s' where
  within := Nat.le_trans (Nat.add_le_add_right hle _) h.within
  recorded := Nat.le_trans (Nat.add_le_add_right hle _) h.recorded

theorem counted_of_settleAll {before after : List Settlement} {cap : UInt64}
    (hmode : setup.query.mode = .commit) (hafter : ∀ work ∈ after, work.KeepsDown leg)
    (hs : Restores setup (before ++ .fillCap leg cap :: after) s)
    (h : settleAll setup (before ++ .fillCap leg cap :: after) s = .ok s') :
    Counted setup leg cap s s' := by
  -- Up to the cap, what was filled only grows; behind it, the amount only shrinks.
  induction before generalizing s with
  | nil =>
      rw [List.nil_append] at hs h
      rcases settleAll_cons_eq_ok h with ⟨t, hsettled, hrest⟩
      have hrecorded := filled_le_of_settleAll setup.program.id (setup.sideOf leg) hrest
      have hamount := UInt64.le_iff_toNat_le.mp
        (amount_le_of_settleAll hafter (hs.settle hsettled) hrest)
      cases hsettled with
      | filled hcap =>
          rw [hmode] at hrecorded hamount
          rw [State.registers_write] at hamount
          have hfit := Nat.lt_of_le_of_lt hcap cap.toNat_lt
          have htotal : (s.journal.filled setup.program.id (setup.sideOf leg)).toNat +
              (s.registers.amount leg).toNat ≤
                (s'.journal.filled setup.program.id (setup.sideOf leg)).toNat := by
            refine Nat.le_trans (Nat.le_of_eq ?_) hrecorded
            show _ = ((s.journal.setFilled _ _ _).filled _ _).toNat
            unfold Setup.sideOf
            rw [Order.Journal.filled_setFilled_self, UInt64.toNat_add, Nat.mod_eq_of_lt hfit]
          exact ⟨Nat.le_trans (Nat.add_le_add_left hamount _) hcap,
            Nat.le_trans (Nat.add_le_add_left hamount _) htotal⟩
  | cons work before ih =>
      rw [List.cons_append] at hs h
      rcases settleAll_cons_eq_ok h with ⟨t, hsettled, hrest⟩
      exact (ih (hs.settle hsettled) hrest).of_le (filled_le_of_settled _ _ hsettled)

end Settling

/-!
# Where a cap stands

Settlements are unwound from the last one to the first, so what is settled after
a cap is what was deferred before it.
-/

/-- The instructions in front of the first fee on the input. -/
def untaxed (is : List Instruction) : List Instruction :=
  is.takeWhile fun i => !keepsWaiting i.opcode

/-- No fee on the input has been opened, and none waits. -/
structure Untaxed (s : State) : Prop where
  pending : s.pending = []
  settlements : ∀ work ∈ s.settlements, work.isFeeOn .input = false

section Standing

variable {setup : Setup} {s s' : State}

namespace Untaxed

theorem defer {work : Settlement} (hwork : work.isFeeOn .input = false) (hs : Untaxed s) :
    Untaxed (s.defer work) where
  pending := hs.pending
  settlements := List.forall_mem_cons.mpr ⟨hwork, hs.settlements⟩

theorem setBalances {balanceIn balanceOut : UInt64} (hs : Untaxed s) :
    Untaxed (s.setBalances balanceIn balanceOut) :=
  ⟨hs.pending, hs.settlements⟩

theorem openFee {op : Opcode} {rate : UInt64} {recipient : Option Address}
    (h : Machine.openFee setup op .output rate recipient s = .ok s') (hs : Untaxed s) :
    Untaxed s' := by
  cases (openFee_eq_ok h).2 with
  | charged hleg => cases hleg
  | raised hleg hfixed hgross => exact ⟨hs.pending, (hs.defer rfl).settlements⟩
  | postponed hleg => exact hs.defer rfl

theorem enter {r : Record} (h : Machine.enter setup r s = .ok s') (hs : Untaxed s) :
    Untaxed s' ∧ s'.settlements = s.settlements := by
  rw [enter_of_pending_nil hs.pending] at h
  cases h
  exact ⟨⟨hs.pending, hs.settlements⟩, rfl⟩

theorem execute {offset : Nat} {i : Instruction} (hi : keepsWaiting i.opcode = false)
    (h : Machine.execute setup offset i s = .ok s') (hs : Untaxed s) : Untaxed s' := by
  cases hopens : i.opensFee with
  | true =>
      cases i with
      | flatFee leg rate =>
          cases leg with
          | input => cases hi
          | output => exact hs.openFee h
      | progressiveFee leg terms =>
          cases leg with
          | input => cases hi
          | output =>
              have hfee : progressiveFee setup .output terms s = .ok s' := h
              simp only [progressiveFee, bind_eq_ok_iff] at hfee
              rcases hfee with ⟨rate, -, hopen⟩
              exact hs.openFee hopen
      | protocolFee leg rate recipient =>
          cases leg with
          | input => cases hopens
          | output => exact hs.openFee h
      | _ => cases hopens
  | false =>
      cases execute_eq_ok h with
      | opened hfee => rw [hopens] at hfee; cases hfee
      | held => cases hi
      | loaded => exact hs.setBalances.defer rfl
      | faded => exact hs.setBalances.defer rfl
      | offered => exact hs.setBalances.defer rfl
      | capped => exact hs.defer rfl
      | marked =>
          cases setup.query.mode with
          | simulate => exact hs
          | commit => exact ⟨hs.pending, hs.settlements⟩
      | _ => exact ⟨hs.pending, hs.settlements⟩

end Untaxed

/-- Settlements are only put in front of the others. -/
theorem suffix_invariant (works : List Settlement) :
    Invariant setup (fun s => works <:+ s.settlements) fun _ _ => True where
  advance _ _ hs := hs
  release hs := hs
  opening _ h hs := by
    cases h <;> exact hs.trans (List.suffix_cons _ _)
  change {r _ _} _ h hs := by
    generalize r.instruction = i at h
    cases h with
    | opened _ _ hopening => cases hopening <;> exact hs.trans (List.suffix_cons _ _)
    | loaded => exact hs.trans (List.suffix_cons _ _)
    | faded => exact hs.trans (List.suffix_cons _ _)
    | offered => exact hs.trans (List.suffix_cons _ _)
    | capped => exact hs.trans (List.suffix_cons _ _)
    | marked =>
        rw [State.settlements_write]
        exact hs
    | _ => exact hs
  finish _ _ := trivial
  settle _ _ := trivial

/-- Behind a cap that was executed in front of all fees on the input, no fee on
the input is settled. -/
theorem suffix_of_ran {left : Nat} {leg : Leg} {cap : UInt64} (h : Ran setup left s s')
    (hs : Untaxed s) (hcap : .fillCap leg cap ∈ untaxed (executedFrom setup left s)) :
    ∃ after, .fillCap leg cap :: after <:+ s'.settlements ∧
      ∀ work ∈ after, work.isFeeOn .input = false := by
  induction h with
  | finished hend =>
      rename_i left s
      rw [executedFrom_none left hend] at hcap
      cases hcap
  | stepped hr hstep hrest ih =>
      rename_i left r s t s'
      rw [executedFrom_step hr hstep] at hcap
      unfold untaxed at hcap
      rw [List.takeWhile_cons] at hcap
      cases hwaits : keepsWaiting r.instruction.opcode with
      | true =>
          rw [hwaits] at hcap
          cases hcap
      | false =>
          simp only [hwaits, Bool.not_false, if_true] at hcap
          rcases step_eq_ok hstep with ⟨u, henter, hexecute⟩
          have hu := (hs.enter henter).1
          rcases List.mem_cons.mp hcap with heq | hmem
          -- The cap is put in front of what was deferred so far, and stays there.
          · rw [← heq] at hexecute
            cases hexecute
            exact ⟨u.settlements, (suffix_invariant _).ran hrest (List.suffix_refl _),
              hu.settlements⟩
          · exact ih (hu.execute hwaits hexecute) hmem

end Standing

/-!
# Swaps under a cap
-/

section Runs

variable {setup : Setup} {limit : UInt32} {store : Order.Store} {s' : State}

/-- A cap is settled with nothing behind it that raises the amount of its leg. -/
def Stands (leg : Leg) (cap : UInt64) (works : List Settlement) : Prop :=
  ∃ before after, works = before ++ .fillCap leg cap :: after ∧
    ∀ work ∈ after, work.KeepsDown leg

theorem stands_of_mem_executed {stepped s : State} {cap : UInt64}
    (hsteps : runSteps setup limit limit.toNat (State.initial setup.query store) = .ok stepped)
    (hfinish : finishSteps setup stepped = .ok s)
    (hcap : .fillCap .output cap ∈ executed setup limit store) :
    Stands .output cap s.settlements := by
  have horigin : .fillCap .output cap ∈ origins s := by
    rw [origins_of_finished hsteps hfinish, List.mem_reverse]
    exact List.mem_filter.mpr ⟨hcap, rfl⟩
  rcases List.mem_filterMap.mp horigin with ⟨work, hwork, heq⟩
  have hfill : work = .fillCap .output cap := by
    cases work with
    | fillCap leg own => cases heq; rfl
    | decay period => cases heq
    | _ => cases heq
  rw [hfill] at hwork
  rcases List.append_of_mem hwork with ⟨before, after, hsplit⟩
  exact ⟨before, after, hsplit, fun _ _ => nofun⟩

theorem stands_of_mem_untaxed {stepped s : State} {leg : Leg} {cap : UInt64}
    (hsteps : runSteps setup limit limit.toNat (State.initial setup.query store) = .ok stepped)
    (hfinish : finishSteps setup stepped = .ok s)
    (hcap : .fillCap leg cap ∈ untaxed (executed setup limit store)) :
    Stands leg cap s.settlements := by
  have hinitial : Untaxed (State.initial setup.query store) := ⟨rfl, nofun⟩
  rw [executed_eq] at hcap
  rcases suffix_of_ran (ran_of_runSteps hsteps) hinitial hcap with ⟨after, hsuffix, hafter⟩
  rcases ((suffix_invariant _).finishSteps hfinish hsuffix).2 with ⟨before, hsplit⟩
  exact ⟨before, after, hsplit.symm, fun work hwork _ => hafter work hwork⟩

/-- Caps of a leg that are executed within a range of the instructions stand
where they count all of the amount. -/
def Reliable (range : List Instruction → List Instruction) (leg : Leg) : Prop :=
  ∀ {setup : Setup} {limit : UInt32} {store : Order.Store} {stepped s : State} {cap : UInt64},
    runSteps setup limit limit.toNat (State.initial setup.query store) = .ok stepped →
      finishSteps setup stepped = .ok s →
        .fillCap leg cap ∈ range (executed setup limit store) → Stands leg cap s.settlements

theorem reliable_untaxed (leg : Leg) : Reliable untaxed leg :=
  stands_of_mem_untaxed

/-- A cap on the output may stand anywhere. -/
theorem reliable_output : Reliable id .output :=
  stands_of_mem_executed

/-- No run lowers what was filled, of whatever program. -/
theorem filled_le_of_run (program : ProgramId) (side : Side)
    (h : run setup limit store = .ok s') :
    (store.filled program side).toNat ≤ (s'.journal.filled program side).toNat := by
  rcases run_eq_ok h with ⟨stepped, s, hsteps, hfinish, hsettle⟩
  have hbits := onlyBits_of_finished hsteps hfinish
  have hle := filled_le_of_settleAll program side hsettle
  rw [← hbits.filled]
  exact hle

/-- A cap that stands well counts the amount that the trade ends with. -/
theorem counted_of_run {range : List Instruction → List Instruction} {leg : Leg} {cap : UInt64}
    (hrange : Reliable range leg)
    (hexternal : ∀ r ∈ setup.program.records, r.opcode ≠ .extruction)
    (hmode : setup.query.mode = .commit) (h : run setup limit store = .ok s')
    (hcap : .fillCap leg cap ∈ range (executed setup limit store)) :
    Counted setup leg cap (State.initial setup.query store) s' := by
  rcases run_eq_ok h with ⟨stepped, s, hsteps, hfinish, hsettle⟩
  have hbits := onlyBits_of_finished hsteps hfinish
  have hrestores : Restores setup s.settlements { s with settlements := [] } :=
    ((Restores.invariant hexternal).finishSteps hfinish
      ((Restores.invariant hexternal).runSteps hsteps (Restores.initial store))).2
  rcases hrange hsteps hfinish hcap with ⟨before, after, hsplit, hafter⟩
  rw [hsplit] at hrestores hsettle
  have hcounted := counted_of_settleAll hmode hafter hrestores hsettle
  refine hcounted.of_le (Nat.le_of_eq ?_)
  show ((Order.Journal.opened store).filled _ _).toNat = (s.journal.filled _ _).toNat
  rw [hbits.filled, (OnlyBits.opened store).filled]

end Runs

/-!
# Histories of trades under a cap
-/

def hasCap (leg : Leg) (is : List Instruction) : Bool :=
  is.any fun
    | .fillCap on _ => on = leg
    | _ => false

theorem exists_cap_of_hasCap {leg : Leg} {is : List Instruction} (h : hasCap leg is = true) :
    ∃ cap, .fillCap leg cap ∈ is := by
  rcases List.any_eq_true.mp h with ⟨i, hi, hcap⟩
  cases i with
  | fillCap on cap =>
      have hon : on = leg := of_decide_eq_true hcap
      exact ⟨cap, hon ▸ hi⟩
  | _ => cases hcap

/-- What a swap under the id `owner` trades of a side, if it succeeds and a cap of
that leg is among the executed instructions in `range`.  A program that hands
amounts over to external logic does not count. -/
def Bid.tradedUnder (range : List Instruction → List Instruction) (owner : ProgramId) (side : Side)
    (b : Bid) (store : Order.Store) : Nat :=
  match (b.place store).1 with
  | .ok o =>
      if b.program.id = owner ∧ (∀ r ∈ b.program.records, r.opcode ≠ .extruction) ∧
          b.query.asset side.leg = side.asset ∧ hasCap side.leg (range (b.executed store)) then
        (o.registers.amount side.leg).toNat
      else
        0
  | .error _ => 0

section Capped

variable {range : List Instruction → List Instruction} {leg : Leg}

/-- A swap raises what was filled by what it trades under a cap. -/
theorem filled_add_tradedUnder_le (hrange : Reliable range leg) (owner : ProgramId)
    (asset : AssetId) (b : Bid) (store : Order.Store) :
    (store.filled owner ⟨asset, leg⟩).toNat + b.tradedUnder range owner ⟨asset, leg⟩ store ≤
      ((b.place store).2.filled owner ⟨asset, leg⟩).toNat := by
  unfold Bid.tradedUnder
  rcases b.place_cases store with ⟨s, haccepted, hrun, hplace⟩ | ⟨e, hplace⟩
  · rw [hplace]
    simp only [Order.Journal.filled_commit]
    split
    · rename_i hcounts
      rcases hcounts with ⟨rfl, hexternal, rfl, hcap⟩
      rcases exists_cap_of_hasCap hcap with ⟨cap, hmem⟩
      exact (counted_of_run hrange hexternal haccepted.mode_eq hrun hmem).recorded
    · exact filled_le_of_run owner ⟨asset, leg⟩ hrun
  · rw [hplace]
    exact Nat.le_refl _

theorem filled_add_tally_le (hrange : Reliable range leg) (b : Bid)
    (hexternal : ∀ r ∈ b.program.records, r.opcode ≠ .extruction) (store : Order.Store)
    (history : List Action) {o : Outcome} {cap : UInt64}
    (hok : (b.place (storeAfter store history)).1 = .ok o)
    (hcap : .fillCap leg cap ∈ range (b.executed (storeAfter store history))) :
    (store.filled b.program.id (b.setup.sideOf leg)).toNat +
        tally (Bid.tradedUnder range b.program.id (b.setup.sideOf leg)) store history +
        (o.registers.amount leg).toNat ≤ cap.toNat := by
  have hhistory := add_tally_le
    (filled_add_tradedUnder_le hrange b.program.id (b.query.asset leg))
    (fun _ _ _ => Nat.le_refl _) store history
  rcases b.place_cases (storeAfter store history) with ⟨s, haccepted, hrun, hplace⟩ | ⟨e, hplace⟩
  · rw [hplace] at hok
    cases hok
    have hwithin := (counted_of_run hrange hexternal haccepted.mode_eq hrun hcap).within
    exact Nat.le_trans (Nat.add_le_add_right hhistory _) hwithin
  · rw [hplace] at hok
    cases hok

end Capped

/-- Whatever happens to a store, the outputs that a program trades under a cap,
together with what was filled before, keep to the cap of every trade. -/
theorem output_filled_le_cap (b : Bid)
    (hexternal : ∀ r ∈ b.program.records, r.opcode ≠ .extruction) (store : Order.Store)
    (history : List Action) {o : Outcome} {cap : UInt64}
    (hok : (b.place (storeAfter store history)).1 = .ok o)
    (hcap : .fillCap .output cap ∈ b.executed (storeAfter store history)) :
    (store.filled b.program.id ⟨b.query.assetOut, .output⟩).toNat +
        tally (Bid.tradedUnder id b.program.id ⟨b.query.assetOut, .output⟩) store history +
        o.amountOut.toNat ≤ cap.toNat :=
  filled_add_tally_le reliable_output b hexternal store history hok hcap

def cappedPool : Program where
  id := .single 80
  bytes := #[]
  records := #[⟨0, .fillCap .output 8000⟩, ⟨10, .flatFee .output 30⟩,
    ⟨14, .staticBalances [(.single 65, 1000000), (.single 66, 2000000)]⟩,
    ⟨96, .fillCap .output 6000⟩, ⟨106, .solve⟩]

/-- What happens before another trade: one trade, and one that is refused. -/
def cappedTrades : List Action :=
  [.swap (payInto cappedPool 1000), .invalidate (.single 80) 3, .swap (payInto cappedPool 9000)]

theorem output_filled_le_cap_of_second_trade :
    ((payInto cappedPool 1000).place (storeAfter .empty cappedTrades)).1 =
      .ok ⟨⟨1000000, 2000000, 1000, 1992⟩, [], 5⟩ ∧
    tally (Bid.tradedUnder id (.single 80) ⟨.single 66, .output⟩) .empty cappedTrades = 1992 ∧
    (Order.Store.empty.filled (.single 80) ⟨.single 66, .output⟩).toNat +
        tally (Bid.tradedUnder id (.single 80) ⟨.single 66, .output⟩) .empty cappedTrades +
        (1992 : UInt64).toNat ≤ (8000 : UInt64).toNat := by
  have hok : ((payInto cappedPool 1000).place (storeAfter .empty cappedTrades)).1 =
    .ok ⟨⟨1000000, 2000000, 1000, 1992⟩, [], 5⟩ := rfl
  exact ⟨hok, rfl, output_filled_le_cap (payInto cappedPool 1000) (by decide) .empty cappedTrades
    hok (by decide)⟩

/-- The same holds of the inputs that are traded under a cap in front of all fees
on the input. -/
theorem input_filled_le_cap (b : Bid)
    (hexternal : ∀ r ∈ b.program.records, r.opcode ≠ .extruction) (store : Order.Store)
    (history : List Action) {o : Outcome} {cap : UInt64}
    (hok : (b.place (storeAfter store history)).1 = .ok o)
    (hcap : .fillCap .input cap ∈ untaxed (b.executed (storeAfter store history))) :
    (store.filled b.program.id ⟨b.query.assetIn, .input⟩).toNat +
        tally (Bid.tradedUnder untaxed b.program.id ⟨b.query.assetIn, .input⟩) store history +
        o.amountIn.toNat ≤ cap.toNat :=
  filled_add_tally_le (reliable_untaxed .input) b hexternal store history hok hcap

def sealedPool : Program where
  id := .single 80
  bytes := #[]
  records := #[⟨0, .fillCap .input 250000⟩, ⟨10, .flatFee .input 30⟩,
    ⟨14, .staticBalances [(.single 65, 1000000), (.single 66, 2000000)]⟩, ⟨96, .solve⟩]

theorem input_filled_le_cap_of_second_trade :
    ((payInto sealedPool 100000).place
        (storeAfter .empty [.swap (payInto sealedPool 100000)])).1 =
      .ok ⟨⟨1000000, 2000000, 100000, 181322⟩, [], 4⟩ ∧
    tally (Bid.tradedUnder untaxed (.single 80) ⟨.single 65, .input⟩) .empty
        [.swap (payInto sealedPool 100000)] = 100000 ∧
    (Order.Store.empty.filled (.single 80) ⟨.single 65, .input⟩).toNat +
        tally (Bid.tradedUnder untaxed (.single 80) ⟨.single 65, .input⟩) .empty
          [.swap (payInto sealedPool 100000)] +
        (100000 : UInt64).toNat ≤ (250000 : UInt64).toNat := by
  have hok : ((payInto sealedPool 100000).place
      (storeAfter .empty [.swap (payInto sealedPool 100000)])).1 =
    .ok ⟨⟨1000000, 2000000, 100000, 181322⟩, [], 4⟩ := rfl
  exact ⟨hok, rfl, input_filled_le_cap (payInto sealedPool 100000) (by decide) .empty _
    hok (by decide)⟩

/-- A pool with a cap on the input behind a fee on it. -/
def leakyPool : Program where
  id := .single 80
  bytes := #[]
  records := #[⟨0, .flatFee .input 30⟩,
    ⟨4, .staticBalances [(.single 65, 1000000), (.single 66, 2000000)]⟩,
    ⟨86, .fillCap .input 99700⟩, ⟨96, .solve⟩]

/-- Such a cap is settled before the fee is added back, so the taker pays more
than the cap. -/
theorem cap_lt_input_behind_fee :
    (∀ r ∈ leakyPool.records, r.opcode ≠ .extruction) ∧
    ((payInto leakyPool 100000).place (storeAfter .empty [])).1 =
      .ok ⟨⟨1000000, 2000000, 100000, 181322⟩, [], 4⟩ ∧
    .fillCap .input 99700 ∈ (payInto leakyPool 100000).executed (storeAfter .empty []) ∧
    ¬ (Order.Store.empty.filled (.single 80) ⟨.single 65, .input⟩).toNat +
        tally (Bid.tradedUnder id (.single 80) ⟨.single 65, .input⟩) .empty [] +
        (100000 : UInt64).toNat ≤ (99700 : UInt64).toNat :=
  ⟨by decide, rfl, by decide, by decide⟩

end Machine
end SwapPricing
