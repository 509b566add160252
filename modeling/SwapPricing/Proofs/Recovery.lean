import Mathlib
import SwapPricing.Proofs.DecayingPools
import SwapPricing.Proofs.Directions
import SwapPricing.Proofs.StoredBalances

/-!
# Recovery of prices

Swaps in one direction make the opposite direction dearer, and only for a while.
Whoever comes to a pool behind any history of swaps is paid no more than if there
had been none, the more the longer he waits, and just as much once the last swap of
the opposite direction is a whole period old.
-/

namespace SwapPricing

/-- Whether a query trades in the opposite direction of another one. -/
def Query.reverses (q other : Query) : Bool :=
  q.assetIn = other.assetOut ∧ q.assetOut = other.assetIn

/-- The sides whose offsets a query comes to. -/
def Query.Meets (q : Query) (side : Side) : Prop :=
  side = ⟨q.assetIn, .input⟩ ∨ side = ⟨q.assetOut, .output⟩

/-- The same host at another time. -/
def Environment.withClock (e : Environment) (now : UInt64) : Environment :=
  { e with now := now }

theorem Query.Between.eq_of_not_reverses {q other : Query} {a b : AssetId} (hq : q.Between a b)
    (hother : other.Between a b) (h : q.reverses other = false) :
    q.assetIn = other.assetIn ∧ q.assetOut = other.assetOut := by
  unfold reverses at h
  rw [decide_eq_false_iff_not] at h
  rcases hq with ⟨hin, hout⟩ | ⟨hin, hout⟩ <;>
    rcases hother with ⟨hotherIn, hotherOut⟩ | ⟨hotherIn, hotherOut⟩
  · exact ⟨hin.trans hotherIn.symm, hout.trans hotherOut.symm⟩
  · exact absurd ⟨hin.trans hotherOut.symm, hout.trans hotherIn.symm⟩ h
  · exact absurd ⟨hin.trans hotherOut.symm, hout.trans hotherIn.symm⟩ h
  · exact ⟨hin.trans hotherIn.symm, hout.trans hotherOut.symm⟩

namespace Machine

/-!
# Queries
-/

namespace Attempt

/-- The setup of a query; what is only priced meets external logic that leaves
nothing behind. -/
def setup (program : Program) (a : Attempt) : Setup where
  program := program
  query := a.query
  environment := a.environment
  external :=
    match a.query.mode with
    | .simulate => a.environment.quoteExternal
    | .commit => a.external

/-- The outcome of a query, whether it is only priced or also carried out. -/
def outcome (program : Program) (a : Attempt) (store : Order.Store) : Run Outcome :=
  match a.query.mode with
  | .simulate => quote program a.query a.environment a.limit store
  | .commit => (swap program a.query a.environment a.external a.limit store).1

/-- The same query at another time. -/
def askedAt (a : Attempt) (now : UInt64) : Attempt :=
  { a with environment := a.environment.withClock now }

theorem outcome_eq_ok_iff {program : Program} {a : Attempt} {store : Order.Store} {o : Outcome} :
    a.outcome program store = .ok o ↔
      Accepted a.query a.query.mode ∧
        ∃ s, run (a.setup program) a.limit store = .ok s ∧ .ofState s = o := by
  unfold outcome setup
  cases hmode : a.query.mode with
  | simulate => exact quote_eq_ok_iff
  | commit =>
      show (swap program a.query a.environment a.external a.limit store).1 = .ok o ↔ _
      simp only [fst_swap, map_eq_ok_iff, bind_eq_ok_iff, accept_eq_ok_iff, exists_const]
      constructor
      · rintro ⟨s, ⟨haccepted, hrun⟩, ho⟩
        exact ⟨haccepted, s, hrun, ho⟩
      · rintro ⟨haccepted, s, hrun, ho⟩
        exact ⟨s, ⟨haccepted, hrun⟩, ho⟩

end Attempt

/-!
# Sides
-/

namespace Shifted

variable {setup : Setup} {period : UInt32} {before after : Order.Store} {r : Registers} {q : Query}
  {side : Side} (h : Shifted setup period before after r)

include h

/-- A trade sets the offsets that the opposite trade comes to. -/
theorem exists_offset
    (hreverses : setup.query.assetIn = q.assetOut ∧ setup.query.assetOut = q.assetIn)
    (hside : q.Meets side) :
    ∃ amount, after.offset? setup.program.id side = some ⟨amount, setup.environment.now⟩ := by
  rcases hside with rfl | rfl
  · rcases h.restored with ⟨amount, hamount, -⟩
    unfold Setup.restoredSide at hamount
    rw [hreverses.2] at hamount
    exact ⟨amount, hamount⟩
  · rcases h.locked with ⟨amount, hamount, -⟩
    unfold Setup.lockedSide at hamount
    rw [hreverses.1] at hamount
    exact ⟨amount, hamount⟩

/-- A trade leaves the offsets that it comes to itself. -/
theorem offset?_eq (hdistinct : setup.query.assetIn ≠ setup.query.assetOut)
    (hsame : setup.query.assetIn = q.assetIn ∧ setup.query.assetOut = q.assetOut)
    (hside : q.Meets side) :
    after.offset? setup.program.id side = before.offset? setup.program.id side := by
  rw [hsame.1, hsame.2] at hdistinct
  apply h.other
  · unfold Setup.lockedSide
    rw [hsame.1]
    rcases hside with rfl | rfl
    · exact fun heq => Leg.noConfusion (congrArg Side.leg heq)
    · exact fun heq => hdistinct (congrArg Side.asset heq).symm
  · unfold Setup.restoredSide
    rw [hsame.2]
    rcases hside with rfl | rfl
    · exact fun heq => hdistinct (congrArg Side.asset heq)
    · exact fun heq => Leg.noConfusion (congrArg Side.leg heq)

/-- At the time of the trade, all that was added to the offsets is left of them. -/
theorem offsetLeft_locked (hperiod : period ≠ 0) :
    after.offsetLeft setup.program.id period setup.environment.now setup.lockedSide =
      before.offsetLeft setup.program.id period setup.environment.now setup.lockedSide +
        r.amountIn.toNat := by
  rcases h.locked with ⟨amount, hoffset, hamount⟩
  rw [← hamount, Order.Store.offsetLeft, hoffset]
  exact DecayOffset.remaining_at_update _ amount hperiod

theorem offsetLeft_restored (hperiod : period ≠ 0) :
    after.offsetLeft setup.program.id period setup.environment.now setup.restoredSide =
      before.offsetLeft setup.program.id period setup.environment.now setup.restoredSide +
        r.amountOut.toNat := by
  rcases h.restored with ⟨amount, hoffset, hamount⟩
  rw [← hamount, Order.Store.offsetLeft, hoffset]
  exact DecayOffset.remaining_at_update _ amount hperiod

end Shifted

/-!
# Histories of swaps
-/

/-- Swaps that succeed, one after another, lead from `store` to another store. -/
inductive Committed (program : Program) (store : Order.Store) :
    List Attempt → Order.Store → Prop where
  | none : Committed program store [] store
  | more {history : List Attempt} {before : Order.Store} {a : Attempt} {o : Outcome}
      (h : Committed program store history before)
      (hswap : (swap program a.query a.environment a.external a.limit before).1 = .ok o) :
      Committed program store (history ++ [a]) (attempt program before a)

theorem Committed.exists_swap {program : Program} {store after : Order.Store}
    {history : List Attempt} (h : Committed program store history after) {a : Attempt}
    (ha : a ∈ history) :
    ∃ before o, (swap program a.query a.environment a.external a.limit before).1 = .ok o := by
  induction h with
  | none => cases ha
  | more h hswap ih =>
      rcases List.mem_append.mp ha with hearlier | hlast
      · exact ih hearlier
      · cases List.mem_singleton.mp hlast
        exact ⟨_, _, hswap⟩

section Pools

variable {program : Program} {source : Instruction} {period : UInt32} {fees : List Record}
  {last : Record} (hpool : program.DecayingRecords source period fees last)

include hpool

theorem shifted_of_swap {a : Attempt} {before : Order.Store} {o : Outcome}
    (hswap : (swap program a.query a.environment a.external a.limit before).1 = .ok o) :
    Shifted ⟨program, a.query, a.environment, a.external⟩ period before (attempt program before a)
      o.registers := by
  rcases swap_eq_ok hswap with ⟨haccepted, s, hrun, rfl⟩
  have hsetup : (Setup.program ⟨program, a.query, a.environment, a.external⟩).DecayingRecords
    source period fees last := hpool
  unfold attempt
  rw [swap_of_run_ok haccepted hrun]
  exact shifted_of_run hsetup haccepted.mode_eq hrun

/-- The offsets that a query comes to were stamped by the last swap of the opposite
direction. -/
theorem Committed.exists_reversed {store after : Order.Store} {history : List Attempt}
    (h : Committed program store history after) (hstore : store.HasNoOffsets program.id)
    {a b : AssetId} (hbetween : ∀ past ∈ history, past.query.Between a b) {q : Query}
    (hq : q.Between a b) {side : Side} (hside : q.Meets side) {offset : DecayOffset}
    (hoffset : after.offset? program.id side = some offset) :
    ∃ past ∈ (history.filter fun past => past.query.reverses q).getLast?,
      offset.updatedAt = past.environment.now := by
  induction h with
  | none =>
      rw [hstore side] at hoffset
      cases hoffset
  | more h hswap ih =>
      rename_i history before past o
      rw [List.forall_mem_append, List.forall_mem_singleton] at hbetween
      rcases hbetween with ⟨hearlier, hpast⟩
      have hshifted := shifted_of_swap hpool hswap
      rw [List.filter_append]
      cases hreverses : past.query.reverses q with
      | true =>
          have hlast : [past].filter (fun past => past.query.reverses q) = [past] := by
            simp [hreverses]
          rw [hlast, List.getLast?_concat]
          refine ⟨past, rfl, ?_⟩
          rcases hshifted.exists_offset (of_decide_eq_true hreverses) hside with ⟨amount, hamount⟩
          cases hamount.symm.trans hoffset
          rfl
      | false =>
          have hlast : [past].filter (fun past => past.query.reverses q) = [] := by
            simp [hreverses]
          rw [hlast, List.append_nil]
          apply ih hearlier
          have hdirection := hpast.eq_of_not_reverses hq hreverses
          rcases swap_eq_ok hswap with ⟨haccepted, -⟩
          rw [← hoffset]
          exact (hshifted.offset?_eq haccepted.distinct hdirection hside).symm

/-- Once the last swap of the opposite direction is a whole period old, nothing is left
of the offsets that a query comes to. -/
theorem Committed.offsetLeft_eq_zero {store after : Order.Store} {history : List Attempt}
    (h : Committed program store history after) (hstore : store.HasNoOffsets program.id)
    {a b : AssetId} (hbetween : ∀ past ∈ history, past.query.Between a b) {q : Query}
    (hq : q.Between a b) {now : UInt64}
    (hold : ∀ past ∈ (history.filter fun past => past.query.reverses q).getLast?,
      past.environment.now.toNat + period.toNat ≤ now.toNat)
    {side : Side} (hside : q.Meets side) :
    after.offsetLeft program.id period now side = 0 := by
  unfold Order.Store.offsetLeft
  cases hoffset : after.offset? program.id side with
  | none => rfl
  | some offset =>
      rcases h.exists_reversed hpool hstore hbetween hq hside hoffset with ⟨past, hpast, hstamp⟩
      apply offset.remaining_eq_zero
      rw [hstamp]
      exact hold past hpast

/-- At balances as they were, a query that succeeds comes to an asset of which the source
holds some: only a swap of the opposite direction could have left an offset of it. -/
theorem Committed.held_ne_zero {store after : Order.Store} {history : List Attempt}
    (h : Committed program store history after) (hstore : store.HasNoOffsets program.id)
    {a b : AssetId} (hbetween : ∀ past ∈ history, past.query.Between a b) {setup : Setup}
    (hprogram : setup.program = program) (hq : setup.query.Between a b)
    (hhost : ∀ past ∈ history,
      past.environment.withClock setup.environment.now = setup.environment)
    {limit : UInt32} {s : State} (hrun : run setup limit after = .ok s) :
    held source setup.environment setup.program.id setup.query.assetIn ≠ some 0 := by
  subst hprogram
  intro hempty
  have hleft := (balances_of_run hpool hrun).1 hempty
  cases hoffset : after.offset? setup.program.id ⟨setup.query.assetIn, .input⟩ with
  | none =>
      unfold Order.Store.offsetLeft at hleft
      rw [hoffset] at hleft
      exact hleft rfl
  | some offset =>
      rcases h.exists_reversed hpool hstore hbetween hq (Or.inl rfl) hoffset with
        ⟨past, hpast, -⟩
      have hmem := List.mem_filter.mp (List.mem_of_getLast? hpast)
      rcases h.exists_swap hmem.1 with ⟨before, o, hswap⟩
      rcases swap_eq_ok hswap with ⟨-, t, hpastRun, -⟩
      have hpastPool : (Setup.program ⟨setup.program, past.query, past.environment,
        past.external⟩).DecayingRecords source period fees last := hpool
      have hpastHeld := (balances_of_run hpastPool hpastRun).2
      have hreverses : past.query.assetIn = setup.query.assetOut ∧
          past.query.assetOut = setup.query.assetIn := of_decide_eq_true hmem.2
      apply hpastHeld
      rw [← hempty, ← hreverses.2, ← hhost past hmem.1]
      cases source <;> rfl

/-!
# Queries behind a history
-/

/-- A store without offsets pays no less for a fixed input. -/
theorem amountOut_le_of_no_offsets {asked : Attempt} (hfixed : asked.query.fixed = .input)
    {after fresh : Order.Store} (hfresh : fresh.HasNoOffsets program.id) {o o' : Outcome}
    (h : asked.outcome program after = .ok o) (h' : asked.outcome program fresh = .ok o') :
    o.amountOut ≤ o'.amountOut := by
  rcases Attempt.outcome_eq_ok_iff.mp h with ⟨-, s, hrun, rfl⟩
  rcases Attempt.outcome_eq_ok_iff.mp h' with ⟨-, s', hrun', rfl⟩
  have hsetup : (asked.setup program).program.DecayingRecords source period fees last := hpool
  have hleft (side : Side) : fresh.offsetLeft program.id period asked.environment.now side ≤
      after.offsetLeft program.id period asked.environment.now side := by
    rw [hfresh.offsetLeft_eq]
    exact Nat.zero_le _
  exact amountOut_le_of_offsetLeft_le hsetup rfl rfl (fun _ => rfl) hleft hfixed hrun hrun'

/-- Whoever waits is paid no less for a fixed input. -/
theorem amountOut_le_of_later {asked : Attempt} (hfixed : asked.query.fixed = .input)
    {later : UInt64} (hlater : asked.environment.now ≤ later) {after : Order.Store}
    {o o' : Outcome} (h : asked.outcome program after = .ok o)
    (h' : (asked.askedAt later).outcome program after = .ok o') : o.amountOut ≤ o'.amountOut := by
  rcases Attempt.outcome_eq_ok_iff.mp h with ⟨-, s, hrun, rfl⟩
  rcases Attempt.outcome_eq_ok_iff.mp h' with ⟨-, s', hrun', rfl⟩
  have hsetup : (asked.setup program).program.DecayingRecords source period fees last := hpool
  have hprogram : ((asked.askedAt later).setup program).program = (asked.setup program).program :=
    rfl
  have hheld (asset : AssetId) :
      held source (asked.environment.withClock later) program.id asset =
        held source asked.environment program.id asset := by
    cases source <;> rfl
  have hleft (side : Side) : after.offsetLeft program.id period later side ≤
      after.offsetLeft program.id period asked.environment.now side :=
    remainingOf_anti _ hlater period
  exact amountOut_le_of_offsetLeft_le hsetup hprogram rfl hheld hleft hfixed hrun hrun'

section Histories

variable {store after fresh : Order.Store} {history : List Attempt} {a b : AssetId}
  {asked : Attempt} {o : Outcome} (hhistory : Committed program store history after)
  (hstore : store.HasNoOffsets program.id)
  (hbetween : ∀ past ∈ history, past.query.Between a b) (hasked : asked.query.Between a b)
  (hfresh : fresh.HasNoOffsets program.id) (houtcome : asked.outcome program after = .ok o)

include hhistory hstore hbetween hasked hfresh houtcome

/-- At balances as they were, the trade could be made without offsets as well. -/
theorem exists_outcome_of_no_offsets (hfixed : asked.query.fixed = .input)
    (hhost : ∀ past ∈ history,
      past.environment.withClock asked.environment.now = asked.environment) :
    ∃ o', asked.outcome program fresh = .ok o' := by
  rcases Attempt.outcome_eq_ok_iff.mp houtcome with ⟨haccepted, s, hrun, -⟩
  have hsetup : (asked.setup program).program.DecayingRecords source period fees last := hpool
  have hheld := hhistory.held_ne_zero hpool hstore hbetween rfl hasked hhost hrun
  rcases exists_run_of_held hsetup hfresh hfixed hheld hrun with ⟨s', hs'⟩
  exact ⟨_, Attempt.outcome_eq_ok_iff.mpr ⟨haccepted, s', hs', rfl⟩⟩

/-- A period after the last swap of the opposite direction, the offsets are forgotten. -/
theorem outcome_eq_of_period_over
    (hold : ∀ past ∈ (history.filter fun past => past.query.reverses asked.query).getLast?,
      past.environment.now.toNat + period.toNat ≤ asked.environment.now.toNat) :
    asked.outcome program fresh = .ok o := by
  rcases Attempt.outcome_eq_ok_iff.mp houtcome with ⟨haccepted, s, hrun, rfl⟩
  have hsetup : (asked.setup program).program.DecayingRecords source period fees last := hpool
  have hzero {side : Side} (hside : asked.query.Meets side) :=
    hhistory.offsetLeft_eq_zero hpool hstore hbetween hasked hold hside
  rcases exists_run_eq_of_nothing_left hsetup hfresh (hzero (Or.inl rfl)) (hzero (Or.inr rfl))
    hrun with ⟨s', hs', hsame⟩
  exact Attempt.outcome_eq_ok_iff.mpr ⟨haccepted, s', hs', hsame⟩

/-- Swaps in the direction of a query are nothing to it. -/
theorem outcome_eq_of_same_direction
    (hdirection : ∀ past ∈ history, past.query.assetIn = asked.query.assetIn) :
    asked.outcome program fresh = .ok o := by
  rcases Attempt.outcome_eq_ok_iff.mp houtcome with ⟨haccepted, -⟩
  have hnone : history.filter (fun past => past.query.reverses asked.query) = [] := by
    apply List.filter_eq_nil_iff.mpr
    intro past hpast hreverses
    have hin : past.query.assetIn = asked.query.assetOut := (of_decide_eq_true hreverses).1
    exact haccepted.distinct ((hdirection past hpast).symm.trans hin)
  apply outcome_eq_of_period_over hpool hhistory hstore hbetween hasked hfresh houtcome
  rw [hnone]
  intro past hpast
  cases hpast

end Histories
end Pools

/-!
# Recovery
-/

/-- A pool with decaying offsets that have been left by any history of swaps between two
assets, at whatever times.  A query at a fixed input is paid no more than over a store
without offsets, and no less at a later time; it is paid the same if all swaps went in
its direction, or if the last one of the opposite direction is a period old.  Each swap
raises the offsets of the opposite direction by just the amounts that it settles with. -/
theorem reversal_costs_fade {set : InstructionSet} {id : ProgramId} {bytes : List UInt8}
    {program : Program} {source : Instruction} {period : UInt32} {fees : List Instruction}
    (hdecode : Program.decode set id bytes = .ok program)
    (hpool : program.IsDecayingPool source period fees) {a b : AssetId}
    {store after : Order.Store} {history : List Attempt} (hstore : store.HasNoOffsets program.id)
    (hhistory : Committed program store history after)
    (hbetween : ∀ past ∈ history, past.query.Between a b) :
    (∀ (asked : Attempt) (o : Outcome), asked.query.fixed = .input → asked.query.Between a b →
      asked.outcome program after = .ok o →
        (∀ fresh : Order.Store, fresh.HasNoOffsets program.id →
          (∀ o', asked.outcome program fresh = .ok o' → o.amountOut ≤ o'.amountOut) ∧
          ((∀ past ∈ history,
              past.environment.withClock asked.environment.now = asked.environment) →
            ∃ o', asked.outcome program fresh = .ok o') ∧
          ((∀ past ∈ history, past.query.assetIn = asked.query.assetIn) →
            asked.outcome program fresh = .ok o) ∧
          ((∀ past ∈ (history.filter fun past => past.query.reverses asked.query).getLast?,
              past.environment.now.toNat + period.toNat ≤ asked.environment.now.toNat) →
            asked.outcome program fresh = .ok o)) ∧
        ∀ later o', asked.environment.now ≤ later →
          (asked.askedAt later).outcome program after = .ok o' → o.amountOut ≤ o'.amountOut) ∧
    ∀ (before : Order.Store) (placed : Attempt) (o : Outcome),
      (swap program placed.query placed.environment placed.external placed.limit before).1 =
          .ok o →
        (∀ duration registers, Event.settling (.decay duration) registers ∈
          events ⟨program, placed.query, placed.environment, placed.external⟩ placed.limit before ↔
            duration = period ∧ registers = o.registers) ∧
        (attempt program before placed).offsetLeft program.id period placed.environment.now
            ⟨placed.query.assetIn, .output⟩ =
          before.offsetLeft program.id period placed.environment.now
            ⟨placed.query.assetIn, .output⟩ + o.amountIn.toNat ∧
        (attempt program before placed).offsetLeft program.id period placed.environment.now
            ⟨placed.query.assetOut, .input⟩ =
          before.offsetLeft program.id period placed.environment.now
            ⟨placed.query.assetOut, .input⟩ + o.amountOut.toNat := by
  rcases hpool.exists_records (Program.inRange_of_decode hdecode) with ⟨charges, last, hrecords⟩
  constructor
  · intro asked o hfixed hasked houtcome
    constructor
    · intro fresh hfresh
      refine ⟨?_, ?_, ?_, ?_⟩
      · intro o' ho'
        exact amountOut_le_of_no_offsets hrecords hfixed hfresh houtcome ho'
      · exact exists_outcome_of_no_offsets hrecords hhistory hstore hbetween hasked hfresh houtcome
          hfixed
      · exact outcome_eq_of_same_direction hrecords hhistory hstore hbetween hasked hfresh houtcome
      · exact outcome_eq_of_period_over hrecords hhistory hstore hbetween hasked hfresh houtcome
    · intro later o' hlater ho'
      exact amountOut_le_of_later hrecords hfixed hlater houtcome ho'
  · intro before placed o hswap
    have hshifted := shifted_of_swap hrecords hswap
    rcases swap_eq_ok hswap with ⟨-, s, hrun, rfl⟩
    have hsetup : (Setup.program ⟨program, placed.query, placed.environment,
      placed.external⟩).DecayingRecords source period charges last := hrecords
    refine ⟨?_, hshifted.offsetLeft_locked hrecords.period_ne_zero,
      hshifted.offsetLeft_restored hrecords.period_ne_zero⟩
    intro duration registers
    exact settling_decay_mem_events_iff hsetup hrun

def recoveringBytes : List UInt8 :=
  Operation.recorded 7 (.staticBalances [(.single 65, 1000000), (.single 66, 2000000)]) ++
    Operation.recorded 13 (.decay 60) ++ Operation.recorded 17 (.flatFee .input 30) ++
    Operation.recorded 10 .solve

/-- A pool that forgets a trade within a minute. -/
def recoveringPool : Program where
  id := .single 80
  bytes := recoveringBytes.toArray
  records := #[⟨0, .staticBalances [(.single 65, 1000000), (.single 66, 2000000)]⟩,
    ⟨82, .decay 60⟩, ⟨88, .flatFee .input 30⟩, ⟨92, .solve⟩]

def outward : Attempt :=
  ⟨(Query.simulated .input (.single 65) (.single 66) 100000).committing,
    (Observations.atTime 100).environment, .absent, 16⟩

def homeward : Attempt :=
  ⟨(Query.simulated .output (.single 66) (.single 65) 50000).committing,
    (Observations.atTime 130).environment, .absent, 16⟩

def outwardAgain : Attempt :=
  ⟨Query.simulated .input (.single 65) (.single 66) 10000, (Observations.atTime 140).environment,
    .absent, 16⟩

theorem reversal_costs_fade_in_recovering_pool :
    ∃ early late : Outcome,
      outwardAgain.outcome recoveringPool (attemptAll recoveringPool .empty [outward, homeward]) =
        .ok early ∧ early.amountOut = 18040 ∧
      (outwardAgain.askedAt 170).outcome recoveringPool
        (attemptAll recoveringPool .empty [outward, homeward]) = .ok late ∧ late.amountOut = 19045 ∧
      early.amountOut ≤ late.amountOut ∧
      (outwardAgain.askedAt 190).outcome recoveringPool .empty =
        .ok ⟨⟨1000000, 2000000, 10000, 19743⟩, [], 4⟩ ∧
      (attemptAll recoveringPool .empty [outward]).offsetLeft recoveringPool.id 60 100
        ⟨.single 65, .output⟩ = 100000 := by
  have hdecode : Program.decode .full (.single 80) recoveringBytes = .ok recoveringPool := by
    decide +kernel
  have hpool : recoveringPool.IsDecayingPool
      (.staticBalances [(.single 65, 1000000), (.single 66, 2000000)]) 60 [.flatFee .input 30] :=
    ⟨rfl, by decide, rfl⟩
  have hstore : Order.Store.empty.HasNoOffsets recoveringPool.id := fun _ => rfl
  have houtward : (swap recoveringPool outward.query outward.environment outward.external
      outward.limit .empty).1 = .ok ⟨⟨1000000, 2000000, 100000, 181322⟩, [], 4⟩ := rfl
  have hhomeward : (swap recoveringPool homeward.query homeward.environment homeward.external
      homeward.limit (attempt recoveringPool .empty outward)).1 =
        .ok ⟨⟨2090661, 950000, 116498, 50000⟩, [], 4⟩ := rfl
  have hhistory : Committed recoveringPool .empty [outward, homeward]
      (attemptAll recoveringPool .empty [outward, homeward]) :=
    .more (.more .none houtward) hhomeward
  have hbetween : ∀ past ∈ [outward, homeward],
      past.query.Between (.single 65) (.single 66) := by
    intro past hpast
    simp only [List.mem_cons, List.not_mem_nil, or_false] at hpast
    rcases hpast with rfl | rfl
    · exact Or.inl ⟨rfl, rfl⟩
    · exact Or.inr ⟨rfl, rfl⟩
  have hearly : outwardAgain.outcome recoveringPool
      (attemptAll recoveringPool .empty [outward, homeward]) =
        .ok ⟨⟨1041666, 1902919, 10000, 18040⟩, [], 4⟩ := rfl
  have hlate : (outwardAgain.askedAt 170).outcome recoveringPool
      (attemptAll recoveringPool .empty [outward, homeward]) =
        .ok ⟨⟨1016666, 1961168, 10000, 19045⟩, [], 4⟩ := rfl
  have hover : (outwardAgain.askedAt 190).outcome recoveringPool
      (attemptAll recoveringPool .empty [outward, homeward]) =
        .ok ⟨⟨1000000, 2000000, 10000, 19743⟩, [], 4⟩ := rfl
  have hdirection : outwardAgain.query.Between (.single 65) (.single 66) := Or.inl ⟨rfl, rfl⟩
  rcases reversal_costs_fade hdecode hpool hstore hhistory hbetween with ⟨hasked, hraised⟩
  refine ⟨_, _, hearly, rfl, hlate, rfl, ?_, ?_, ?_⟩
  · exact (hasked outwardAgain _ rfl hdirection hearly).2 170 _ (by decide) hlate
  · refine ((hasked (outwardAgain.askedAt 190) _ rfl hdirection hover).1 .empty hstore).2.2.2 ?_
    intro past hpast
    cases hpast
    decide
  · exact (hraised .empty outward _ houtward).2.1

end Machine
end SwapPricing
