import Mathlib
import SwapPricing.Proofs.Decoding
import SwapPricing.Proofs.SettledQuotes

/-!
# Quotes as predictions

A swap sees what it has written itself, and its quote does not.  The two come
apart where a run invalidates a bit twice, or settles a fill cap or a decay
twice.  A quote that comes apart from a swap that succeeds can only fail, and
only because an offset fades more slowly for it than for the swap.
-/

namespace SwapPricing
namespace Machine

/-!
# Running

Up to the settlements, a quote does what the swap does as long as every bit that
comes up is seen alike.
-/

section Running

variable {setup : Setup} {store : Order.Store} {limit : UInt32}

theorem runSteps_over (Good : Nat → State → Prop)
    (hexternal : ∀ r ∈ setup.program.records, r.opcode ≠ .extruction)
    (hbit : ∀ left s r t, setup.program.records[s.next]? = some r → enter setup r s = .ok t →
      OnlyBits store s.journal → Good (left + 1) s → SeesBit setup store r.instruction s)
    (hkeep : ∀ left s r s', setup.program.records[s.next]? = some r → step setup r s = .ok s' →
      Good (left + 1) s → Good left s')
    {left : Nat} {s : State} (hj : OnlyBits store s.journal) (hgood : Good left s) :
    runSteps setup.quoting limit left (s.over store) =
      (runSteps setup limit left s).map (State.over store) := by
  rw [quoting_eq, over_eq]
  apply runSteps_withJournal fun left s => OnlyBits store s.journal ∧ Good left s
  · intro left s r hr hs
    have hmem := Array.mem_of_getElem? hr
    exact step_over (hexternal r hmem) hs.1 fun t ht => hbit left s r t hr ht hs.1 hs.2
  · intro left s r s' hr hs' hs
    exact ⟨onlyBitsInvariant.step (Array.mem_of_getElem? hr) hs' hs.1,
      hkeep left s r s' hr hs' hs.2⟩
  · exact ⟨hj, hgood⟩

theorem finishSteps_over {s : State} :
    finishSteps setup.quoting (s.over store) = (finishSteps setup s).map (State.over store) := by
  rw [quoting_eq, over_eq]
  exact finishSteps_withJournal

/-- The store itself sees no bit that a successful step was allowed to set. -/
theorem seesBit_of_step {s s' : State} {r : Record} (hj : OnlyBits store s.journal)
    (h : step setup r s = .ok s') : SeesBit setup store r.instruction s := by
  intro bit hinstruction
  rcases step_eq_ok h with ⟨t, henter, hexecute⟩
  rw [hinstruction] at hexecute
  have hexecute : invalidateBit setup bit t = .ok s' := hexecute
  simp only [invalidateBit, bind_eq_ok_iff, check_eq_ok_iff, journal_enter henter,
    Bool.not_eq_true] at hexecute
  rcases hexecute with ⟨-, hclear, -⟩
  have hbase := hclear
  unfold Order.Journal.isBitSet at hbase
  rw [Bool.or_eq_false_iff, hj.base] at hbase
  rw [hclear, hbase.2]

/-- The quote follows a swap whose records all succeed. -/
theorem runSteps_over_of_ok {s s' : State}
    (hexternal : ∀ r ∈ setup.program.records, r.opcode ≠ .extruction)
    (hj : OnlyBits store s.journal) {left : Nat} (h : runSteps setup limit left s = .ok s') :
    runSteps setup.quoting limit left (s.over store) = .ok (s'.over store) := by
  have hstep : ∀ left s r, setup.program.records[s.next]? = some r →
      runSteps setup limit (left + 1) s = .ok s' →
      ∃ t, step setup r s = .ok t ∧ runSteps setup limit left t = .ok s' := by
    intro left s r hr hrun
    unfold runSteps at hrun
    simp only [hr, bind_eq_ok_iff] at hrun
    exact hrun
  rw [runSteps_over (fun left s => runSteps setup limit left s = .ok s') hexternal ?_ ?_ hj h, h]
  · rfl
  · intro left s r t hr ht hj hrun
    rcases hstep left s r hr hrun with ⟨u, hu, -⟩
    exact seesBit_of_step hj hu
  · intro left s r t hr ht hrun
    rcases hstep left s r hr hrun with ⟨u, hu, hrest⟩
    cases hu.symm.trans ht
    exact hrest

/-- A step leaves the bits alone that it does not invalidate. -/
theorem isBitSet_step {s s' : State} {r : Record} {bit : UInt32} (h : step setup r s = .ok s')
    (hne : r.instruction ≠ .invalidateBit bit) :
    s'.journal.isBitSet setup.program.id bit = s.journal.isBitSet setup.program.id bit := by
  rcases step_eq_ok h with ⟨t, henter, hexecute⟩
  have hchange := execute_eq_ok hexecute
  rw [← journal_enter henter]
  generalize r.instruction = i at hchange hne
  cases hchange with
  | opened _ _ hopening => cases hopening <;> rfl
  | marked hclear =>
      rename_i other
      have hother : bit ≠ other := fun heq => hne (heq ▸ rfl)
      cases setup.query.mode with
      | simulate => rfl
      | commit => exact Order.Journal.isBitSet_setBit_of_ne _ _ hother
  | _ => rfl

/-- The bits that are still to come come up once, and the store sees them. -/
structure FreshBits (setup : Setup) (store : Order.Store) (left : Nat) (s : State) : Prop where
  nodup : ((executedFrom setup left s).filterMap Operation.mark?).Nodup
  sees : ∀ bit, .invalidateBit bit ∈ executedFrom setup left s →
    s.journal.isBitSet setup.program.id bit = store.isBitSet setup.program.id bit

theorem FreshBits.step {left : Nat} {s s' : State} {r : Record}
    (hr : setup.program.records[s.next]? = some r) (h : step setup r s = .ok s')
    (hs : FreshBits setup store (left + 1) s) : FreshBits setup store left s' := by
  have hnodup := hs.nodup
  have hsees := hs.sees
  rw [executedFrom_step hr h] at hnodup hsees
  constructor
  · rw [List.filterMap_cons] at hnodup
    split at hnodup
    · exact hnodup
    · exact (List.nodup_cons.mp hnodup).2
  · intro bit hmem
    rw [isBitSet_step h]
    · exact hsees bit (List.mem_cons_of_mem _ hmem)
    · intro hinstruction
      have hmark : Operation.mark? r.instruction = some (.bit bit) := by rw [hinstruction]; rfl
      rw [List.filterMap_cons_some hmark, List.nodup_cons] at hnodup
      exact hnodup.1 (List.mem_filterMap.mpr ⟨.invalidateBit bit, hmem, rfl⟩)

/-- The quote follows a swap in which no bit comes up twice. -/
theorem runSteps_over_of_nodup {s : State}
    (hexternal : ∀ r ∈ setup.program.records, r.opcode ≠ .extruction)
    (hj : OnlyBits store s.journal) {left : Nat} (hfresh : FreshBits setup store left s) :
    runSteps setup.quoting limit left (s.over store) =
      (runSteps setup limit left s).map (State.over store) := by
  apply runSteps_over (FreshBits setup store) hexternal ?_ ?_ hj hfresh
  · intro left s r t hr ht hj hfresh bit hinstruction
    apply hfresh.sees
    rw [executedFrom_enter left hr ht, hinstruction]
    exact List.mem_cons_self
  · intro left s r s' hr hs' hfresh
    exact hfresh.step hr hs'

end Running
/-!
# Whole runs
-/

section Whole

variable {setup : Setup} {store : Order.Store} {limit : UInt32}

theorem marks_of_finished {stepped s : State}
    (hsteps : runSteps setup limit limit.toNat (State.initial setup.query store) = .ok stepped)
    (hfinish : finishSteps setup stepped = .ok s)
    (hnodup : ((executed setup limit store).filterMap Operation.mark?).Nodup) :
    (s.settlements.filterMap Settlement.mark?).Nodup := by
  have horigins : s.settlements.filterMap Settlement.mark? =
      (origins s).filterMap Operation.mark? := List.filterMap_filterMap.symm
  rw [horigins, origins_of_finished hsteps hfinish, List.filterMap_reverse, List.nodup_reverse]
  exact hnodup.sublist (List.filter_sublist.filterMap Operation.mark?)

theorem periods_of_finished {stepped s : State}
    (hsteps : runSteps setup limit limit.toNat (State.initial setup.query store) = .ok stepped)
    (hfinish : finishSteps setup stepped = .ok s) :
    s.settlements.filterMap Settlement.period? =
      ((executed setup limit store).filterMap Operation.period?).reverse := by
  have horigins : s.settlements.filterMap Settlement.period? =
      (origins s).filterMap Operation.period? := List.filterMap_filterMap.symm
  rw [horigins, origins_of_finished hsteps hfinish, List.filterMap_reverse, List.filterMap_filter]
  congr 2
  funext i
  cases i <;> rfl

def ExceedsLast (periods : List UInt32) : Prop :=
  ∃ last ∈ periods.getLast?, ∃ period ∈ periods, last < period

theorem ExceedsFirst.reverse {periods : List UInt32} (h : ExceedsFirst periods.reverse) :
    ExceedsLast periods := by
  rcases h with ⟨last, hlast, period, hperiod, hlt⟩
  rw [List.head?_reverse] at hlast
  exact ⟨last, hlast, period, List.mem_reverse.mp hperiod, hlt⟩

theorem freshBits_initial
    (hnodup : ((executed setup limit store).filterMap Operation.mark?).Nodup) :
    FreshBits setup store limit.toNat (State.initial setup.query store) := by
  rw [executed_eq] at hnodup
  exact ⟨hnodup, fun _ _ => rfl⟩

/-- Where no mark comes up twice, the quote does what the swap does. -/
theorem run_over_of_nodup (hexternal : ∀ r ∈ setup.program.records, r.opcode ≠ .extruction)
    (hnodup : ((executed setup limit store).filterMap Operation.mark?).Nodup) :
    run setup.quoting limit store = (run setup limit store).map (State.over store) := by
  have hinitial : State.initial setup.quoting.query store =
      (State.initial setup.query store).over store := rfl
  unfold run
  rw [hinitial, runSteps_over_of_nodup hexternal (.opened store) (freshBits_initial hnodup)]
  apply map_bind_eq_map
  intro stepped hsteps
  rw [finishSteps_over]
  apply map_bind_eq_map
  intro s hfinish
  have hj := onlyBits_of_finished hsteps hfinish
  show settleAll setup.quoting s.settlements (State.over store { s with settlements := [] }) = _
  apply settleAll_over
  · exact marks_of_finished hsteps hfinish hnodup
  · exact ⟨fun _ side => hj.offset? _ side, fun leg _ => hj.filled _ _⟩

/-- The quote of a swap that succeeds predicts it, or fails in a decay. -/
theorem run_quoting (hexternal : ∀ r ∈ setup.program.records, r.opcode ≠ .extruction)
    (hmode : setup.query.mode = .commit)
    (hperiods : ∀ r ∈ setup.program.records, ∀ period, r.instruction = .decay period →
      period ≠ 0) {s' : State} (h : run setup limit store = .ok s') :
    Predicts store (run setup.quoting limit store) s'
      (ExceedsLast ((executed setup limit store).filterMap Operation.period?)) := by
  have hinitial : State.initial setup.quoting.query store =
      (State.initial setup.query store).over store := rfl
  rcases run_eq_ok h with ⟨stepped, s, hsteps, hfinish, hsettle⟩
  have hquoted := runSteps_over_of_ok hexternal (.opened store) hsteps
  have hfinished : finishSteps setup.quoting (stepped.over store) = .ok (s.over store) := by
    rw [finishSteps_over, hfinish]
    rfl
  have hnonzero : ∀ period ∈ s.settlements.filterMap Settlement.period?, period ≠ 0 := by
    intro period hmem
    rw [periods_of_finished hsteps hfinish, List.mem_reverse, executed_eq] at hmem
    rcases List.mem_filterMap.mp hmem with ⟨i, hi, hperiod⟩
    rcases mem_executedFrom hi with ⟨r, hr, rfl⟩
    exact hperiods r hr period (Operation.eq_decay_of_period? hperiod)
  have hj := onlyBits_of_finished hsteps hfinish
  have hahead : Ahead setup store none ({ s with settlements := [] } : State).journal :=
    .of_onlyBits hj
  unfold run
  rw [hinitial, hquoted, ok_bind, hfinished, ok_bind]
  rcases settleAll_quoting hmode hnonzero hahead hsettle with hok | ⟨herror, hexcuse⟩
  · exact Or.inl hok
  · refine Or.inr ⟨herror, ?_⟩
    rw [periods_of_finished hsteps hfinish] at hexcuse
    exact hexcuse.reverse

end Whole

/-!
# Quotes and swaps
-/

theorem accept_simulating (query : Query) :
    accept query.simulating .simulate = accept query.committing .commit := by
  have hsimulate : ¬ query.simulating.mode ≠ .simulate := not_not_intro rfl
  have hcommit : ¬ query.committing.mode ≠ .commit := not_not_intro rfl
  unfold accept
  rw [if_neg hsimulate, if_neg hcommit]
  rfl

theorem quote_simulating {program : Program} {query : Query} {environment : Environment}
    (external : ExternalLogic) {limit : UInt32} {store : Order.Store} :
    quote program query.simulating environment limit store =
      (accept query.committing .commit >>= fun _ =>
        run (Setup.quoting ⟨program, query.committing, environment, external⟩) limit store).map
          Outcome.ofState := by
  have hsetup : Setup.quoting ⟨program, query.committing, environment, external⟩ =
      ⟨program, query.simulating, environment, environment.quoteExternal⟩ := rfl
  unfold quote
  rw [accept_simulating, hsetup]
  cases accept query.committing .commit with
  | error e => rfl
  | ok u =>
      simp only [ok_bind]
      cases run ⟨program, query.simulating, environment, environment.quoteExternal⟩ limit store with
      | error e => rfl
      | ok s => rfl

/-- A quote predicts a swap.  Where the swap succeeds, the quote has the same
outcome, unless an offset overflows for it in the settlement of a decay over a
longer period than the one executed last.  Where no bit, no fill cap of a leg and
no decay comes up twice, both have the same result, whatever it is. -/
theorem quote_predicts_swap {set : InstructionSet} {id : ProgramId} {bytes : List UInt8}
    {program : Program} (hdecode : Program.decode set id bytes = .ok program)
    (hexternal : ∀ r ∈ program.records, r.opcode ≠ .extruction) (query : Query)
    (environment : Environment) (external : ExternalLogic) (limit : UInt32)
    (store : Order.Store) :
    (∀ o, (swap program query.committing environment external limit store).1 = .ok o →
      quote program query.simulating environment limit store = .ok o ∨
        quote program query.simulating environment limit store =
            .error (.arithmetic .decay .overflow) ∧
          ExceedsLast ((executed ⟨program, query.committing, environment, external⟩ limit
            store).filterMap Operation.period?)) ∧
    (((executed ⟨program, query.committing, environment, external⟩ limit store).filterMap
        Operation.mark?).Nodup →
      quote program query.simulating environment limit store =
        (swap program query.committing environment external limit store).1) := by
  have hperiods : ∀ r ∈ program.records, ∀ period, r.instruction = .decay period → period ≠ 0 := by
    intro r hr period hinstruction
    have hrange := Program.inRange_of_decode hdecode r hr
    rw [hinstruction] at hrange
    exact hrange
  rw [fst_swap, quote_simulating external]
  cases accept query.committing .commit with
  | error e => exact ⟨fun o h => (nomatch h), fun _ => rfl⟩
  | ok u =>
      rw [ok_bind, ok_bind]
      constructor
      · intro o h
        rcases map_eq_ok_iff.mp h with ⟨s, hrun, rfl⟩
        rcases run_quoting hexternal rfl hperiods hrun with hok | ⟨herror, hexcuse⟩
        · rw [hok]
          exact Or.inl rfl
        · rw [herror]
          exact Or.inr ⟨rfl, hexcuse⟩
      · intro hnodup
        rw [run_over_of_nodup hexternal hnodup]
        cases run ⟨program, query.committing, environment, external⟩ limit store <;> rfl

def loggedBytes : List UInt8 :=
  Operation.recorded 32 (.fillCap .output 5000) ++
    Operation.recorded 7 (.staticBalances [(.single 65, 1000000), (.single 66, 2000000)]) ++
    Operation.recorded 30 (.invalidateBit 3) ++ Operation.recorded 13 (.decay 60) ++
    Operation.recorded 10 .solve

/-- A pool that records every trade in all the ways there are, once. -/
def loggedPool : Program where
  id := .single 80
  bytes := loggedBytes.toArray
  records := #[⟨0, .fillCap .output 5000⟩,
    ⟨10, .staticBalances [(.single 65, 1000000), (.single 66, 2000000)]⟩,
    ⟨92, .invalidateBit 3⟩, ⟨98, .decay 60⟩, ⟨104, .solve⟩]

theorem quote_predicts_logged_swap :
    (swap loggedPool (Query.simulated .input (.single 65) (.single 66) 1000).committing
        (Observations.atTime 100).environment .absent 16 .empty).1 =
      .ok ⟨⟨1000000, 2000000, 1000, 1998⟩, [], 5⟩ ∧
    quote loggedPool (Query.simulated .input (.single 65) (.single 66) 1000).simulating
        (Observations.atTime 100).environment 16 .empty =
      (swap loggedPool (Query.simulated .input (.single 65) (.single 66) 1000).committing
        (Observations.atTime 100).environment .absent 16 .empty).1 := by
  have hdecode : Program.decode .full (.single 80) loggedBytes = .ok loggedPool := by cbv
  refine ⟨rfl, (quote_predicts_swap hdecode (by decide) _ _ _ _ _).2 ?_⟩
  decide

def fadingBytes : List UInt8 :=
  Operation.recorded 7 (.staticBalances [(.single 65, 1000000000000000000),
      (.single 66, 1000000000000000000)]) ++
    Operation.recorded 13 (.decay 4294967295) ++ Operation.recorded 13 (.decay 1) ++
    Operation.recorded 10 .solve

/-- A pool that lets offsets fade slowly first and fast afterwards. -/
def fadingPool : Program where
  id := .single 80
  bytes := fadingBytes.toArray
  records := #[⟨0, .staticBalances [(.single 65, 1000000000000000000),
      (.single 66, 1000000000000000000)]⟩,
    ⟨82, .decay 4294967295⟩, ⟨88, .decay 1⟩, ⟨94, .solve⟩]

/-- A store in which the pool has a large offset of the first asset. -/
def fadingStore : Order.Store :=
  Order.Store.empty.setOffset (.single 80) ⟨.single 65, .output⟩ ⟨18446744073709551615, 99⟩

/-- The swap settles the fast decay first, which replaces the large offset by the
amount of the trade.  The quote settles the slow one over the large offset. -/
theorem quote_fails_where_swap_succeeds :
    Program.decode .full (.single 80) fadingBytes = .ok fadingPool ∧
    (∀ r ∈ fadingPool.records, r.opcode ≠ .extruction) ∧
    (swap fadingPool (Query.simulated .input (.single 65) (.single 66) 5000000000).committing
        (Observations.atTime 100).environment .absent 16 fadingStore).1 =
      .ok ⟨⟨1000000000000000000, 1000000000000000000, 5000000000, 4999999975⟩, [], 4⟩ ∧
    quote fadingPool (Query.simulated .input (.single 65) (.single 66) 5000000000).simulating
        (Observations.atTime 100).environment 16 fadingStore =
      .error (.arithmetic .decay .overflow) := by
  refine ⟨?_, by decide, rfl, rfl⟩
  cbv

end Machine
end SwapPricing
