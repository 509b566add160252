import Mathlib
import SwapPricing.Proofs.Executed
import SwapPricing.Proofs.Layout
import SwapPricing.Proofs.Prediction
import SwapPricing.Proofs.Unwinding

/-!
# Programs without lasting state

The stateless instruction set wires the instructions whose opcodes are not
stateful.  A record with such an opcode reads no order state, writes none, calls
no external logic, and leaves nothing but fees to settle; a run of such records
is then the same over every store.
-/

namespace SwapPricing

/-!
# Wired opcodes
-/

namespace InstructionSet

theorem mem_foldl_wire {op : Opcode} {ops wired : List Opcode} (h : op ∈ ops.foldl wire wired) :
    op ∈ wired ∨ op ∈ ops := by
  induction ops generalizing wired with
  | nil => exact Or.inl h
  | cons first rest ih =>
      rcases ih h with hwired | hrest
      · unfold wire at hwired
        split at hwired
        · exact Or.inl hwired
        · rcases List.mem_append.mp hwired with hmem | hmem
          · exact Or.inl hmem
          · exact Or.inr (List.mem_cons.mpr (Or.inl (List.mem_singleton.mp hmem)))
      · exact Or.inr (List.mem_cons_of_mem first hrest)

theorem mem_of_contains_ofList {name : String} {ops : List Opcode} {op : Opcode}
    (h : (ofList name ops).contains op = true) : op ∈ ops := by
  rcases mem_foldl_wire (of_decide_eq_true h) with hnil | hmem
  · exact absurd hnil List.not_mem_nil
  · exact hmem

theorem isStateful_of_stateless {op : Opcode} (h : stateless.contains op = true) :
    op.isStateful = false := by
  have hkept := (List.mem_filter.mp (mem_of_contains_ofList h)).2
  rwa [Bool.not_eq_true'] at hkept

end InstructionSet

/-- No record of the program touches lasting state or external logic. -/
def Program.Stateless (p : Program) : Prop :=
  ∀ r ∈ p.records, r.opcode.isStateful = false

theorem Program.stateless_of_decode {id : ProgramId} {bytes : List UInt8} {program : Program}
    (h : Program.decode .stateless id bytes = .ok program) : program.Stateless := by
  rcases Program.exists_holds_of_decode h with ⟨is, hencodes, hholds, -⟩
  intro r hr
  rcases Array.mem_iff_getElem?.mp hr with ⟨k, hk⟩
  rw [hholds.getElem?_records] at hk
  rcases Option.map_eq_some_iff.mp hk with ⟨i, hi, rfl⟩
  apply InstructionSet.isStateful_of_stateless
  exact InstructionSet.contains_of_encode? hencodes.encode?_eq i (List.mem_of_getElem? hi)

namespace Machine

theorem opcode_ne_extruction {op : Opcode} (h : op.isStateful = false) : op ≠ .extruction := by
  rintro rfl
  cases h

/-!
# What a stateless record leaves behind
-/

/-- Nothing has been written over `store`, and `works` are fees. -/
structure Untouched (store : Order.Store) (works : List Settlement) (s : State) : Prop where
  journal_eq : s.journal = .opened store
  fees : ∀ work ∈ works, work.isFee = true

section Stateless

variable {setup : Setup} {store other : Order.Store} {limit : UInt32} {s s' : State}

theorem Untouched.deferring {works : List Settlement} {work : Settlement} {t : State}
    (hs : Untouched store works s) (hjournal : t.journal = s.journal)
    (hwork : work.isFee = true) : Untouched store (work :: works) t := by
  constructor
  · rw [hjournal]
    exact hs.journal_eq
  · exact List.forall_mem_cons.mpr ⟨hwork, hs.fees⟩

theorem Untouched.opening {op : Opcode} {leg : Leg} {rate : UInt64} {recipient : Option Address}
    (h : Opening setup op leg rate recipient s s') (hs : Untouched store s.settlements s) :
    Untouched store s'.settlements s' := by
  cases h with
  | charged => exact hs.deferring rfl rfl
  | raised => exact hs.deferring rfl rfl
  | postponed => exact hs.deferring rfl rfl

theorem Untouched.change {i : Instruction} (hi : i.opcode.isStateful = false)
    (h : Change setup i s s') (hs : Untouched store s.settlements s) :
    Untouched store s'.settlements s' := by
  cases h with
  | loaded => cases hi
  | faded => cases hi
  | offered => cases hi
  | marked => cases hi
  | capped => cases hi
  | answered => cases hi
  | opened _ _ hopening => exact hs.opening hopening
  | _ => exact ⟨hs.journal_eq, hs.fees⟩

theorem Untouched.settled {work : Settlement} {rest : List Settlement}
    (h : Settled setup work s s') (hs : Untouched store (work :: rest) s) :
    Untouched store rest s' := by
  rcases List.forall_mem_cons.mp hs.fees with ⟨hwork, hrest⟩
  cases h with
  | charged => exact ⟨hs.journal_eq, hrest⟩
  | _ => cases hwork

theorem untouchedInvariant (hstateless : setup.program.Stateless) :
    Invariant setup (fun s => Untouched store s.settlements s) (Untouched store) where
  advance _ _ hs := ⟨hs.journal_eq, hs.fees⟩
  release hs := ⟨hs.journal_eq, hs.fees⟩
  opening _ hopening hs := hs.opening hopening
  change hr hchange hs := hs.change (hstateless _ hr) hchange
  finish _ hs := ⟨hs.journal_eq, hs.fees⟩
  settle hsettled hs := hs.settled hsettled

theorem untouched_initial (query : Query) (store : Order.Store) :
    Untouched store (State.initial query store).settlements (State.initial query store) :=
  ⟨rfl, List.forall_mem_nil _⟩

/-- A run of stateless records leaves its journal as it was opened. -/
theorem journal_run (hstateless : setup.program.Stateless)
    (h : run setup limit store = .ok s) : s.journal = .opened store :=
  ((untouchedInvariant hstateless).run h (untouched_initial setup.query store)).journal_eq

theorem commit_opened (store : Order.Store) : (Order.Journal.opened store).commit = store :=
  rfl

/-!
# Runs over another store
-/

theorem readsAlike_of_stateless {i : Instruction} (h : i.opcode.isStateful = false)
    (program : ProgramId) (j j' : Order.Journal) : ReadsAlike program j j' i := by
  cases i with
  | dynamicBalances balances => cases h
  | decay period => cases h
  | twap terms => cases h
  | invalidateBit bit => cases h
  | _ => trivial

theorem settlesAlike_of_isFee {work : Settlement} (h : work.isFee = true) (setup : Setup)
    (j j' : Order.Journal) : SettlesAlike setup j j' work := by
  cases work with
  | decay period => cases h
  | fillCap leg cap => cases h
  | _ => trivial

theorem step_over_of_stateless {r : Record} (h : r.opcode.isStateful = false) :
    step setup.quoting r (s.over other) = (step setup r s).map (State.over other) := by
  rw [quoting_eq, over_eq]
  apply step_withJournal
  intro t _
  apply execute_withJournal
  · exact transmits_over other setup.query.mode
  · exact opcode_ne_extruction h
  · exact readsAlike_of_stateless h _ _ _

theorem runSteps_over_of_stateless (hstateless : setup.program.Stateless) (left : Nat) :
    runSteps setup.quoting limit left (s.over other) =
      (runSteps setup limit left s).map (State.over other) := by
  rw [quoting_eq, over_eq]
  apply runSteps_withJournal fun _ _ => True
  · intro left s r hr _
    exact step_over_of_stateless (hstateless r (Array.mem_of_getElem? hr))
  · intros
    trivial
  · trivial

theorem settleAll_over_of_fees {works : List Settlement}
    (h : ∀ work ∈ works, work.isFee = true) :
    settleAll setup.quoting works (s.over other) =
      (settleAll setup works s).map (State.over other) := by
  rw [quoting_eq, over_eq]
  apply settleAll_withJournal fun works _ => ∀ work ∈ works, work.isFee = true
  · intro work rest s hworks
    apply settle_withJournal
    · exact transmits_over other setup.query.mode
    · exact settlesAlike_of_isFee (hworks work List.mem_cons_self) setup _ _
  · intro work rest s s' _ hworks
    exact (List.forall_mem_cons.mp hworks).2
  · exact h

/-- The quote of a run of stateless records does what the run does, over any
store. -/
theorem run_over_of_stateless (hstateless : setup.program.Stateless) :
    run setup.quoting limit other = (run setup limit store).map (State.over other) := by
  have hinitial : State.initial setup.quoting.query other =
      (State.initial setup.query store).over other := rfl
  unfold run
  rw [hinitial, runSteps_over_of_stateless hstateless]
  apply map_bind_eq_map
  intro stepped hsteps
  rw [finishSteps_over]
  apply map_bind_eq_map
  intro finished hfinish
  -- Only the steps can leave settlements behind, and these have left fees.
  have hstepped := (untouchedInvariant hstateless).runSteps hsteps
    (untouched_initial setup.query store)
  have hfees := ((untouchedInvariant hstateless).finishSteps hfinish hstepped).2.fees
  show settleAll setup.quoting finished.settlements
    (State.over other { finished with settlements := [] }) = _
  exact settleAll_over_of_fees hfees

/-!
# Calls
-/

theorem callsOf_append (earlier later : List Event) :
    callsOf (earlier ++ later) = callsOf earlier ++ callsOf later :=
  List.filterMap_append

theorem callsOf_stepEvents {r : Record} (h : r.opcode.isStateful = false) :
    callsOf (stepEvents setup r s) = [] := by
  unfold stepEvents
  cases enter setup r s with
  | error e => rfl
  | ok t =>
      unfold Record.opcode at h
      simp only
      generalize r.instruction = i at h
      cases i with
      | extruction logic input => cases h
      | _ => rfl

theorem callsOf_runEvents (hstateless : setup.program.Stateless) (left : Nat) :
    callsOf (runEvents setup left s) = [] := by
  induction left generalizing s with
  | zero =>
      unfold runEvents
      split
      · rfl
      · rfl
  | succ left ih =>
      unfold runEvents
      split
      · rfl
      · rename_i r hr
        rw [callsOf_append, callsOf_stepEvents (hstateless r (Array.mem_of_getElem? hr))]
        cases step setup r s with
        | error e => rfl
        | ok t => exact ih

theorem callsOf_settleEvents (works : List Settlement) (s : State) :
    callsOf (settleEvents setup works s) = [] := by
  induction works generalizing s with
  | nil => rfl
  | cons work rest ih =>
      unfold settleEvents
      cases settle setup work s with
      | error e => rfl
      | ok t => exact ih t

theorem callsOf_events (hstateless : setup.program.Stateless) :
    callsOf (events setup limit store) = [] := by
  unfold events
  simp only
  rw [callsOf_append, callsOf_runEvents hstateless]
  split
  · exact callsOf_settleEvents _ _
  · rfl

end Stateless

/-!
# Quotes and swaps
-/

section Trades

variable {program : Program} {query : Query} {environment : Environment}
  {external : ExternalLogic} {limit : UInt32} {store other : Order.Store}

theorem fst_swap_of_stateless (hstateless : program.Stateless) :
    (swap program query.committing environment external limit store).1 =
      quote program query.simulating environment limit other := by
  rw [fst_swap, quote_simulating external]
  cases accept query.committing .commit with
  | error e => rfl
  | ok u =>
      have hrun : run (Setup.quoting ⟨program, query.committing, environment, external⟩) limit
          other = (run ⟨program, query.committing, environment, external⟩ limit store).map
            (State.over other) := run_over_of_stateless hstateless
      rw [ok_bind, ok_bind, hrun]
      cases run ⟨program, query.committing, environment, external⟩ limit store with
      | error e => rfl
      | ok s => rfl

theorem snd_swap_of_stateless (hstateless : program.Stateless) :
    (swap program query environment external limit store).2 = store := by
  rcases swap_cases program query environment external limit store with
    ⟨s, -, hrun, hswap⟩ | ⟨e, hswap⟩
  · rw [hswap, journal_run hstateless hrun]
    exact commit_opened store
  · rw [hswap]

theorem quote_of_stateless (hstateless : program.Stateless) :
    quote program query environment limit store = quote program query environment limit other := by
  cases hmode : query.mode with
  | simulate =>
      have hquery : query.simulating = query := by
        unfold Query.simulating
        rw [← hmode]
      have hswap : (swap program query.committing environment .absent limit store).1 =
          quote program query.simulating environment limit store :=
        fst_swap_of_stateless hstateless
      -- A swap over `store` has the result of the quote over either store.
      rw [← hquery, ← hswap]
      exact fst_swap_of_stateless hstateless
  | commit =>
      have hrefused : accept query .simulate = .error (.modeMismatch .commit .simulate) := by
        unfold accept
        rw [hmode]
        rfl
      unfold quote
      rw [hrefused]
      rfl

end Trades

/-- The stateless instruction set is stateless.  A quote of a program that decodes
under it is the same over all stores, a swap has that same result, failures
included, and neither changes the store nor calls external logic. -/
theorem stateless_set_ignores_state {id : ProgramId} {bytes : List UInt8} {program : Program}
    (hdecode : Program.decode .stateless id bytes = .ok program) (query : Query)
    (environment : Environment) (external : ExternalLogic) (limit : UInt32)
    (store other : Order.Store) :
    quote program query environment limit store = quote program query environment limit other ∧
      (swap program query.committing environment external limit store).1 =
        quote program query.simulating environment limit other ∧
      (swap program query environment external limit store).2 = store ∧
      callsOf (events ⟨program, query, environment, external⟩ limit store) = [] := by
  have hstateless := Program.stateless_of_decode hdecode
  constructor
  · exact quote_of_stateless hstateless
  · constructor
    · exact fst_swap_of_stateless hstateless
    · constructor
      · exact snd_swap_of_stateless hstateless
      · exact callsOf_events hstateless

def statelessBytes : List UInt8 :=
  Operation.recorded 7 (.staticBalances [(.single 65, 1000000), (.single 66, 2000000)]) ++
    Operation.recorded 18 (.protocolFee .input 30 (.single 82)) ++ Operation.recorded 9 .solve

/-- A pool of listed balances with a fee for a third party. -/
def statelessPool : Program where
  id := .single 80
  bytes := statelessBytes.toArray
  records := #[⟨0, .staticBalances [(.single 65, 1000000), (.single 66, 2000000)]⟩,
    ⟨82, .protocolFee .input 30 (.single 82)⟩, ⟨118, .solve⟩]

/-- A store in which the pool has stored balances. -/
def stockedStore : Order.Store :=
  Order.Store.empty.setBalance (.single 80) (.single 66) 5

theorem stateless_pool_ignores_state :
    Program.decode .stateless (.single 80) statelessBytes = .ok statelessPool ∧
    (swap statelessPool (Query.simulated .input (.single 65) (.single 66) 1000).committing
        (Observations.atTime 100).environment .absent 16 stockedStore).1 =
      quote statelessPool (Query.simulated .input (.single 65) (.single 66) 1000).simulating
        (Observations.atTime 100).environment 16 .empty ∧
    quote statelessPool (Query.simulated .input (.single 65) (.single 66) 1000).simulating
        (Observations.atTime 100).environment 16 .empty =
      .ok ⟨⟨1000000, 2000000, 1000, 1992⟩, [⟨.single 82, .single 65, 3⟩], 3⟩ := by
  have hdecode : Program.decode .stateless (.single 80) statelessBytes = .ok statelessPool := by cbv
  constructor
  · exact hdecode
  · constructor
    · exact (stateless_set_ignores_state hdecode _ _ _ _ stockedStore .empty).2.1
    · rfl

end Machine
end SwapPricing
