import SwapPricing.Proofs.Changes

/-!
# Invariants of runs

A run passes through states while it executes records, and through states with
a stack of settlements while it unwinds.  A property of the former and a
property of the latter make up an invariant if every change keeps them; then
the second one holds of the state a run ends in.
-/

namespace SwapPricing

/-- The identifier whose name is the character of one byte. -/
def Identifier.single {kind : IdentifierKind} (byte : UInt8) : Identifier kind :=
  Identifier.padded [byte] (show 1 ≤ 32 by decide)

namespace Machine

/-!
# Successful steps
-/

theorem step_eq_ok {setup : Setup} {r : Record} {s s' : State} (h : step setup r s = .ok s') :
    ∃ t, enter setup r s = .ok t ∧ execute setup r.offset r.instruction t = .ok s' :=
  bind_eq_ok_iff.mp h

/-- Where no fee waits, none is applied. -/
theorem release_of_pending_nil {setup : Setup} {s : State} (hpending : s.pending = []) :
    release setup s = .ok s := by
  have hsame : { s with pending := [] } = s := by rw [← hpending]
  unfold release
  rw [hpending, List.foldlM_nil, hsame]
  rfl

theorem enter_of_pending_nil {setup : Setup} {r : Record} {s : State}
    (hpending : s.pending = []) :
    enter setup r s = .ok { s with next := s.next + 1, steps := s.steps + 1 } := by
  unfold enter releaseBefore
  split
  · rfl
  · exact release_of_pending_nil hpending

theorem finishSteps_eq_ok {setup : Setup} {s s' : State} (h : finishSteps setup s = .ok s') :
    release setup s = .ok s' ∧ s'.solved = true := by
  rcases bind_eq_ok_iff.mp h with ⟨released, hrelease, hfinish⟩
  split at hfinish
  · rename_i hsolved
    cases hfinish
    exact ⟨hrelease, hsolved⟩
  · cases hfinish

theorem settleAll_cons_eq_ok {setup : Setup} {work : Settlement} {rest : List Settlement}
    {s s' : State} (h : settleAll setup (work :: rest) s = .ok s') :
    ∃ t, Settled setup work s t ∧ settleAll setup rest t = .ok s' := by
  rcases bind_eq_ok_iff.mp h with ⟨t, hsettle, hrest⟩
  exact ⟨t, settle_eq_ok hsettle, hrest⟩

/-- What every settlement keeps, all of them keep. -/
theorem settleAll_keeps {setup : Setup} {Unwinding : List Settlement → State → Prop}
    (hsettle : ∀ {work : Settlement} {rest : List Settlement} {s s' : State},
      Settled setup work s s' → Unwinding (work :: rest) s → Unwinding rest s')
    {works : List Settlement} {s s' : State} (h : settleAll setup works s = .ok s')
    (hs : Unwinding works s) : Unwinding [] s' := by
  induction works generalizing s with
  | nil =>
      injection h with h
      exact h ▸ hs
  | cons work rest ih =>
      rcases settleAll_cons_eq_ok h with ⟨t, hsettled, hrest⟩
      exact ih hrest (hsettle hsettled hs)

theorem run_eq_ok {setup : Setup} {limit : UInt32} {store : Order.Store} {s' : State}
    (h : run setup limit store = .ok s') :
    ∃ stepped s,
      runSteps setup limit limit.toNat (State.initial setup.query store) = .ok stepped ∧
        finishSteps setup stepped = .ok s ∧
          settleAll setup s.settlements { s with settlements := [] } = .ok s' := by
  unfold run at h
  simp only [bind_eq_ok_iff] at h
  rcases h with ⟨stepped, hsteps, s, hfinish, hsettle⟩
  exact ⟨stepped, s, hsteps, hfinish, hsettle⟩

/-- At most `left` successful steps lead from one state to another one, in which
the program has ended. -/
inductive Ran (setup : Setup) : (left : Nat) → State → State → Prop where
  | finished {left : Nat} {s : State} (hend : setup.program.records[s.next]? = none) :
      Ran setup left s s
  | stepped {left : Nat} {r : Record} {s t s' : State}
      (hr : setup.program.records[s.next]? = some r) (hstep : step setup r s = .ok t)
      (hrest : Ran setup left t s') : Ran setup (left + 1) s s'

theorem ran_of_runSteps {setup : Setup} {limit : UInt32} {left : Nat} {s s' : State}
    (h : runSteps setup limit left s = .ok s') : Ran setup left s s' := by
  induction left generalizing s with
  | zero =>
      unfold runSteps at h
      split at h
      · rename_i hend
        injection h with h
        exact h ▸ .finished hend
      · cases h
  | succ left ih =>
      unfold runSteps at h
      split at h
      · rename_i hend
        injection h with h
        exact h ▸ .finished hend
      · rename_i r hr
        rw [bind_eq_ok_iff] at h
        rcases h with ⟨t, hstep, hrest⟩
        exact .stepped hr hstep (ih hrest)

/-!
# What has to be kept
-/

/-- What has to be kept for `Running` to hold while waiting fees are applied. -/
structure Releasing (setup : Setup) (Running : State → Prop) : Prop where
  release : ∀ {s : State}, Running s → Running { s with pending := [] }
  opening : ∀ {op : Opcode} {leg : Leg} {rate : UInt64} {recipient : Option Address} {s s' : State},
    s.solved = false → Opening setup op leg rate recipient s s' → Running s → Running s'

/-- What has to be kept for `Running` to hold until a record is run: applying the
fees that waited for it, and moving on to it. -/
structure Steady (setup : Setup) (Running : State → Prop) : Prop
    extends Releasing setup Running where
  advance : ∀ {s : State} (next steps : Nat),
    Running s → Running { s with next := next, steps := steps }

/-- What each change has to keep for `Running` to hold between records and for
`Unwinding` to hold between settlements. -/
structure Invariant (setup : Setup) (Running : State → Prop)
    (Unwinding : List Settlement → State → Prop) : Prop extends Steady setup Running where
  change : ∀ {r : Record} {s s' : State}, r ∈ setup.program.records →
    Change setup r.instruction s s' → Running s → Running s'
  finish : ∀ {s : State}, s.solved = true → Running s →
    Unwinding s.settlements { s with settlements := [] }
  settle : ∀ {work : Settlement} {rest : List Settlement} {s s' : State},
    Settled setup work s s' → Unwinding (work :: rest) s → Unwinding rest s'

/-- What opening each fee keeps, opening all of them keeps. -/
theorem openAll_keeps {setup : Setup} {Running : State → Prop} {fees : List PendingFee}
    (hopen : ∀ fee ∈ fees, ∀ {s s' : State},
      openFee setup (.protocolFee .input) .input fee.rate.toUInt64 (some fee.recipient) s =
        .ok s' → Running s → Running s')
    {s s' : State}
    (h : fees.foldlM (fun s fee =>
      openFee setup (.protocolFee .input) .input fee.rate.toUInt64 (some fee.recipient) s) s =
        .ok s')
    (hs : Running s) : Running s' := by
  induction fees generalizing s with
  | nil =>
      rw [List.foldlM_nil, pure_eq_ok_iff] at h
      exact h ▸ hs
  | cons fee rest ih =>
      rw [List.foldlM_cons, bind_eq_ok_iff] at h
      rcases h with ⟨t, hfirst, hrest⟩
      rcases List.forall_mem_cons.mp hopen with ⟨hfee, hothers⟩
      exact ih hothers hrest (hfee hfirst hs)

namespace Releasing

variable {setup : Setup} {Running : State → Prop}

theorem openAll (inv : Releasing setup Running) {fees : List PendingFee} {s s' : State}
    (h : fees.foldlM (fun s fee =>
      openFee setup (.protocolFee .input) .input fee.rate.toUInt64 (some fee.recipient) s) s =
        .ok s')
    (hs : Running s) : Running s' := by
  refine openAll_keeps ?_ h hs
  intro fee _ s s' hopen hs
  rcases openFee_eq_ok hopen with ⟨hsolved, hopening⟩
  exact inv.opening hsolved hopening hs

theorem released (inv : Releasing setup Running) {s s' : State}
    (h : Machine.release setup s = .ok s') (hs : Running s) : Running s' :=
  inv.openAll h (inv.release hs)

theorem releasedBefore (inv : Releasing setup Running) {next : Opcode} {s s' : State}
    (h : releaseBefore setup next s = .ok s') (hs : Running s) : Running s' := by
  unfold releaseBefore at h
  split at h
  · injection h with h
    exact h ▸ hs
  · exact inv.released h hs

end Releasing

namespace Steady

variable {setup : Setup} {Running : State → Prop}

theorem enter (inv : Steady setup Running) {r : Record} {s s' : State}
    (h : Machine.enter setup r s = .ok s') (hs : Running s) : Running s' :=
  inv.releasedBefore h (inv.advance (s.next + 1) (s.steps + 1) hs)

theorem step (inv : Steady setup Running)
    (hexecute : ∀ {r : Record} {s s' : State}, r ∈ setup.program.records →
      execute setup r.offset r.instruction s = .ok s' → Running s → Running s')
    {r : Record} (hr : r ∈ setup.program.records) {s s' : State}
    (h : Machine.step setup r s = .ok s') (hs : Running s) : Running s' := by
  rcases step_eq_ok h with ⟨t, henter, ht⟩
  exact hexecute hr ht (inv.enter henter hs)

theorem ran (inv : Steady setup Running)
    (hexecute : ∀ {r : Record} {s s' : State}, r ∈ setup.program.records →
      execute setup r.offset r.instruction s = .ok s' → Running s → Running s')
    {left : Nat} {s s' : State} (h : Ran setup left s s') (hs : Running s) : Running s' := by
  induction h with
  | finished hend => exact hs
  | stepped hr hstep hrest ih =>
      exact ih (inv.step hexecute (Array.mem_of_getElem? hr) hstep hs)

theorem finishSteps (inv : Steady setup Running) {s s' : State}
    (h : Machine.finishSteps setup s = .ok s') (hs : Running s) :
    s'.solved = true ∧ Running s' := by
  rcases finishSteps_eq_ok h with ⟨hrelease, hsolved⟩
  exact ⟨hsolved, inv.released hrelease hs⟩

end Steady

namespace Invariant

variable {setup : Setup} {Running : State → Prop} {Unwinding : List Settlement → State → Prop}

theorem step (inv : Invariant setup Running Unwinding) {r : Record}
    (hr : r ∈ setup.program.records) {s s' : State} (h : Machine.step setup r s = .ok s')
    (hs : Running s) : Running s' :=
  inv.toSteady.step (fun hr h hs => inv.change hr (execute_eq_ok h) hs) hr h hs

theorem ran (inv : Invariant setup Running Unwinding) {left : Nat} {s s' : State}
    (h : Ran setup left s s') (hs : Running s) : Running s' :=
  inv.toSteady.ran (fun hr h hs => inv.change hr (execute_eq_ok h) hs) h hs

theorem runSteps (inv : Invariant setup Running Unwinding) {limit : UInt32} {left : Nat}
    {s s' : State} (h : Machine.runSteps setup limit left s = .ok s') (hs : Running s) :
    Running s' :=
  inv.ran (ran_of_runSteps h) hs

theorem settleAll (inv : Invariant setup Running Unwinding) {works : List Settlement}
    {s s' : State} (h : Machine.settleAll setup works s = .ok s') (hs : Unwinding works s) :
    Unwinding [] s' :=
  settleAll_keeps inv.settle h hs

/-- While records run, the journal is only written to by setting bits, so what
that keeps is kept until the settlements. -/
theorem ofJournal {P : Order.Journal → Prop}
    (hbit : ∀ j bit, P j → P (j.setBit setup.program.id bit))
    (hfinish : ∀ s : State, P s.journal → Unwinding s.settlements { s with settlements := [] })
    (hsettle : ∀ {work : Settlement} {rest : List Settlement} {s s' : State},
      Settled setup work s s' → Unwinding (work :: rest) s → Unwinding rest s') :
    Invariant setup (fun s => P s.journal) Unwinding where
  advance _ _ hs := hs
  release hs := hs
  opening _ h hs := by
    cases h <;> exact hs
  change {r s s'} _ h hs := by
    generalize r.instruction = i at h
    cases h with
    | opened _ _ hopening => cases hopening <;> exact hs
    | marked hclear => exact State.write_keeps P hs (hbit _ _ hs)
    | _ => exact hs
  finish {s} _ hs := hfinish s hs
  settle h hs := hsettle h hs

/-- A run that succeeds ends with nothing left to unwind. -/
theorem run (inv : Invariant setup Running Unwinding) {limit : UInt32} {store : Order.Store}
    {s : State} (h : Machine.run setup limit store = .ok s)
    (hs : Running (State.initial setup.query store)) : Unwinding [] s := by
  rcases run_eq_ok h with ⟨stepped, finished, hsteps, hfinish, hsettle⟩
  rcases inv.finishSteps hfinish (inv.runSteps hsteps hs) with ⟨hsolved, hrunning⟩
  exact inv.settleAll hsettle (inv.finish hsolved hrunning)

end Invariant

/-!
# Quotes and swaps
-/

/-- A query that a quote or a swap accepts. -/
structure Accepted (query : Query) (mode : ExecutionMode) : Prop where
  mode_eq : query.mode = mode
  distinct : query.assetIn ≠ query.assetOut
  amount_ne_zero : query.amount ≠ 0

theorem accept_eq_ok_iff {query : Query} {mode : ExecutionMode} {u : Unit} :
    accept query mode = .ok u ↔ Accepted query mode := by
  unfold accept Query.validate
  by_cases hmode : query.mode = mode
  · by_cases hasset : query.assetIn = query.assetOut
    · simp only [hmode, hasset, ne_eq, not_true_eq_false, if_false, if_true, Except.mapError,
        reduceCtorEq, false_iff]
      exact fun h => h.distinct hasset
    · by_cases hamount : query.amount = 0
      · simp only [hmode, hasset, hamount, ne_eq, not_true_eq_false, if_false, if_true,
          Except.mapError, reduceCtorEq, false_iff]
        exact fun h => h.amount_ne_zero hamount
      · simp only [hmode, hasset, hamount, ne_eq, not_true_eq_false, if_false, Except.mapError,
          true_iff]
        exact ⟨hmode, hasset, hamount⟩
  · simp only [hmode, ne_eq, not_false_eq_true, if_true, reduceCtorEq, false_iff]
    exact fun h => hmode h.mode_eq

theorem quote_eq_ok_iff {program : Program} {query : Query} {environment : Environment}
    {limit : UInt32} {store : Order.Store} {o : Outcome} :
    quote program query environment limit store = .ok o ↔
      Accepted query .simulate ∧
        ∃ s, run ⟨program, query, environment, environment.quoteExternal⟩ limit store = .ok s ∧
          .ofState s = o := by
  simp only [quote, bind_eq_ok_iff, accept_eq_ok_iff, pure_eq_ok_iff, exists_const]

theorem quote_of_run_error {program : Program} {query : Query} {environment : Environment}
    {limit : UInt32} {store : Order.Store} {e : RunError} (haccepted : Accepted query .simulate)
    (h : run ⟨program, query, environment, environment.quoteExternal⟩ limit store = .error e) :
    quote program query environment limit store = .error e := by
  have haccept : accept query .simulate = .ok () := accept_eq_ok_iff.mpr haccepted
  simp only [quote, haccept, h, ok_bind, error_bind]

theorem fst_swap (program : Program) (query : Query) (environment : Environment)
    (external : ExternalLogic) (limit : UInt32) (store : Order.Store) :
    (swap program query environment external limit store).1 =
      (accept query .commit >>= fun _ =>
        run ⟨program, query, environment, external⟩ limit store).map Outcome.ofState := by
  unfold swap
  simp only
  split
  · rename_i s hs
    rw [hs]
    rfl
  · rename_i e he
    rw [he]
    rfl

section Swaps

variable {program : Program} {query : Query} {environment : Environment}
  {external : ExternalLogic} {limit : UInt32} {store : Order.Store}

theorem swap_of_refused {e : RunError} (h : accept query .commit = .error e) :
    swap program query environment external limit store = (.error e, store) := by
  simp only [swap, h, error_bind]

theorem swap_of_run_error {e : RunError} (haccepted : Accepted query .commit)
    (h : run ⟨program, query, environment, external⟩ limit store = .error e) :
    swap program query environment external limit store = (.error e, store) := by
  have haccept : accept query .commit = .ok () := accept_eq_ok_iff.mpr haccepted
  simp only [swap, haccept, h, ok_bind]

theorem swap_of_run_ok {s : State} (haccepted : Accepted query .commit)
    (h : run ⟨program, query, environment, external⟩ limit store = .ok s) :
    swap program query environment external limit store =
      (.ok (.ofState s), s.journal.commit) := by
  have haccept : accept query .commit = .ok () := accept_eq_ok_iff.mpr haccepted
  simp only [swap, haccept, h, ok_bind]

theorem swap_cases (program : Program) (query : Query) (environment : Environment)
    (external : ExternalLogic) (limit : UInt32) (store : Order.Store) :
    (∃ s, Accepted query .commit ∧
        run ⟨program, query, environment, external⟩ limit store = .ok s ∧
        swap program query environment external limit store =
          (.ok (.ofState s), s.journal.commit)) ∨
      ∃ e, swap program query environment external limit store = (.error e, store) := by
  cases haccept : accept query .commit with
  | error e => exact Or.inr ⟨e, swap_of_refused haccept⟩
  | ok u =>
      have haccepted := accept_eq_ok_iff.mp haccept
      cases hrun : run ⟨program, query, environment, external⟩ limit store with
      | error e => exact Or.inr ⟨e, swap_of_run_error haccepted hrun⟩
      | ok s => exact Or.inl ⟨s, haccepted, rfl, swap_of_run_ok haccepted hrun⟩

theorem swap_eq_ok {o : Outcome}
    (h : (swap program query environment external limit store).1 = .ok o) :
    Accepted query .commit ∧
      ∃ s, run ⟨program, query, environment, external⟩ limit store = .ok s ∧ .ofState s = o := by
  rcases swap_cases program query environment external limit store with
    ⟨s, haccepted, hrun, hswap⟩ | ⟨e, hswap⟩
  · rw [hswap] at h
    exact ⟨haccepted, s, hrun, Except.ok.inj h⟩
  · rw [hswap] at h
    cases h

end Swaps

end Machine
end SwapPricing
