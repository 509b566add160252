import SwapPricing.Proofs.JournalViews

/-!
# Quoting a swap

A quote runs the same records as a swap of the same query, but over the bare
store: it neither writes nor sees what the run itself has written.  While the
records run, a swap writes nothing but invalidated bits, so as long as no bit
comes up twice, every record does the same in both.
-/

namespace SwapPricing

/-- The same query, with no effects wanted. -/
def Query.simulating (q : Query) : Query :=
  { q with mode := .simulate }

namespace Machine

/-- The setup of the quote that predicts a swap. -/
def Setup.quoting (setup : Setup) : Setup where
  program := setup.program
  query := setup.query.simulating
  environment := setup.environment
  external := setup.environment.quoteExternal

/-- The same state with nothing written over `store`. -/
def State.over (store : Order.Store) (s : State) : State :=
  { s with journal := .opened store }

section Over

variable {store : Order.Store} {setup : Setup} {s : State}

theorem quoting_eq : setup.quoting = setup.inMode .simulate setup.environment.quoteExternal :=
  rfl

theorem over_eq : State.over store = State.withJournal fun _ => .opened store :=
  rfl

theorem transmits_over (store : Order.Store) (mode : ExecutionMode) :
    Transmits (fun _ => .opened store) mode .simulate := by
  intro s change _
  cases mode <;> rfl

/-!
# Reading order state
-/

/-- Nothing but bits has been written over `store`. -/
structure OnlyBits (store : Order.Store) (j : Order.Journal) : Prop where
  base : j.base = store
  offsets : j.written.offsets = .empty
  fills : j.written.fills = .empty
  balances : j.written.balances = .empty
  sales : j.written.sales = .empty

namespace OnlyBits

variable {j : Order.Journal}

theorem opened (store : Order.Store) : OnlyBits store (.opened store) :=
  ⟨rfl, rfl, rfl, rfl, rfl⟩

theorem setBit (hj : OnlyBits store j) (program : ProgramId) (bit : UInt32) :
    OnlyBits store (j.setBit program bit) :=
  ⟨hj.base, hj.offsets, hj.fills, hj.balances, hj.sales⟩

theorem offset? (hj : OnlyBits store j) (program : ProgramId) (side : Side) :
    j.offset? program side = store.offset? program side := by
  unfold Order.Journal.offset? Order.Store.offset?
  rw [hj.base, hj.offsets]
  rfl

theorem filled (hj : OnlyBits store j) (program : ProgramId) (side : Side) :
    j.filled program side = store.filled program side := by
  unfold Order.Journal.filled
  rw [hj.base, hj.fills]
  rfl

theorem balance? (hj : OnlyBits store j) (program : ProgramId) (asset : AssetId) :
    j.balance? program asset = store.balance? program asset := by
  unfold Order.Journal.balance? Order.Store.balance?
  rw [hj.base, hj.balances]
  rfl

theorem sale? (hj : OnlyBits store j) (program : ProgramId) (offset : UInt64) :
    j.sale? program offset = store.sale? program offset := by
  unfold Order.Journal.sale? Order.Store.sale?
  rw [hj.base, hj.sales]
  rfl

end OnlyBits

/-!
# Steps

A quote and a swap differ in a step only by a bit that the swap itself has set.
-/

/-- Both runs see the same state of a bit that the instruction invalidates. -/
def SeesBit (setup : Setup) (store : Order.Store) (i : Instruction) (s : State) : Prop :=
  ∀ bit, i = .invalidateBit bit →
    s.journal.isBitSet setup.program.id bit = store.isBitSet setup.program.id bit

theorem OnlyBits.readsAlike {i : Instruction} (hj : OnlyBits store s.journal)
    (hbit : SeesBit setup store i s) :
    ReadsAlike setup.program.id s.journal (.opened store) i := by
  cases i with
  | dynamicBalances balances => exact fun asset => (hj.balance? setup.program.id asset).symm
  | decay period => exact fun side => (hj.offset? setup.program.id side).symm
  | twap terms => exact fun offset => (hj.sale? setup.program.id offset).symm
  | invalidateBit bit => exact (hbit bit rfl).symm
  | _ => trivial

theorem execute_over (hj : OnlyBits store s.journal) {offset : Nat} {i : Instruction}
    (hexternal : i.opcode ≠ .extruction) (hbit : SeesBit setup store i s) :
    execute setup.quoting offset i (s.over store) =
      (execute setup offset i s).map (State.over store) := by
  rw [quoting_eq, over_eq]
  exact execute_withJournal (transmits_over store setup.query.mode) hexternal
    (hj.readsAlike hbit)

theorem step_over {r : Record} (hexternal : r.opcode ≠ .extruction)
    (hj : OnlyBits store s.journal)
    (hbit : ∀ t, enter setup r s = .ok t → SeesBit setup store r.instruction s) :
    step setup.quoting r (s.over store) = (step setup r s).map (State.over store) := by
  rw [quoting_eq, over_eq]
  apply step_withJournal
  intro t ht
  have hjournal := journal_enter ht
  apply execute_over
  · rw [hjournal]
    exact hj
  · exact hexternal
  · unfold SeesBit
    rw [hjournal]
    exact hbit t ht

/-- While records run, nothing but bits is written. -/
theorem onlyBitsInvariant :
    Invariant setup (fun s => OnlyBits store s.journal) fun _ _ => True :=
  .ofJournal (fun _ bit hj => hj.setBit _ bit) (fun _ _ => trivial) fun _ _ => trivial

/-- Before anything is settled, a run has written nothing but bits. -/
theorem onlyBits_of_finished {limit : UInt32} {stepped s : State}
    (hsteps : runSteps setup limit limit.toNat (State.initial setup.query store) = .ok stepped)
    (hfinish : finishSteps setup stepped = .ok s) : OnlyBits store s.journal :=
  (onlyBitsInvariant.finishSteps hfinish
    (onlyBitsInvariant.runSteps hsteps (.opened store))).2

end Over
end Machine
end SwapPricing
