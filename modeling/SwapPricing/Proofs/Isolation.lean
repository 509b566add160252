import SwapPricing.Proofs.Histories
import SwapPricing.Proofs.JournalViews

/-!
# Isolation of programs

A swap reads and writes order state under the id of its own program only, and it
writes all that it has written or nothing.  So it does the same over every store
with the same part for its program, it leaves the parts of other programs alone,
and swaps of different programs commute.
-/

namespace SwapPricing

/-!
# Where stores differ
-/

/-- The keys at which the second table differs all satisfy `p`. -/
def Table.DiffersOnly {κ ν : Type} [Ord κ] (p : κ → Prop) (s t : Table κ ν) : Prop :=
  ∀ key, t.find? key ≠ s.find? key → p key

namespace Table.DiffersOnly

variable {κ ν : Type} [Ord κ] {p : κ → Prop} {s t : Table κ ν}

theorem refl (s : Table κ ν) : s.DiffersOnly p s :=
  fun _ hne => absurd rfl hne

variable [Std.LawfulEqOrd κ]

theorem filter_eq [Std.TransOrd κ] {q : κ → Bool} (h : s.DiffersOnly p t)
    (hq : ∀ key, q key = true → ¬ p key) : t.filter q = s.filter q := by
  apply Table.ext_find?
  intro key
  rw [Table.find?_filter, Table.find?_filter]
  split
  · rename_i hkey
    by_contra hne
    exact hq key hkey (h key hne)
  · rfl

variable [Std.TransOrd κ]

theorem insert (h : s.DiffersOnly p t) {key : κ} (hkey : p key) (value : ν) :
    s.DiffersOnly p (t.insert key value) := by
  intro other hne
  by_cases hother : other = key
  · exact hother ▸ hkey
  · rw [Table.find?_insert_of_ne t hother] at hne
    exact h other hne

theorem union (s : Table κ ν) (h : Table.empty.DiffersOnly p t) : s.DiffersOnly p (s.union t) := by
  intro key hne
  apply h key
  intro hnone
  rw [Table.find?_union, hnone] at hne
  exact hne rfl

end Table.DiffersOnly

def Query.Trades (q : Query) (asset : AssetId) : Prop :=
  asset = q.assetIn ∨ asset = q.assetOut

theorem Query.trades_asset (q : Query) (leg : Leg) : q.Trades (q.asset leg) := by
  cases leg with
  | input => exact Or.inl rfl
  | output => exact Or.inr rfl

/-- The entries in which a store differs from an earlier one belong to one
program, and those about an asset are about an asset of one trade. -/
structure ChangesOnly (program : ProgramId) (query : Query) (s t : Order.Store) : Prop where
  offsets : s.offsets.DiffersOnly
    (fun key => key.program = program ∧ query.Trades key.subject.asset) t.offsets
  fills : s.fills.DiffersOnly
    (fun key => key.program = program ∧ query.Trades key.subject.asset) t.fills
  bits : s.bits.DiffersOnly (fun key => key.program = program) t.bits
  balances : s.balances.DiffersOnly
    (fun key => key.program = program ∧ query.Trades key.subject) t.balances
  sales : s.sales.DiffersOnly (fun key => key.program = program) t.sales

namespace ChangesOnly

variable {program : ProgramId} {query : Query} {s t : Order.Store}

theorem refl (s : Order.Store) : ChangesOnly program query s s :=
  ⟨.refl _, .refl _, .refl _, .refl _, .refl _⟩

theorem apply (s : Order.Store) (h : ChangesOnly program query .empty t) :
    ChangesOnly program query s (s.apply t) :=
  ⟨h.offsets.union _, h.fills.union _, h.bits.union _, h.balances.union _, h.sales.union _⟩

theorem setOffset {asset : AssetId} (hasset : query.Trades asset) (leg : Leg)
    (offset : DecayOffset) (h : ChangesOnly program query s t) :
    ChangesOnly program query s (t.setOffset program ⟨asset, leg⟩ offset) :=
  { h with offsets := h.offsets.insert ⟨rfl, hasset⟩ offset }

theorem setFilled {asset : AssetId} (hasset : query.Trades asset) (leg : Leg) (total : UInt64)
    (h : ChangesOnly program query s t) :
    ChangesOnly program query s (t.setFilled program ⟨asset, leg⟩ total) :=
  { h with fills := h.fills.insert ⟨rfl, hasset⟩ total }

theorem setBit (bit : UInt32) (h : ChangesOnly program query s t) :
    ChangesOnly program query s (t.setBit program bit) :=
  { h with bits := h.bits.insert rfl () }

theorem setBalance {asset : AssetId} (hasset : query.Trades asset) (balance : UInt64)
    (h : ChangesOnly program query s t) :
    ChangesOnly program query s (t.setBalance program asset balance) :=
  { h with balances := h.balances.insert ⟨rfl, hasset⟩ balance }

theorem setSale (offset : UInt64) (state : SaleState) (h : ChangesOnly program query s t) :
    ChangesOnly program query s (t.setSale program offset state) :=
  { h with sales := h.sales.insert rfl state }

/-- The parts of other programs are the same. -/
theorem ofProgram_eq {other : ProgramId} (h : ChangesOnly program query s t)
    (hne : other ≠ program) : t.ofProgram other = s.ofProgram other := by
  have hprogram : ∀ p : ProgramId, decide (p = other) = true → p ≠ program :=
    fun p hp heq => hne ((of_decide_eq_true hp).symm.trans heq)
  unfold Order.Store.ofProgram
  rw [h.offsets.filter_eq fun key hkey hp => hprogram _ hkey hp.1,
    h.fills.filter_eq fun key hkey hp => hprogram _ hkey hp.1,
    h.bits.filter_eq fun key hkey hp => hprogram _ hkey hp,
    h.balances.filter_eq fun key hkey hp => hprogram _ hkey hp.1,
    h.sales.filter_eq fun key hkey hp => hprogram _ hkey hp]

end ChangesOnly

namespace Machine

/-!
# What a run writes
-/

/-- A journal over `store` in which only entries of one trade are written. -/
structure Local (setup : Setup) (store : Order.Store) (j : Order.Journal) : Prop where
  base : j.base = store
  written : ChangesOnly setup.program.id setup.query .empty j.written

namespace Local

variable {setup : Setup} {store : Order.Store} {s s' : State}

theorem opened (setup : Setup) (store : Order.Store) : Local setup store (.opened store) :=
  ⟨rfl, .refl _⟩

theorem settle {work : Settlement} (h : Settled setup work s s')
    (hs : Local setup store s.journal) : Local setup store s'.journal := by
  cases h with
  | stored hin hout =>
      rename_i balanceIn balanceOut newIn newOut
      have hin := hs.written.setBalance (setup.query.trades_asset .input) newIn
      have hout := hin.setBalance (setup.query.trades_asset .output) newOut
      exact State.write_keeps (Local setup store) hs ⟨hs.base, hout⟩
  | shifted =>
      rename_i period locked restored
      have hin := hs.written.setOffset (setup.query.trades_asset .input) .output locked
      have hout := hin.setOffset (setup.query.trades_asset .output) .input restored
      exact State.write_keeps (Local setup store) hs ⟨hs.base, hout⟩
  | sold =>
      exact State.write_keeps (Local setup store) hs ⟨hs.base, hs.written.setSale _ _⟩
  | charged hfee => exact hs
  | filled hcap =>
      rename_i leg cap
      have hfilled := hs.written.setFilled (setup.query.trades_asset leg) leg
      exact State.write_keeps (Local setup store) hs ⟨hs.base, hfilled _⟩

end Local

theorem localInvariant (setup : Setup) (store : Order.Store) :
    Invariant setup (fun s => Local setup store s.journal)
      fun _ s => Local setup store s.journal :=
  .ofJournal (fun _ bit hj => ⟨hj.base, hj.written.setBit bit⟩) (fun _ hs => hs)
    fun h hs => hs.settle h

/-!
# What a run reads

Over two stores with the same part for its program, a run reads the same.
-/

section Rebase

variable {setup : Setup} {store other : Order.Store} {s : State} {limit : UInt32}

theorem transmits_rebase (other : Order.Store) (mode : ExecutionMode) :
    Transmits (Order.Journal.rebase other) mode mode := by
  intro s change hwrites
  cases mode with
  | simulate => rfl
  | commit =>
      have hjournal : change (s.journal.rebase other) = (change s.journal).rebase other :=
        hwrites other s.journal
      show ({ s with journal := change (s.journal.rebase other) } : State) = _
      rw [hjournal]
      rfl

theorem readsAlike_rebase {program : ProgramId} {j : Order.Journal} (i : Instruction)
    (h : other.ofProgram program = store.ofProgram program) (hj : j.base = store) :
    ReadsAlike program j (j.rebase other) i := by
  subst hj
  cases i with
  | dynamicBalances balances =>
      intro asset
      show (j.written.balance? program asset).or (other.balance? program asset) = _
      rw [← other.balance?_ofProgram, h, Order.Store.balance?_ofProgram]
      rfl
  | decay period =>
      intro side
      show (j.written.offset? program side).or (other.offset? program side) = _
      rw [← other.offset?_ofProgram, h, Order.Store.offset?_ofProgram]
      rfl
  | twap terms =>
      intro offset
      show (j.written.sale? program offset).or (other.sale? program offset) = _
      rw [← other.sale?_ofProgram, h, Order.Store.sale?_ofProgram]
      rfl
  | invalidateBit bit =>
      show (j.written.isBitSet program bit || other.isBitSet program bit) = _
      rw [← other.isBitSet_ofProgram, h, Order.Store.isBitSet_ofProgram]
      rfl
  | _ => trivial

theorem settlesAlike_rebase {j : Order.Journal} (work : Settlement)
    (h : other.ofProgram setup.program.id = store.ofProgram setup.program.id)
    (hj : j.base = store) : SettlesAlike setup j (j.rebase other) work := by
  cases work with
  | decay period => exact readsAlike_rebase (.decay period) h hj
  | fillCap leg cap =>
      subst hj
      show (j.written.fills.find? _).getD (other.filled _ _) = _
      rw [← other.filled_ofProgram, h, Order.Store.filled_ofProgram]
      rfl
  | _ => trivial

/-- External logic is asked the same, and its answer is taken over the same. -/
theorem extruction_withJournal {view : Order.Journal → Order.Journal} {target : Address}
    {input : List UInt8} :
    extruction setup target input (s.withJournal view) =
      (extruction setup target input s).map (State.withJournal view) := by
  have hcall : setup.external (s.withJournal view).calls
      (externalCall setup target input (s.withJournal view)) =
    setup.external s.calls (externalCall setup target input s) := rfl
  unfold extruction
  simp only [hcall]
  cases setup.external s.calls (externalCall setup target input s) with
  | error reason => rfl
  | ok outcome =>
      simp only
      cases outcome.jump with
      | none => rfl
      | some offset =>
          simp only [State.jump]
          cases setup.program.indexOf offset.toNat with
          | error reason => rfl
          | ok index => rfl

theorem execute_rebase {offset : Nat} {i : Instruction}
    (h : other.ofProgram setup.program.id = store.ofProgram setup.program.id)
    (hs : s.journal.base = store) :
    execute setup offset i (s.withJournal (Order.Journal.rebase other)) =
      (execute setup offset i s).map (State.withJournal (Order.Journal.rebase other)) := by
  by_cases hexternal : i.opcode = .extruction
  · cases i with
    | extruction logic input => exact extruction_withJournal
    | _ => cases hexternal
  · exact execute_withJournal (transmits_rebase other setup.query.mode) hexternal
      (readsAlike_rebase i h hs)

/-- A run over another store with the same part for its program does the same. -/
theorem run_rebase (h : other.ofProgram setup.program.id = store.ofProgram setup.program.id) :
    run setup limit other =
      (run setup limit store).map (State.withJournal (Order.Journal.rebase other)) := by
  have hinitial : State.initial setup.query other =
      (State.initial setup.query store).withJournal (Order.Journal.rebase other) := rfl
  have hsteps : runSteps setup limit limit.toNat (State.initial setup.query other) =
      (runSteps setup limit limit.toNat (State.initial setup.query store)).map
        (State.withJournal (Order.Journal.rebase other)) := by
    rw [hinitial]
    refine runSteps_withJournal (fun _ s => Local setup store s.journal) ?_ ?_ (.opened setup store)
    · intro left s r hr hs
      apply step_withJournal
      intro t henter
      exact execute_rebase h ((journal_enter henter).symm ▸ hs.base)
    · intro left s r s' hr hstep hs
      exact (localInvariant setup store).step (Array.mem_of_getElem? hr) hstep hs
  unfold run
  rw [hsteps]
  apply map_bind_eq_map
  intro stepped hstepped
  -- Releasing fees reads no order state; settling does, over a journal that is still local.
  have hfinished : finishSteps setup (stepped.withJournal (Order.Journal.rebase other)) =
      (finishSteps setup stepped).map (State.withJournal (Order.Journal.rebase other)) :=
    finishSteps_withJournal
  rw [hfinished]
  apply map_bind_eq_map
  intro s hfinish
  have hlocal : Local setup store s.journal := ((localInvariant setup store).finishSteps hfinish
    ((localInvariant setup store).runSteps hstepped (.opened setup store))).2
  show settleAll setup s.settlements
    (State.withJournal (Order.Journal.rebase other) { s with settlements := [] }) = _
  refine settleAll_withJournal (fun _ s => Local setup store s.journal) ?_ ?_ hlocal
  · intro work rest s hs
    exact settle_withJournal (transmits_rebase other setup.query.mode)
      (settlesAlike_rebase work h hs.base)
  · intro work rest s s' hsettled hs
    exact hs.settle hsettled

end Rebase

/-!
# Swaps over parts of a store
-/

namespace Bid

variable {b : Bid} {store other : Order.Store}

/-- A swap does the same over another store with the same part for its program,
and leaves the same part. -/
theorem place_eq_of_ofProgram_eq
    (h : other.ofProgram b.program.id = store.ofProgram b.program.id) :
    (b.place other).1 = (b.place store).1 ∧
      (b.place other).2.ofProgram b.program.id = (b.place store).2.ofProgram b.program.id := by
  have hrun : run b.setup b.limit other =
      (run b.setup b.limit store).map (State.withJournal (Order.Journal.rebase other)) :=
    run_rebase h
  unfold place
  cases haccept : accept b.query .commit with
  | error e =>
      rw [swap_of_refused haccept, swap_of_refused haccept]
      exact ⟨rfl, h⟩
  | ok u =>
      have haccepted := accept_eq_ok_iff.mp haccept
      cases hok : run b.setup b.limit store with
      | error e =>
          rw [hok] at hrun
          rw [swap_of_run_error haccepted hrun, swap_of_run_error haccepted hok]
          exact ⟨rfl, h⟩
      | ok s =>
          rw [hok] at hrun
          rw [swap_of_run_ok haccepted hrun, swap_of_run_ok haccepted hok]
          have hlocal := (localInvariant b.setup store).run hok (.opened b.setup store)
          refine ⟨rfl, ?_⟩
          show (other.apply s.journal.written).ofProgram b.program.id =
            (s.journal.base.apply s.journal.written).ofProgram b.program.id
          rw [Order.Store.ofProgram_apply, Order.Store.ofProgram_apply, hlocal.base, h]

/-- A swap only changes entries of its trade. -/
theorem changesOnly_place (b : Bid) (store : Order.Store) :
    ChangesOnly b.program.id b.query store (b.place store).2 := by
  rcases b.place_cases store with ⟨s, -, hrun, hplace⟩ | ⟨e, hplace⟩
  · have hlocal := (localInvariant b.setup store).run hrun (.opened b.setup store)
    rw [hplace, ← hlocal.base]
    exact hlocal.written.apply s.journal.base
  · rw [hplace]
    exact .refl store

theorem ofProgram_place {program : ProgramId} (hne : program ≠ b.program.id)
    (store : Order.Store) : (b.place store).2.ofProgram program = store.ofProgram program :=
  (b.changesOnly_place store).ofProgram_eq hne

theorem place_eq_of_error {e : RunError} (h : (b.place store).1 = .error e) :
    (b.place store).2 = store := by
  rcases b.place_cases store with ⟨s, -, -, hplace⟩ | ⟨reason, hplace⟩
  · rw [hplace] at h
    cases h
  · rw [hplace]

/-- Swaps of different programs commute. -/
theorem place_comm {c : Bid} (hne : b.program.id ≠ c.program.id) (store : Order.Store) :
    (b.place (c.place store).2).1 = (b.place store).1 ∧
      (b.place (c.place store).2).2 = (c.place (b.place store).2).2 := by
  have hb := place_eq_of_ofProgram_eq (ofProgram_place hne store)
  have hc := place_eq_of_ofProgram_eq (ofProgram_place hne.symm store)
  -- Each part is written to by one of the two swaps at most.
  refine ⟨hb.1, Order.Store.ext_ofProgram fun program => ?_⟩
  by_cases hown : program = b.program.id
  · subst hown
    rw [hb.2, ofProgram_place hne]
  · rw [ofProgram_place hown]
    by_cases hother : program = c.program.id
    · subst hother
      exact hc.2.symm
    · rw [ofProgram_place hother, ofProgram_place hother, ofProgram_place hown]

end Bid

/-!
# Interleaved swaps
-/

/-- The third list mixes the elements of the first two, each in its order. -/
inductive Interleaved {α : Type} : List α → List α → List α → Prop where
  | nil : Interleaved [] [] []
  | left {a : α} {as bs cs : List α} (h : Interleaved as bs cs) :
      Interleaved (a :: as) bs (a :: cs)
  | right {b : α} {as bs cs : List α} (h : Interleaved as bs cs) :
      Interleaved as (b :: bs) (b :: cs)

def placeAll (store : Order.Store) (bids : List Bid) : Order.Store :=
  bids.foldl (fun store b => (b.place store).2) store

/-- Swaps with their results, one after the other. -/
def ledger : Order.Store → List Bid → List (Bid × Run Outcome)
  | _, [] => []
  | store, b :: rest => (b, (b.place store).1) :: ledger (b.place store).2 rest

section Interleaving

variable {store : Order.Store} {first second mixed : List Bid}

/-- A swap of another program may come before some swaps or after them. -/
theorem place_before {c : Bid} (hne : ∀ b ∈ first, b.program.id ≠ c.program.id)
    (store : Order.Store) :
    ledger (c.place store).2 first = ledger store first ∧
      placeAll (c.place store).2 first = (c.place (placeAll store first)).2 ∧
      (c.place (placeAll store first)).1 = (c.place store).1 := by
  induction first generalizing store with
  | nil => exact ⟨rfl, rfl, rfl⟩
  | cons b rest ih =>
      have hb := hne b List.mem_cons_self
      have hcomm := Bid.place_comm hb store
      have hcomm' := Bid.place_comm hb.symm store
      rcases ih (fun b hmem => hne b (List.mem_cons_of_mem _ hmem)) (b.place store).2 with
        ⟨hledger, hstore, hresult⟩
      refine ⟨?_, ?_, ?_⟩
      · unfold ledger
        rw [hcomm.1, hcomm.2, hledger]
      · show placeAll (b.place (c.place store).2).2 rest = _
        rw [hcomm.2, hstore]
        rfl
      · show (c.place (placeAll (b.place store).2 rest)).1 = _
        rw [hresult, hcomm'.1]

/-- Interleaved swaps of different programs do what they do one list after the
other. -/
theorem ledger_interleaved (h : Interleaved first second mixed)
    (hne : ∀ b ∈ first, ∀ c ∈ second, b.program.id ≠ c.program.id) (store : Order.Store) :
    Interleaved (ledger store first) (ledger (placeAll store first) second) (ledger store mixed) ∧
      placeAll store mixed = placeAll (placeAll store first) second := by
  induction h generalizing store with
  | nil => exact ⟨.nil, rfl⟩
  | left hrest ih =>
      rename_i b first second mixed
      rcases ih (fun b hb => hne b (List.mem_cons_of_mem _ hb)) (b.place store).2 with
        ⟨hledger, hstore⟩
      exact ⟨.left hledger, hstore⟩
  | right hrest ih =>
      rename_i c first second mixed
      rcases ih (fun b hb d hd => hne b hb d (List.mem_cons_of_mem _ hd)) (c.place store).2 with
        ⟨hledger, hstore⟩
      -- The swap comes before all that is left of the first list, and is moved behind it.
      rcases place_before (fun b hb => hne b hb c List.mem_cons_self) store with
        ⟨hfirst, hplaced, hresult⟩
      rw [hfirst, hplaced] at hledger
      rw [hplaced] at hstore
      refine ⟨?_, hstore⟩
      show Interleaved _ ((c, (c.place (placeAll store first)).1) :: _) _
      rw [hresult]
      exact .right hledger

end Interleaving

/-- Programs do not see each other.  A swap depends on the part of its program
alone and changes nothing else; of that part it changes what its trade is about,
or nothing if it fails.  So however the swaps of different programs are
interleaved, they come to the same. -/
theorem swaps_isolated :
    (∀ (b : Bid) (store other : Order.Store),
      (other.ofProgram b.program.id = store.ofProgram b.program.id →
        (b.place other).1 = (b.place store).1 ∧
          (b.place other).2.ofProgram b.program.id = (b.place store).2.ofProgram b.program.id) ∧
      (∀ program ≠ b.program.id,
        (b.place store).2.ofProgram program = store.ofProgram program) ∧
      (∀ e, (b.place store).1 = .error e → (b.place store).2 = store) ∧
      ChangesOnly b.program.id b.query store (b.place store).2) ∧
    ∀ first second mixed : List Bid, Interleaved first second mixed →
      (∀ b ∈ first, ∀ c ∈ second, b.program.id ≠ c.program.id) → ∀ store,
        Interleaved (ledger store first) (ledger (placeAll store first) second)
            (ledger store mixed) ∧
          placeAll store mixed = placeAll (placeAll store first) second := by
  constructor
  · intro b store other
    refine ⟨Bid.place_eq_of_ofProgram_eq, ?_, ?_, b.changesOnly_place store⟩
    · intro program hne
      exact Bid.ofProgram_place hne store
    · intro e herror
      exact Bid.place_eq_of_error herror
  · intro first second mixed hmixed hne store
    exact ledger_interleaved hmixed hne store

def storedOncePool (id : ProgramId) : Program where
  id := id
  bytes := #[]
  records := #[⟨0, .invalidateBit 3⟩,
    ⟨6, .dynamicBalances [(.single 65, 1000000), (.single 66, 2000000)]⟩, ⟨88, .solve⟩]

def payOurs (amount : UInt64) : Bid :=
  payInto (storedOncePool (.single 80)) amount

def payTheirs (amount : UInt64) : Bid :=
  payInto (storedOncePool (.single 81)) amount

/-- The second trade with our pool is refused, wherever the trade with the other
one comes. -/
theorem isolated_from_other_pool :
    ((payOurs 1000).place (placeAll .empty [payTheirs 700])).1 =
      ((payOurs 1000).place .empty).1 ∧
    ((payOurs 1000).place .empty).1 = .ok ⟨⟨1000000, 2000000, 1000, 1998⟩, [], 3⟩ ∧
    placeAll .empty [payOurs 1000, payTheirs 700, payOurs 500] =
      placeAll (placeAll .empty [payOurs 1000, payOurs 500]) [payTheirs 700] := by
  have hpart : (placeAll .empty [payTheirs 700]).ofProgram (.single 80) =
      Order.Store.empty.ofProgram (.single 80) := rfl
  have hmixed : Interleaved [payOurs 1000, payOurs 500] [payTheirs 700]
      [payOurs 1000, payTheirs 700, payOurs 500] := .left (.right (.left .nil))
  exact ⟨((swaps_isolated.1 (payOurs 1000) .empty _).1 hpart).1, rfl,
    (swaps_isolated.2 _ _ _ hmixed (by decide) .empty).2⟩

end Machine
end SwapPricing
