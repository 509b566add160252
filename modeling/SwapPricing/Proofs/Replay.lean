import Mathlib.Data.List.Duplicate
import SwapPricing.Proofs.Histories
import SwapPricing.Proofs.JournalViews

/-!
# Replay protection

An order that may be filled once names a bit of its program.  A run that comes to
the bit fails if it is set, and a swap sets it.  No action clears a bit, so a
swap that came to it succeeds once and never again.
-/

namespace SwapPricing
namespace Machine

/-!
# Bits during a run
-/

section Bits

variable {setup : Setup} {bit : UInt32} {limit : UInt32} {store : Order.Store} {left : Nat}
  {s s' : State}

/-- No run clears a bit, of whatever program. -/
theorem bitInvariant (owner : ProgramId) (bit : UInt32) :
    Invariant setup (fun s => s.journal.isBitSet owner bit = true)
      fun _ s => s.journal.isBitSet owner bit = true := by
  refine .ofJournal (P := fun j => j.isBitSet owner bit = true) ?_ (fun _ hs => hs) ?_
  · intro j other hset
    exact j.isBitSet_setBit_of_isBitSet owner hset _ other
  · intro work rest s s' h hs
    cases h with
    | charged hfee => exact hs
    | _ => exact State.write_keeps (fun j => j.isBitSet owner bit = true) hs hs

theorem step_eq_error_of_isBitSet {r : Record} {t : State} (hr : r.instruction = .invalidateBit bit)
    (henter : enter setup r s = .ok t) (hset : s.journal.isBitSet setup.program.id bit = true) :
    step setup r s = .error (.guard .invalidateBit (.orderInvalidated bit)) := by
  have hguard : ¬ ¬ t.journal.isBitSet setup.program.id bit = true := by
    rw [journal_enter henter]
    exact not_not_intro hset
  unfold step
  rw [henter, ok_bind, hr]
  show invalidateBit setup bit t = _
  simp only [invalidateBit, check, if_neg hguard, error_bind]

theorem isBitSet_of_step {r : Record} (hmode : setup.query.mode = .commit)
    (hr : r.instruction = .invalidateBit bit) (h : step setup r s = .ok s') :
    s'.journal.isBitSet setup.program.id bit = true := by
  rcases step_eq_ok h with ⟨t, henter, hexecute⟩
  rw [hr] at hexecute
  have hmark : invalidateBit setup bit t = .ok s' := hexecute
  simp only [invalidateBit, bind_eq_ok_iff, pure_eq_ok_iff, hmode] at hmark
  rcases hmark with ⟨-, -, rfl⟩
  exact t.journal.isBitSet_setBit_self _ _

theorem runSteps_of_step_error {r : Record} {e : RunError}
    (hr : setup.program.records[s.next]? = some r) (h : step setup r s = .error e) :
    runSteps setup limit (left + 1) s = .error e := by
  unfold runSteps
  simp only [hr, h]
  rfl

theorem runSteps_of_step_ok {r : Record} (hr : setup.program.records[s.next]? = some r)
    (h : step setup r s = .ok s') :
    runSteps setup limit (left + 1) s = runSteps setup limit left s' := by
  rw [runSteps]
  simp only [hr, h]
  rfl

/-- A run that comes to a set bit fails there. -/
theorem runSteps_of_isBitSet (hset : s.journal.isBitSet setup.program.id bit = true)
    (hmem : .invalidateBit bit ∈ executedFrom setup left s) :
    runSteps setup limit left s = .error (.guard .invalidateBit (.orderInvalidated bit)) := by
  induction left generalizing s with
  | zero =>
      rw [executedFrom_zero] at hmem
      cases hmem
  | succ left ih =>
      rcases mem_executedFrom_succ hmem with ⟨r, t, hr, henter, heq | ⟨s', hstep, hrest⟩⟩
      · exact runSteps_of_step_error hr (step_eq_error_of_isBitSet heq.symm henter hset)
      · rw [runSteps_of_step_ok hr hstep]
        exact ih ((bitInvariant _ bit).step (Array.mem_of_getElem? hr) hstep hset) hrest

/-- A swap that comes to a bit twice fails there, since it sees the bit that it
has set itself. -/
theorem runSteps_of_duplicate (hmode : setup.query.mode = .commit)
    (htwice : (executedFrom setup left s).Duplicate (.invalidateBit bit)) :
    runSteps setup limit left s = .error (.guard .invalidateBit (.orderInvalidated bit)) := by
  induction left generalizing s with
  | zero =>
      rw [executedFrom_zero] at htwice
      cases htwice
  | succ left ih =>
      rcases mem_executedFrom_succ htwice.mem with ⟨r, t, hr, henter, -⟩
      cases hstep : step setup r s with
      | error e =>
          rw [executedFrom_enter left hr henter, hstep] at htwice
          exact absurd htwice (List.not_duplicate_singleton _ _)
      | ok s' =>
          -- The first time sets the bit, and what is left of the run comes to it set.
          rw [executedFrom_step hr hstep, List.duplicate_cons_iff] at htwice
          rw [runSteps_of_step_ok hr hstep]
          rcases htwice with ⟨heq, hmem⟩ | hrest
          · exact runSteps_of_isBitSet (isBitSet_of_step hmode heq hstep) hmem
          · exact ih hrest

theorem isBitSet_of_ran (hmode : setup.query.mode = .commit) (h : Ran setup left s s')
    (hmem : .invalidateBit bit ∈ executedFrom setup left s) :
    s'.journal.isBitSet setup.program.id bit = true := by
  induction h with
  | finished hend =>
      rw [executedFrom_none _ hend] at hmem
      cases hmem
  | stepped hr hstep hrest ih =>
      rw [executedFrom_step hr hstep] at hmem
      rcases List.mem_cons.mp hmem with heq | hmem
      · exact (bitInvariant _ bit).ran hrest (isBitSet_of_step hmode heq.symm hstep)
      · exact ih hmem

/-!
# Bits after a run
-/

theorem run_of_runSteps_error {e : RunError}
    (h : runSteps setup limit limit.toNat (State.initial setup.query store) = .error e) :
    run setup limit store = .error e := by
  unfold run
  rw [h]
  rfl

theorem run_of_isBitSet (hset : store.isBitSet setup.program.id bit = true)
    (hmem : .invalidateBit bit ∈ executed setup limit store) :
    run setup limit store = .error (.guard .invalidateBit (.orderInvalidated bit)) := by
  rw [executed_eq] at hmem
  exact run_of_runSteps_error (runSteps_of_isBitSet hset hmem)

theorem run_of_twice (hmode : setup.query.mode = .commit)
    (htwice : 2 ≤ (executed setup limit store).count (.invalidateBit bit)) :
    run setup limit store = .error (.guard .invalidateBit (.orderInvalidated bit)) := by
  rw [executed_eq, ← List.duplicate_iff_two_le_count] at htwice
  exact run_of_runSteps_error (runSteps_of_duplicate hmode htwice)

/-- A swap that succeeds leaves every bit set that it has come to. -/
theorem isBitSet_of_run (hmode : setup.query.mode = .commit) (h : run setup limit store = .ok s')
    (hmem : .invalidateBit bit ∈ executed setup limit store) :
    s'.journal.isBitSet setup.program.id bit = true := by
  rcases run_eq_ok h with ⟨stepped, s, hsteps, hfinish, hsettle⟩
  rw [executed_eq] at hmem
  have hstepped := isBitSet_of_ran hmode (ran_of_runSteps hsteps) hmem
  have hfinished := ((bitInvariant _ bit).finishSteps hfinish hstepped).2
  exact (bitInvariant _ bit).settleAll hsettle hfinished

end Bits

/-!
# Orders over a history
-/

namespace Bid

/-- The instructions that the quote for the same trade starts to execute. -/
def probed (b : Bid) (store : Order.Store) : List Instruction :=
  Machine.executed ⟨b.program, b.query, b.environment, b.environment.quoteExternal⟩ b.limit store

/-- One for a swap under a program id that has come to a bit and succeeded. -/
def redeemed (owner : ProgramId) (bit : UInt32) (b : Bid) (store : Order.Store) : Nat :=
  match (b.place store).1 with
  | .ok _ => if b.program.id = owner ∧ .invalidateBit bit ∈ b.executed store then 1 else 0
  | .error _ => 0

/-- A swap that counts finds the bit clear and leaves it set. -/
theorem isBitSet_add_redeemed_le (owner : ProgramId) (bit : UInt32) (b : Bid)
    (store : Order.Store) :
    (store.isBitSet owner bit).toNat + b.redeemed owner bit store ≤
      ((b.place store).2.isBitSet owner bit).toNat := by
  unfold redeemed
  rcases b.place_cases store with ⟨s, haccepted, hrun, hplace⟩ | ⟨e, hplace⟩
  · rw [hplace]
    simp only [Order.Journal.isBitSet_commit]
    split
    · rename_i hcounts
      rcases hcounts with ⟨rfl, hmem⟩
      -- Over a set bit, the run would have failed.
      have hclear : store.isBitSet b.program.id bit = false := by
        by_contra hset
        rw [Bool.not_eq_false] at hset
        have hfails : run b.setup b.limit store = _ := run_of_isBitSet hset hmem
        rw [hfails] at hrun
        cases hrun
      have hset : s.journal.isBitSet b.program.id bit = true :=
        isBitSet_of_run haccepted.mode_eq hrun hmem
      rw [hclear, hset]
      rfl
    · cases hset : store.isBitSet owner bit with
      | false => exact Nat.zero_le _
      | true =>
          have hkept : s.journal.isBitSet owner bit = true :=
            (bitInvariant owner bit).run hrun hset
          rw [hkept]
          rfl
  · rw [hplace]
    exact Nat.le_refl _

end Bid

theorem isBitSet_le_setBit (owner program : ProgramId) (bit other : UInt32) (store : Order.Store) :
    (store.isBitSet owner bit).toNat ≤ ((store.setBit program other).isBitSet owner bit).toNat := by
  cases hset : store.isBitSet owner bit with
  | false => exact Nat.zero_le _
  | true =>
      rw [Order.Store.isBitSet_setBit_of_isBitSet hset program other]

/-- Over a history, a bit is set once. -/
theorem isBitSet_add_tally_le (owner : ProgramId) (bit : UInt32) (store : Order.Store)
    (history : List Action) :
    (store.isBitSet owner bit).toNat + tally (Bid.redeemed owner bit) store history ≤
      ((storeAfter store history).isBitSet owner bit).toNat :=
  add_tally_le (Bid.isBitSet_add_redeemed_le owner bit)
    (fun program other store => isBitSet_le_setBit owner program bit other store) store history

theorem isBitSet_storeAfter {owner : ProgramId} {bit : UInt32} {store : Order.Store}
    (hset : store.isBitSet owner bit = true) (history : List Action) :
    (storeAfter store history).isBitSet owner bit = true := by
  have hle := isBitSet_add_tally_le owner bit store history
  rw [hset] at hle
  cases hafter : (storeAfter store history).isBitSet owner bit with
  | false =>
      rw [hafter, Bool.toNat_true, Bool.toNat_false] at hle
      omega
  | true => rfl

theorem tally_redeemed_eq_zero {owner : ProgramId} {bit : UInt32} {store : Order.Store}
    (hset : store.isBitSet owner bit = true) (history : List Action) :
    tally (Bid.redeemed owner bit) store history = 0 := by
  have hle := isBitSet_add_tally_le owner bit store history
  have hone := Bool.toNat_le ((storeAfter store history).isBitSet owner bit)
  rw [hset, Bool.toNat_true] at hle
  omega

theorem isBitSet_after_invalidate (owner : ProgramId) (bit : UInt32) (store : Order.Store)
    (before : List Action) :
    (storeAfter store (before ++ [.invalidate owner bit])).isBitSet owner bit = true := by
  unfold storeAfter
  rw [List.foldl_append]
  exact Order.Store.isBitSet_setBit_self _ owner bit

/-- An order is filled at most once.  A bit that is set stays set; a swap or a
quote that comes to it fails; so at most one swap that has come to it succeeds,
and none does after the maker has set it. -/
theorem redeemed_at_most_once (owner : ProgramId) (bit : UInt32) (store : Order.Store) :
    (store.isBitSet owner bit = true → ∀ history,
      (storeAfter store history).isBitSet owner bit = true) ∧
    (∀ b : Bid, b.program.id = owner → Accepted b.query .commit →
      (store.isBitSet owner bit = true ∧ .invalidateBit bit ∈ b.executed store ∨
        2 ≤ (b.executed store).count (.invalidateBit bit)) →
      b.place store = (.error (.guard .invalidateBit (.orderInvalidated bit)), store)) ∧
    (∀ b : Bid, b.program.id = owner → Accepted b.query .simulate →
      store.isBitSet owner bit = true → .invalidateBit bit ∈ b.probed store →
      b.price store = .error (.guard .invalidateBit (.orderInvalidated bit))) ∧
    (∀ history, tally (Bid.redeemed owner bit) store history ≤ 1) ∧
    ∀ before after, tally (Bid.redeemed owner bit)
      (storeAfter store (before ++ [.invalidate owner bit])) after = 0 := by
  refine ⟨fun hset => isBitSet_storeAfter hset, ?_, ?_, ?_, ?_⟩
  · rintro b rfl haccepted hmeets
    apply swap_of_run_error haccepted
    rcases hmeets with ⟨hset, hmem⟩ | htwice
    · exact run_of_isBitSet hset hmem
    · exact run_of_twice haccepted.mode_eq htwice
  · rintro b rfl haccepted hset hmem
    exact quote_of_run_error haccepted (run_of_isBitSet hset hmem)
  · intro history
    have hle := isBitSet_add_tally_le owner bit store history
    have hone := Bool.toNat_le ((storeAfter store history).isBitSet owner bit)
    omega
  · intro before after
    exact tally_redeemed_eq_zero (isBitSet_after_invalidate owner bit store before) after

def oncePool : Program where
  id := .single 80
  bytes := #[]
  records := #[⟨0, .staticBalances [(.single 65, 1000000), (.single 66, 2000000)]⟩,
    ⟨82, .invalidateBit 3⟩, ⟨88, .solve⟩]

def onceTraded : Order.Store :=
  storeAfter .empty [.swap (payInto oncePool 1000), .reload]

theorem refused_after_trade :
    ((payInto oncePool 1000).place .empty).1 = .ok ⟨⟨1000000, 2000000, 1000, 1998⟩, [], 3⟩ ∧
    (payInto oncePool 500).place onceTraded =
      (.error (.guard .invalidateBit (.orderInvalidated 3)), onceTraded) := by
  have htraded : onceTraded = storeAfter .empty [.swap (payInto oncePool 1000)] := by
    unfold onceTraded storeAfter
    simp only [List.foldl_cons, List.foldl_nil, Action.leaves_reload]
  have haccepted : Accepted (payInto oncePool 500).query .commit := ⟨rfl, by decide, by decide⟩
  have hset : onceTraded.isBitSet (.single 80) 3 = true := by
    rw [htraded]
    rfl
  have hmem : .invalidateBit 3 ∈ (payInto oncePool 500).executed onceTraded := by
    rw [htraded]
    decide
  exact ⟨rfl, (redeemed_at_most_once (.single 80) 3 onceTraded).2.1 (payInto oncePool 500) rfl
    haccepted (Or.inl ⟨hset, hmem⟩)⟩

end Machine
end SwapPricing
