import SwapPricing.Proofs.Executed
import SwapPricing.Proofs.Persistence
import SwapPricing.Proofs.StoredBalances

/-!
# Histories of a store

A store outlives runs.  Anybody may swap against it or ask it for a quote, makers
invalidate orders ahead of any fill, and in between it is saved and loaded.  What
no action lowers, no history of actions lowers.
-/

namespace SwapPricing
namespace Machine

/-- A swap of some program that somebody attempts. -/
structure Bid extends Attempt where
  program : Program

namespace Bid

def setup (b : Bid) : Setup :=
  ⟨b.program, b.query, b.environment, b.external⟩

/-- The result of the swap, and the store afterwards. -/
def place (b : Bid) (store : Order.Store) : Run Outcome × Order.Store :=
  swap b.program b.query b.environment b.external b.limit store

/-- The quote for the same trade. -/
def price (b : Bid) (store : Order.Store) : Run Outcome :=
  quote b.program b.query b.environment b.limit store

/-- The instructions that the swap starts to execute, in order. -/
def executed (b : Bid) (store : Order.Store) : List Instruction :=
  Machine.executed b.setup b.limit store

theorem place_cases (b : Bid) (store : Order.Store) :
    (∃ s, Accepted b.query .commit ∧ run b.setup b.limit store = .ok s ∧
        b.place store = (.ok (.ofState s), s.journal.commit)) ∨
      ∃ e, b.place store = (.error e, store) :=
  swap_cases b.program b.query b.environment b.external b.limit store

end Bid

/-- A swap that pays `amount` into a pool. -/
def payInto (program : Program) (amount : UInt64) : Bid where
  program := program
  query := (Query.simulated .input (.single 65) (.single 66) amount).committing
  environment := (Observations.atTime 100).environment
  external := .absent
  limit := 16

/-- What may happen to a store. -/
inductive Action where
  | swap (bid : Bid)
  | quote (bid : Bid)
  /-- The maker of a program invalidates an order. -/
  | invalidate (program : ProgramId) (bit : UInt32)
  /-- The store is saved and loaded. -/
  | reload

/-- The store after an action.  A swap may fail, and a text that is not loaded
leaves nothing. -/
def Action.leaves : Action → Order.Store → Order.Store
  | swap bid, store => (bid.place store).2
  | quote _, store => store
  | invalidate program bit, store => (store.invalidate program bit).2
  | reload, store => (Order.Store.load? store.save).getD .empty

theorem Action.leaves_reload (store : Order.Store) : reload.leaves store = store := by
  show (Order.Store.load? store.save).getD .empty = store
  rw [store.load?_save]
  rfl

/-- The store after a history of actions. -/
def storeAfter (store : Order.Store) (history : List Action) : Order.Store :=
  history.foldl (fun store action => action.leaves store) store

/-!
# Counting over a history
-/

/-- What a swap counts for where it meets a store; no other action counts. -/
def Action.weighed (weight : Bid → Order.Store → Nat) : Action → Order.Store → Nat
  | swap bid, store => weight bid store
  | _, _ => 0

/-- The sum of what the swaps of a history count for. -/
def tally (weight : Bid → Order.Store → Nat) : Order.Store → List Action → Nat
  | _, [] => 0
  | store, action :: rest => action.weighed weight store + tally weight (action.leaves store) rest

section Levels

variable {weight : Bid → Order.Store → Nat} {level : Order.Store → Nat}

theorem add_weighed_le
    (hswap : ∀ bid store, level store + weight bid store ≤ level (bid.place store).2)
    (hset : ∀ program bit store, level store ≤ level (Order.Store.setBit store program bit))
    (action : Action) (store : Order.Store) :
    level store + action.weighed weight store ≤ level (action.leaves store) := by
  cases action with
  | swap bid => exact hswap bid store
  | quote bid => exact Nat.le_refl _
  | invalidate program bit => exact hset program bit store
  | reload =>
      rw [Action.leaves_reload]
      exact Nat.le_refl _

/-- A level that every allowed action raises by what it counts for, is raised by all
that a history of allowed actions counts for. -/
theorem add_tally_le_of_allowed (Good : Order.Store → Prop) (Allowed : Action → Prop)
    (haction : ∀ action store, Allowed action → Good store →
      Good (action.leaves store) ∧
        level store + action.weighed weight store ≤ level (action.leaves store))
    {store : Order.Store} (hstore : Good store) {history : List Action}
    (hallowed : ∀ action ∈ history, Allowed action) :
    Good (storeAfter store history) ∧
      level store + tally weight store history ≤ level (storeAfter store history) := by
  induction history generalizing store with
  | nil => exact ⟨hstore, Nat.le_refl _⟩
  | cons action rest ih =>
      rcases haction action store (hallowed action List.mem_cons_self) hstore with ⟨hgood, hfirst⟩
      rcases ih hgood fun a ha => hallowed a (List.mem_cons_of_mem _ ha) with ⟨hlast, hrest⟩
      refine ⟨hlast, ?_⟩
      unfold tally
      show _ ≤ level (storeAfter (action.leaves store) rest)
      omega

/-- A level that swaps raise by what they count for, and that invalidated orders
do not lower, is raised by all that a history counts for. -/
theorem add_tally_le
    (hswap : ∀ bid store, level store + weight bid store ≤ level (bid.place store).2)
    (hset : ∀ program bit store, level store ≤ level (Order.Store.setBit store program bit))
    (store : Order.Store) (history : List Action) :
    level store + tally weight store history ≤ level (storeAfter store history) :=
  (add_tally_le_of_allowed (fun _ => True) (fun _ => True)
    (fun action store _ _ => ⟨trivial, add_weighed_le hswap hset action store⟩) trivial
    fun _ _ => trivial).2

end Levels

end Machine
end SwapPricing
