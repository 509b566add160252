import SwapPricing.Proofs.Histories

/-!
# Sessions

Whoever works on a store gets answers from it.  A session may keep its store in
memory, or it may keep nothing but the saved text: then every action starts by
loading the store and ends by saving it.  Both give the same answers.
-/

namespace SwapPricing
namespace Machine

/-- What comes of an action. -/
inductive Answer where
  | swapped (result : Run Outcome)
  | quoted (result : Run Outcome)
  /-- Whether the order was still valid. -/
  | invalidated (fresh : Bool)
  | reloaded

/-- What an action answers where it meets a store. -/
def Action.answer : Action → Order.Store → Answer
  | swap bid, store => .swapped (bid.place store).1
  | quote bid, store => .quoted (bid.price store)
  | invalidate program bit, store => .invalidated (store.invalidate program bit).1
  | reload, _ => .reloaded

/-- The answers to a history of actions on one store in memory. -/
def answers : Order.Store → List Action → List Answer
  | _, [] => []
  | store, action :: rest => action.answer store :: answers (action.leaves store) rest

/-- The answers to a history of actions, each of which loads the store from the
text in front of it and saves it behind it.  The last text comes with them; a text
that cannot be loaded ends all. -/
def answersSaved : String → List Action → Option (List Answer × String)
  | text, [] => some ([], text)
  | text, action :: rest => do
      let store ← Order.Store.load? text
      let (more, last) ← answersSaved (action.leaves store).save rest
      return (action.answer store :: more, last)

theorem answersSaved_save (store : Order.Store) (history : List Action) :
    answersSaved store.save history =
      some (answers store history, (storeAfter store history).save) := by
  induction history generalizing store with
  | nil => rfl
  | cons action rest ih =>
      unfold answersSaved
      rw [store.load?_save, Option.bind_eq_bind, Option.bind_some, ih (action.leaves store)]
      rfl

/-- A store is kept whole by its saved text.  Whatever is done to it, a session that
saves and loads it between all actions gives the answers of a session in memory and
ends with the text of the same store. -/
theorem saved_store_lossless (store : Order.Store) :
    Order.Store.load? store.save = some store ∧
      ∀ history : List Action, ∃ text,
        answersSaved store.save history = some (answers store history, text) ∧
          Order.Store.load? text = some (storeAfter store history) := by
  refine ⟨store.load?_save, fun history => ?_⟩
  exact ⟨_, answersSaved_save store history, (storeAfter store history).load?_save⟩

end Machine
end SwapPricing
