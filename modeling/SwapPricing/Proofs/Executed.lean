import SwapPricing.Machine.Trace
import SwapPricing.Proofs.Runs

/-!
# Executed instructions

The trace of a run names the records that the run starts to execute.  Where all
of them succeed, the settlements that they leave behind stand in reverse order.
-/

namespace SwapPricing

/-- Whether the settlement of an instruction reads order state. -/
def Operation.settlesOverState : Instruction → Bool
  | fillCap _ _ => true
  | decay _ => true
  | _ => false

namespace Machine

/-!
# Traces
-/

/-- The instruction that an event starts. -/
def Event.instruction? : Event → Option Instruction
  | .entered r _ _ => some r.instruction
  | _ => none

/-- The instructions that a run starts to execute, in order. -/
def executed (setup : Setup) (limit : UInt32) (store : Order.Store) : List Instruction :=
  (events setup limit store).filterMap Event.instruction?

def executedFrom (setup : Setup) (left : Nat) (s : State) : List Instruction :=
  (runEvents setup left s).filterMap Event.instruction?

theorem filterMap_settleEvents (setup : Setup) (works : List Settlement) (s : State) :
    (settleEvents setup works s).filterMap Event.instruction? = [] := by
  induction works generalizing s with
  | nil => rfl
  | cons work rest ih =>
      unfold settleEvents
      rw [List.filterMap_cons_none rfl]
      cases settle setup work s with
      | error e => rfl
      | ok s' => exact ih s'

theorem executed_eq (setup : Setup) (limit : UInt32) (store : Order.Store) :
    executed setup limit store =
      executedFrom setup limit.toNat (State.initial setup.query store) := by
  unfold executed executedFrom events
  simp only [List.filterMap_append]
  cases runSteps setup limit limit.toNat (State.initial setup.query store) >>=
      finishSteps setup with
  | error e => exact List.append_nil _
  | ok s =>
      simp only [filterMap_settleEvents]
      exact List.append_nil _

theorem filterMap_callEvents (setup : Setup) (target : Address) (input : List UInt8) (s : State) :
    (callEvents setup target input s).filterMap Event.instruction? = [] := by
  unfold callEvents
  simp only
  split
  · rfl
  · rfl

section Executed

variable {setup : Setup} {r : Record} {s t s' : State}

theorem filterMap_stepEvents (h : enter setup r s = .ok t) :
    (stepEvents setup r s).filterMap Event.instruction? = [r.instruction] := by
  unfold stepEvents
  simp only [h]
  have hentered : (Event.entered r t.registers t.solved).instruction? = some r.instruction := rfl
  rw [List.filterMap_cons_some hentered]
  congr 1
  split
  · exact filterMap_callEvents _ _ _ _
  · rfl

theorem executedFrom_zero (setup : Setup) (s : State) : executedFrom setup 0 s = [] := by
  unfold executedFrom runEvents
  split <;> rfl

theorem executedFrom_none (left : Nat) (hr : setup.program.records[s.next]? = none) :
    executedFrom setup left s = [] := by
  unfold executedFrom
  cases left <;> simp only [runEvents, hr, List.filterMap_nil]

/-- A record that is entered counts as executed, whatever becomes of it. -/
theorem executedFrom_enter (left : Nat) (hr : setup.program.records[s.next]? = some r)
    (h : enter setup r s = .ok t) :
    executedFrom setup (left + 1) s = r.instruction ::
      match step setup r s with
      | .ok s' => executedFrom setup left s'
      | .error _ => [] := by
  unfold executedFrom
  rw [runEvents]
  simp only [hr]
  rw [List.filterMap_append, filterMap_stepEvents h]
  cases step setup r s <;> rfl

theorem executedFrom_step {left : Nat} (hr : setup.program.records[s.next]? = some r)
    (h : step setup r s = .ok s') :
    executedFrom setup (left + 1) s = r.instruction :: executedFrom setup left s' := by
  rcases step_eq_ok h with ⟨t, henter, -⟩
  rw [executedFrom_enter left hr henter, h]

/-- What a run starts to execute is the record that it enters, or comes after a
step. -/
theorem mem_executedFrom_succ {left : Nat} {i : Instruction}
    (h : i ∈ executedFrom setup (left + 1) s) :
    ∃ r t, setup.program.records[s.next]? = some r ∧ enter setup r s = .ok t ∧
      (i = r.instruction ∨ ∃ s', step setup r s = .ok s' ∧ i ∈ executedFrom setup left s') := by
  cases hr : setup.program.records[s.next]? with
  | none =>
      rw [executedFrom_none (left + 1) hr] at h
      cases h
  | some r =>
      cases henter : enter setup r s with
      | error e =>
          have hstep : step setup r s = .error e := by
            unfold step
            rw [henter]
            rfl
          unfold executedFrom runEvents at h
          simp only [hr, stepEvents, henter, hstep] at h
          cases h
      | ok t =>
          refine ⟨r, t, rfl, henter, ?_⟩
          rw [executedFrom_enter left hr henter] at h
          rcases List.mem_cons.mp h with heq | hrest
          · exact Or.inl heq
          · cases hstep : step setup r s with
            | error e =>
                simp only [hstep] at hrest
                cases hrest
            | ok s' =>
                simp only [hstep] at hrest
                exact Or.inr ⟨s', rfl, hrest⟩

/-- A run only executes records of its program. -/
theorem mem_executedFrom {left : Nat} {i : Instruction}
    (h : i ∈ executedFrom setup left s) : ∃ r ∈ setup.program.records, r.instruction = i := by
  induction left generalizing s with
  | zero =>
      rw [executedFrom_zero] at h
      cases h
  | succ left ih =>
      rcases mem_executedFrom_succ h with ⟨r, t, hr, -, rfl | ⟨s', -, hrest⟩⟩
      · exact ⟨r, Array.mem_of_getElem? hr, rfl⟩
      · exact ih hrest

end Executed
/-!
# What is left to settle

The settlements that read order state are those of the executed fill caps and
decays, the last first.
-/

/-- The instruction behind a settlement that reads order state. -/
def Settlement.origin? : Settlement → Option Instruction
  | .decay period => some (.decay period)
  | .fillCap leg cap => some (.fillCap leg cap)
  | _ => none

/-- The instructions behind the settlements of `s`. -/
def origins (s : State) : List Instruction :=
  s.settlements.filterMap Settlement.origin?

section Origins

variable {setup : Setup} {s s' : State}

theorem origins_opening {op : Opcode} {leg : Leg} {rate : UInt64} {recipient : Option Address}
    (h : Opening setup op leg rate recipient s s') : origins s' = origins s := by
  cases h <;> rfl

theorem origins_steady (is : List Instruction) : Steady setup fun t => origins t = is where
  advance _ _ h := h
  release h := h
  opening _ hopening h := (origins_opening hopening).trans h

theorem origins_execute {offset : Nat} {i : Instruction} (h : execute setup offset i s = .ok s') :
    origins s' = [i].filter Operation.settlesOverState ++ origins s := by
  cases hi : i.settlesOverState with
  | true =>
      rw [List.filter_cons_of_pos hi]
      cases i with
      | decay period =>
          have hdecay : decay setup period s = .ok s' := h
          simp only [decay, bind_eq_ok_iff, pure_eq_ok_iff] at hdecay
          rcases hdecay with ⟨-, -, -, -, -, -, -, -, -, -, rfl⟩
          rfl
      | fillCap leg cap =>
          cases h
          rfl
      | _ => cases hi
  | false =>
      have hne : ¬ i.settlesOverState = true := by rw [hi]; decide
      rw [List.filter_cons_of_neg hne]
      have hchange := execute_eq_ok h
      cases hchange with
      | faded => cases hi
      | capped => cases hi
      | opened _ _ hopening => exact origins_opening hopening
      | marked hclear =>
          unfold origins
          rw [State.settlements_write]
          rfl
      | _ => rfl

theorem origins_step {r : Record} (h : step setup r s = .ok s') :
    origins s' = [r.instruction].filter Operation.settlesOverState ++ origins s := by
  rcases step_eq_ok h with ⟨t, henter, hexecute⟩
  rw [origins_execute hexecute, (origins_steady (origins s)).enter henter rfl]

theorem origins_ran {left : Nat} (h : Ran setup left s s') :
    origins s' =
      ((executedFrom setup left s).filter Operation.settlesOverState).reverse ++ origins s := by
  induction h with
  | finished hend =>
      rename_i left s
      rw [executedFrom_none left hend]
      rfl
  | stepped hr hstep hrest ih =>
      rename_i left r s t s'
      rw [ih, origins_step hstep, executedFrom_step hr hstep, ← List.append_assoc]
      congr 1
      cases hi : r.instruction.settlesOverState with
      | true => simp [hi]
      | false => simp [hi]

theorem origins_finishSteps (h : finishSteps setup s = .ok s') : origins s' = origins s :=
  (origins_steady (origins s)).released (finishSteps_eq_ok h).1 rfl

/-- Where the records of a run are finished, the settlements stand in reverse order. -/
theorem origins_of_finished {limit : UInt32} {store : Order.Store} {stepped : State}
    (hsteps : runSteps setup limit limit.toNat (State.initial setup.query store) = .ok stepped)
    (hfinish : finishSteps setup stepped = .ok s) :
    origins s = ((executed setup limit store).filter Operation.settlesOverState).reverse := by
  rw [origins_finishSteps hfinish, origins_ran (ran_of_runSteps hsteps), executed_eq]
  exact List.append_nil _

end Origins

end Machine
end SwapPricing
