import Mathlib
import SwapPricing.Proofs.Decoding
import SwapPricing.Proofs.Refusals
import SwapPricing.Proofs.Replay

/-!
# Step limits

A program may jump backwards, and external logic may go on anywhere, so only the
limit on steps ends every run.  A run fetches at most one record more than its
limit, and it fails with the limit exactly if it comes to that record.
-/

namespace SwapPricing

/-- Whether a failure says that a run came to more records than it may run. -/
def RunError.isLimit : RunError → Bool
  | stepLimitExceeded _ => true
  | countExhausted => true
  | _ => false

namespace Machine

/-!
# Fetched records
-/

/-- The records that a run fetches with `left` more steps allowed.  The last of them
may be one that it has no step left for. -/
def fetchedFrom (setup : Setup) : (left : Nat) → State → List Record
  | 0, s => setup.program.records[s.next]?.toList
  | left + 1, s =>
      match setup.program.records[s.next]? with
      | none => []
      | some r =>
          match step setup r s with
          | .ok t => r :: fetchedFrom setup left t
          | .error _ => [r]

/-- The records that a whole run fetches. -/
def fetched (setup : Setup) (limit : UInt32) (store : Order.Store) : List Record :=
  fetchedFrom setup limit.toNat (State.initial setup.query store)

/-- With enough steps allowed, a run comes to more records than its limit. -/
def Overruns (setup : Setup) (limit : UInt32) (store : Order.Store) : Prop :=
  ∃ left, limit.toNat < (fetchedFrom setup left (State.initial setup.query store)).length

section Fetched

variable {setup : Setup} {limit limit' : UInt32} {left more : Nat} {r : Record} {s t s' : State}

theorem eq_none_of_length_toList {α : Type} {x : Option α} (h : x.toList.length ≤ 0) :
    x = none := by
  cases x with
  | none => rfl
  | some a => exact absurd h (Nat.not_succ_le_zero 0)

theorem fetchedFrom_none (left : Nat) (hr : setup.program.records[s.next]? = none) :
    fetchedFrom setup left s = [] := by
  cases left <;> simp [fetchedFrom, hr]

theorem fetchedFrom_step (left : Nat) (hr : setup.program.records[s.next]? = some r)
    (h : step setup r s = .ok t) :
    fetchedFrom setup (left + 1) s = r :: fetchedFrom setup left t := by
  simp [fetchedFrom, hr, h]

/-- A run fetches at most one record that it does not run. -/
theorem length_fetchedFrom_le (setup : Setup) (left : Nat) (s : State) :
    (fetchedFrom setup left s).length ≤ left + 1 := by
  fun_induction fetchedFrom setup left s with
  | case1 s => cases setup.program.records[s.next]? <;> simp
  | case2 left s hr => simp
  | case3 left s r hr t hstep ih => simpa using ih
  | case4 left s r hr e hstep => simp

/-- What a run starts to execute, it has fetched. -/
theorem executedFrom_prefix_fetchedFrom (setup : Setup) (left : Nat) (s : State) :
    executedFrom setup left s <+: (fetchedFrom setup left s).map Record.instruction := by
  fun_induction fetchedFrom setup left s with
  | case1 s =>
      rw [executedFrom_zero]
      exact List.nil_prefix
  | case2 left s hr =>
      rw [executedFrom_none (left + 1) hr]
      exact List.nil_prefix
  | case3 left s r hr t hstep ih =>
      rw [executedFrom_step hr hstep, List.map_cons]
      exact List.cons_prefix_cons.mpr ⟨rfl, ih⟩
  | case4 left s r hr e hstep =>
      cases henter : enter setup r s with
      | error reason =>
          unfold executedFrom runEvents
          simp only [hr, stepEvents, henter, hstep]
          exact List.nil_prefix
      | ok t =>
          rw [executedFrom_enter left hr henter, hstep]
          exact List.prefix_rfl

/-!
# Runs and their limits
-/

theorem runSteps_none (hr : setup.program.records[s.next]? = none) :
    runSteps setup limit left s = .ok s := by
  unfold runSteps
  simp only [hr]

theorem runSteps_zero (hr : setup.program.records[s.next]? = some r) :
    runSteps setup limit 0 s = .error (limitError limit) := by
  unfold runSteps
  simp only [hr]

/-- A run that comes to a record that it has no step left for fails with its limit. -/
theorem runSteps_of_lt_length (h : left < (fetchedFrom setup more s).length) :
    runSteps setup limit left s = .error (limitError limit) := by
  fun_induction fetchedFrom setup more s generalizing left with
  | case1 s =>
      cases hr : setup.program.records[s.next]? with
      | none => simp [hr] at h
      | some r =>
          obtain rfl : left = 0 := by simpa [hr] using h
          exact runSteps_zero hr
  | case2 more s hr => exact absurd h (Nat.not_lt_zero left)
  | case3 more s r hr t hstep ih =>
      cases left with
      | zero => exact runSteps_zero hr
      | succ left =>
          rw [runSteps_of_step_ok hr hstep]
          exact ih (Nat.lt_of_succ_lt_succ h)
  | case4 more s r hr e hstep =>
      obtain rfl : left = 0 := Nat.lt_one_iff.mp h
      exact runSteps_zero hr

/-- A run that keeps to its limit goes the same way under every larger one. -/
theorem runSteps_of_length_le (limit limit' : UInt32)
    (h : (fetchedFrom setup left s).length ≤ left) (more : Nat) :
    runSteps setup limit' (left + more) s = runSteps setup limit left s ∧
      fetchedFrom setup (left + more) s = fetchedFrom setup left s := by
  fun_induction fetchedFrom setup left s with
  | case1 s =>
      have hr := eq_none_of_length_toList h
      rw [runSteps_none hr, runSteps_none hr, fetchedFrom_none _ hr, hr]
      exact ⟨rfl, rfl⟩
  | case2 left s hr =>
      rw [runSteps_none hr, runSteps_none hr, fetchedFrom_none _ hr]
      exact ⟨rfl, rfl⟩
  | case3 left s r hr t hstep ih =>
      rcases ih (Nat.le_of_succ_le_succ h) with ⟨hruns, hfetched⟩
      rw [Nat.succ_add, runSteps_of_step_ok hr hstep, runSteps_of_step_ok hr hstep,
        fetchedFrom_step _ hr hstep, hfetched]
      exact ⟨hruns, rfl⟩
  | case4 left s r hr e hstep =>
      rw [Nat.succ_add, runSteps_of_step_error hr hstep, runSteps_of_step_error hr hstep]
      refine ⟨rfl, ?_⟩
      simp only [fetchedFrom, hr, hstep]

/-- A run overruns its limit exactly if it fetches a record that it may not run. -/
theorem overruns_iff {store : Order.Store} :
    Overruns setup limit store ↔ limit.toNat < (fetched setup limit store).length := by
  constructor
  · rintro ⟨left, hlt⟩
    by_contra hle
    rw [Nat.not_lt, fetched] at hle
    rcases Nat.le_total limit.toNat left with hmore | hless
    · rcases Nat.exists_eq_add_of_le hmore with ⟨more, rfl⟩
      rw [(runSteps_of_length_le limit limit hle more).2] at hlt
      omega
    · rcases Nat.lt_or_eq_of_le hless with hlow | rfl
      · have := length_fetchedFrom_le setup left (State.initial setup.query store)
        omega
      · omega
  · exact fun hlt => ⟨limit.toNat, hlt⟩

end Fetched

/-!
# The count of steps
-/

section Counting

variable {setup : Setup} {limit limit' : UInt32} {left : Nat} {store : Order.Store} {r : Record}
  {s t s' : State}

@[simp] theorem State.steps_write (s : State) (mode : ExecutionMode)
    (change : Order.Journal → Order.Journal) : (s.write mode change).steps = s.steps := by
  cases mode <;> rfl

theorem steps_opening {op : Opcode} {leg : Leg} {rate : UInt64} {recipient : Option Address}
    (h : Opening setup op leg rate recipient s s') : s'.steps = s.steps := by
  cases h <;> rfl

theorem steps_change {i : Instruction} (h : Change setup i s s') : s'.steps = s.steps := by
  cases h with
  | opened _ _ hopening => exact steps_opening hopening
  | marked => simp
  | _ => rfl

theorem steps_settled {work : Settlement} (h : Settled setup work s s') :
    s'.steps = s.steps := by
  cases h with
  | charged => rfl
  | _ => simp

theorem steps_releasing (n : Nat) : Releasing setup fun t => t.steps = n where
  release h := h
  opening _ hopening h := (steps_opening hopening).trans h

/-- Every record that is run counts once. -/
theorem steps_step (h : step setup r s = .ok s') : s'.steps = s.steps + 1 := by
  rcases step_eq_ok h with ⟨t, henter, hexecute⟩
  rw [steps_change (execute_eq_ok hexecute)]
  exact (steps_releasing (s.steps + 1)).releasedBefore henter rfl

/-- Whatever a run fetches, it counts, if it comes to its end. -/
theorem steps_of_runSteps (h : runSteps setup limit left s = .ok s') :
    (fetchedFrom setup left s).length ≤ left ∧
      s'.steps = s.steps + (fetchedFrom setup left s).length := by
  have hle : (fetchedFrom setup left s).length ≤ left := by
    by_contra hlt
    rw [runSteps_of_lt_length (Nat.not_le.mp hlt)] at h
    cases h
  refine ⟨hle, ?_⟩
  fun_induction fetchedFrom setup left s with
  | case1 s =>
      have hr := eq_none_of_length_toList hle
      rw [runSteps_none hr] at h
      cases h
      rw [hr]
      rfl
  | case2 left s hr =>
      rw [runSteps_none hr] at h
      cases h
      rfl
  | case3 left s r hr t hstep ih =>
      rw [runSteps_of_step_ok hr hstep] at h
      rw [ih h (Nat.le_of_succ_le_succ hle), steps_step hstep, List.length_cons]
      omega
  | case4 left s r hr e hstep =>
      rw [runSteps_of_step_error hr hstep] at h
      cases h

theorem steps_of_run (h : run setup limit store = .ok s') :
    s'.steps = (fetched setup limit store).length ∧ s'.steps ≤ limit.toNat := by
  rcases run_eq_ok h with ⟨stepped, s, hsteps, hfinish, hsettle⟩
  rcases steps_of_runSteps hsteps with ⟨hle, hcount⟩
  have hfinished : s.steps = stepped.steps :=
    (steps_releasing stepped.steps).released (finishSteps_eq_ok hfinish).1 rfl
  have hsettled : s'.steps = stepped.steps :=
    @settleAll_keeps setup (fun _ t => t.steps = stepped.steps)
      (fun hwork ht => (steps_settled hwork).trans ht) _ _ _ hsettle hfinished
  have hzero : (State.initial setup.query store).steps = 0 := rfl
  rw [hzero, Nat.zero_add] at hcount
  rw [hsettled, hcount]
  exact ⟨rfl, hle⟩

theorem run_of_overruns (h : Overruns setup limit store) :
    run setup limit store = .error (limitError limit) := by
  rcases h with ⟨more, hlt⟩
  exact run_of_runSteps_error (runSteps_of_lt_length hlt)

/-- A run that keeps to its limit ends the same way under every larger one. -/
theorem run_eq_of_le (h : ¬ Overruns setup limit store) (hle : limit ≤ limit') :
    run setup limit' store = run setup limit store ∧
      fetched setup limit' store = fetched setup limit store := by
  rw [overruns_iff, Nat.not_lt, fetched] at h
  rcases Nat.exists_eq_add_of_le (UInt32.le_iff_toNat_le.mp hle) with ⟨more, hmore⟩
  rcases runSteps_of_length_le limit limit' h more with ⟨hruns, hfetched⟩
  rw [← hmore] at hruns hfetched
  refine ⟨?_, hfetched⟩
  unfold run
  rw [hruns]

end Counting

/-!
# Failures with the limit

Only the loop over the records fails with a limit; no record and no settlement
does.
-/

/-- If a part of a run fails, it is not with a limit. -/
def KeepsToLimit {α : Type} (x : Run α) : Prop :=
  FailsOnly (fun e => e.isLimit = false) x

namespace KeepsToLimit

variable {setup : Setup} {s : State} {op : Opcode}

theorem ok {α : Type} (a : α) : KeepsToLimit (.ok a) :=
  FailsOnly.ok a

theorem error {α : Type} {e : RunError} (h : e.isLimit = false) :
    KeepsToLimit (.error e : Run α) :=
  FailsOnly.error h

theorem bind {α β : Type} {x : Run α} {f : α → Run β} (hx : KeepsToLimit x)
    (hf : ∀ a, KeepsToLimit (f a)) : KeepsToLimit (x >>= f) :=
  FailsOnly.bind hx fun a _ => hf a

theorem ite {α : Type} {c : Prop} {_ : Decidable c} {x y : Run α} (hx : KeepsToLimit x)
    (hy : KeepsToLimit y) : KeepsToLimit (if c then x else y) :=
  FailsOnly.ite (fun _ => hx) fun _ => hy

theorem calculate {α : Type} (op : Opcode) (x : Except MathError α) :
    KeepsToLimit (Machine.calculate op x) := by
  cases x with
  | ok a => exact ok a
  | error reason => exact error rfl

theorem check (op : Opcode) (failure : GuardFailure) (p : Prop) [Decidable p] :
    KeepsToLimit (Machine.check op failure p) :=
  ite (ok _) (error rfl)

theorem demand {α : Type} (op : Opcode) (failure : GuardFailure) (x : Option α) :
    KeepsToLimit (Machine.demand op failure x) := by
  cases x with
  | none => exact error rfl
  | some a => exact ok a

theorem requireUnsolved (s : State) (op : Opcode) : KeepsToLimit (s.requireUnsolved op) :=
  ite (error rfl) (ok _)

theorem requireSolved (s : State) (op : Opcode) : KeepsToLimit (s.requireSolved op) :=
  ite (ok _) (error rfl)

theorem jump (s : State) (program : Program) (offset : UInt16) :
    KeepsToLimit (s.jump program offset) := by
  unfold State.jump
  cases program.indexOf offset.toNat with
  | ok index => exact ok _
  | error reason => exact error rfl

/-!
## Reserves
-/

theorem prices {β : Type} (op : Opcode) (failure : GuardFailure) (priceIn priceOut : Option UInt64)
    (k : UInt64 → UInt64 → β) :
    KeepsToLimit (do
      let balanceIn ← Machine.demand op failure priceIn
      let balanceOut ← Machine.demand op failure priceOut
      return k balanceIn balanceOut) :=
  bind (demand op failure priceIn) fun _ => bind (demand op failure priceOut) fun _ => ok _

theorem grow (op : Opcode) (deltaIn deltaOut : UInt64) (s : State) :
    KeepsToLimit (Machine.grow op deltaIn deltaOut s) :=
  bind (requireUnsolved s op) fun _ => bind (calculate op _) fun _ => bind (calculate op _)
    fun _ => ok _

theorem offsetNow (setup : Setup) (period : UInt32) (side : Side) (s : State) :
    KeepsToLimit (Machine.offsetNow setup period side s) := by
  unfold Machine.offsetNow
  cases s.journal.offset? setup.program.id side with
  | none => exact ok 0
  | some offset => exact calculate .decay _

theorem decay (setup : Setup) (period : UInt32) (s : State) :
    KeepsToLimit (Machine.decay setup period s) := by
  refine bind (requireUnsolved s .decay) fun _ => ?_
  refine bind (offsetNow setup period _ s) fun _ => bind (offsetNow setup period _ s) fun _ => ?_
  exact bind (calculate .decay _) fun _ => bind (calculate .decay _) fun _ => ok _

theorem auction (setup : Setup) (leg : Leg) (terms : Auction) (s : State) :
    KeepsToLimit (Machine.auction setup leg terms s) := by
  refine bind (requireUnsolved s _) fun _ => bind ?_ fun factor => ?_
  · exact bind (check _ _ _) fun _ => calculate _ _
  · cases leg with
    | input => exact bind (calculate _ _) fun _ => ok _
    | output => exact bind (calculate _ _) fun _ => ok _

theorem sale (setup : Setup) (offset : UInt64) (terms : Sale) (s : State) :
    KeepsToLimit (Machine.sale setup offset terms s) := by
  refine bind (requireUnsolved s .twap) fun _ => bind (check .twap _ _) fun _ => ?_
  refine bind (calculate .twap _) fun _ => bind (calculate .twap _) fun _ => ?_
  exact bind (check .twap _ _) fun _ => bind (calculate .twap _) fun _ => ok _

theorem revalue (setup : Setup) (op : Opcode) (valuation : UInt64) (maxDelta : Option UInt16)
    (s : State) : KeepsToLimit (Machine.revalue setup op valuation maxDelta s) := by
  refine bind (check op _ _) fun _ => bind (calculate op _) fun _ => bind (calculate op _)
    fun _ => ?_
  cases maxDelta with
  | none => exact ok _
  | some delta => exact bind (calculate op _) fun _ => bind (calculate op _) fun _ => ok _

theorem valuationOracle (setup : Setup) (op : Opcode) (oracle : Address) (maxAge : Option UInt32)
    (maxDelta : Option UInt16) (s : State) :
    KeepsToLimit (Machine.valuationOracle setup op oracle maxAge maxDelta s) := by
  refine bind (requireUnsolved s op) fun _ => bind (demand op _ _) fun reading => ?_
  cases maxAge with
  | none => exact revalue setup op _ maxDelta s
  | some limit => exact bind (check op _ _) fun _ => revalue setup op _ maxDelta s

/-!
## Fees and prices
-/

theorem openFee (setup : Setup) (op : Opcode) (leg : Leg) (rate : UInt64)
    (recipient : Option Address) (s : State) :
    KeepsToLimit (Machine.openFee setup op leg rate recipient s) := by
  refine bind (requireUnsolved s op) fun _ => ?_
  cases leg with
  | input =>
      cases setup.query.fixed with
      | input => exact bind (calculate op _) fun _ => bind (calculate op _) fun _ => ok _
      | output => exact ok _
  | output =>
      cases setup.query.fixed with
      | input => exact ok _
      | output => exact bind (calculate op _) fun _ => ok _

theorem protocolFee (setup : Setup) (leg : Leg) (rate : UInt16) (recipient : Address) (s : State) :
    KeepsToLimit (Machine.protocolFee setup leg rate recipient s) := by
  cases leg with
  | input => exact bind (requireUnsolved s _) fun _ => ok _
  | output => exact openFee setup _ .output _ _ s

theorem minRateAdjust (setup : Setup) (bound : RateBound) (s : State) :
    KeepsToLimit (Machine.minRateAdjust setup bound s) := by
  refine bind (requireSolved s .minRateAdjust) fun _ => ?_
  cases setup.query.fixed with
  | input => exact bind (calculate _ _) fun _ => ok _
  | output => exact bind (calculate _ _) fun _ => ok _

theorem baseFeeAdjust (setup : Setup) (terms : GasAdjust) (s : State) :
    KeepsToLimit (Machine.baseFeeAdjust setup terms s) := by
  refine bind (requireSolved s .baseFeeAdjust) fun _ => ite (ok _) ?_
  cases setup.query.fixed with
  | input => exact bind (calculate _ _) fun _ => ok _
  | output =>
      refine ite (ok _) (bind (calculate _ _) fun _ => bind (calculate _ _) fun _ => ?_)
      exact bind (calculate _ _) fun _ => bind (calculate _ _) fun _ => ok _

theorem extruction (setup : Setup) (target : Address) (input : List UInt8) (s : State) :
    KeepsToLimit (Machine.extruction setup target input s) := by
  unfold Machine.extruction
  simp only
  split
  · exact error rfl
  · split
    · exact ok _
    · exact jump _ _ _

/-!
## Whole runs
-/

/-- No instruction fails with a limit. -/
theorem execute (setup : Setup) (offset : Nat) (i : Instruction) (s : State) :
    KeepsToLimit (Machine.execute setup offset i s) := by
  cases i with
  | jump destination => exact jump s _ _
  | jumpIfAsset leg asset destination => exact ite (jump s _ _) (ok s)
  | deadline last => exact bind (check _ _ _) fun _ => ok s
  | takerBalance asset least => exact bind (check _ _ _) fun _ => ok s
  | takerShare asset least =>
      exact ite (error rfl) (bind (calculate _ _) fun _ => bind (check _ _ _) fun _ => ok s)
  | salt bytes => exact ok s
  | staticBalances balances => exact bind (requireUnsolved s _) fun _ => prices _ _ _ _ _
  | dynamicBalances balances => exact bind (requireUnsolved s _) fun _ => prices _ _ _ _ _
  | externalBalances => exact bind (requireUnsolved s _) fun _ => prices _ _ _ _ _
  | solve => exact bind (requireUnsolved s _) fun _ => bind (calculate _ _) fun _ => ok _
  | growLiquidity deltas => exact grow _ _ _ s
  | growPriceRange lower higher => exact grow _ _ _ s
  | decay period => exact decay setup period s
  | auction leg terms => exact auction setup leg terms s
  | twap terms => exact sale setup _ terms s
  | flatFee leg rate => exact openFee setup _ leg _ none s
  | progressiveFee leg terms => exact bind (calculate _ _) fun _ => openFee setup _ leg _ none s
  | protocolFee leg rate recipient => exact protocolFee setup leg rate recipient s
  | minRateAdjust bound => exact minRateAdjust setup bound s
  | minRateRequire bound => exact bind (requireSolved s _) fun _ => bind (check _ _ _) fun _ => ok s
  | baseFeeAdjust terms => exact baseFeeAdjust setup terms s
  | valuationStatic valuation =>
      exact bind (requireUnsolved s _) fun _ => revalue setup _ valuation none s
  | valuationOracle oracle => exact valuationOracle setup _ oracle none none s
  | valuationFresh oracle maxAge =>
      rw [Machine.execute]
      exact valuationOracle setup _ oracle (some maxAge) none s
  | valuationBounded oracle maxAge maxDelta =>
      rw [Machine.execute]
      exact valuationOracle setup _ oracle (some maxAge) (some maxDelta) s
  | invalidateBit bit => exact bind (check _ _ _) fun _ => ok _
  | fillCap leg cap => exact ok _
  | extruction logic input => exact extruction setup logic input s

theorem release (setup : Setup) (s : State) : KeepsToLimit (Machine.release setup s) := by
  refine FailsOnly.foldlM ?_ _
  intro fee _ t
  exact openFee setup _ .input fee.rate.toUInt64 (some fee.recipient) t

theorem step (setup : Setup) (r : Record) (s : State) : KeepsToLimit (Machine.step setup r s) :=
  bind (ite (ok _) (release setup _)) fun t => execute setup r.offset r.instruction t

theorem settle (setup : Setup) (work : Settlement) (s : State) :
    KeepsToLimit (Machine.settle setup work s) := by
  cases work with
  | balances balanceIn balanceOut =>
      exact bind (calculate _ _) fun _ => bind (calculate _ _) fun _ => ok _
  | decay period =>
      refine bind (bind (offsetNow setup period _ s) fun _ => calculate _ _) fun _ => ?_
      exact bind (bind (offsetNow setup period _ s) fun _ => calculate _ _) fun _ => ok _
  | sale offset terms prior => exact bind (check _ _ _) fun _ => bind (calculate _ _) fun _ => ok _
  | fee op leg rate carried recipient =>
      refine bind (calculate _ _) fun settled => ?_
      cases recipient with
      | none => exact ok _
      | some recipient => exact ite (ok _) (ok _)
  | fillCap leg cap => exact bind (check _ _ _) fun _ => ok _

theorem settleAll (setup : Setup) (works : List Settlement) (s : State) :
    KeepsToLimit (Machine.settleAll setup works s) := by
  induction works generalizing s with
  | nil => exact ok s
  | cons work rest ih => exact bind (settle setup work s) ih

/-- A run that fetches no record too many does not fail with a limit. -/
theorem runSteps {limit : UInt32} {left : Nat} {s : State}
    (h : (fetchedFrom setup left s).length ≤ left) :
    KeepsToLimit (Machine.runSteps setup limit left s) := by
  fun_induction fetchedFrom setup left s with
  | case1 s =>
      have hr := eq_none_of_length_toList h
      rw [runSteps_none hr]
      exact ok s
  | case2 left s hr =>
      rw [runSteps_none hr]
      exact ok s
  | case3 left s r hr t hstep ih =>
      rw [runSteps_of_step_ok hr hstep]
      exact ih (Nat.le_of_succ_le_succ h)
  | case4 left s r hr e hstep =>
      rw [runSteps_of_step_error hr hstep]
      exact error (step setup r s e hstep)

theorem run {limit : UInt32} {store : Order.Store} (h : ¬ Overruns setup limit store) :
    KeepsToLimit (Machine.run setup limit store) := by
  rw [overruns_iff, Nat.not_lt] at h
  refine bind (runSteps h) fun stepped => bind ?_ fun finished => settleAll setup _ _
  exact bind (release setup stepped) fun _ => ite (ok _) (error rfl)

end KeepsToLimit

/-!
# Quotes and swaps
-/

/-- What holds under every limit: at most one record too many is fetched, and a run
that succeeds has counted its records, none of them too many. -/
structure Bounded (setup : Setup) (limit : UInt32) (store : Order.Store) (result : Run Outcome) :
    Prop where
  length_fetched_le : (fetched setup limit store).length ≤ limit.toNat + 1
  executed_prefix :
    executed setup limit store <+: (fetched setup limit store).map Record.instruction
  steps_eq : ∀ o, result = .ok o → o.steps = (fetched setup limit store).length
  steps_le : ∀ o, result = .ok o → o.steps ≤ limit.toNat

/-- What holds below the largest limit: the count of steps has a value throughout, and
a run that is admitted fails with its limit exactly if it overruns it. -/
structure Reported (setup : Setup) (mode : ExecutionMode) (limit : UInt32) (store : Order.Store)
    (result : Run Outcome) : Prop where
  counted : result ≠ .error .countExhausted
  exceeded : Accepted setup.query mode →
    (result = .error (.stepLimitExceeded limit) ↔ Overruns setup limit store)

/-- A run of a query that is meant for its mode and is a trade. -/
def admitted (setup : Setup) (mode : ExecutionMode) (limit : UInt32) (store : Order.Store) :
    Run State := do
  accept setup.query mode
  run setup limit store

section Admitted

variable (setup : Setup) (mode : ExecutionMode) {limit limit' : UInt32} (store : Order.Store)

theorem admitted_of_accepted {mode : ExecutionMode} (h : Accepted setup.query mode) :
    admitted setup mode limit store = run setup limit store := by
  have haccept : accept setup.query mode = .ok () := accept_eq_ok_iff.mpr h
  rw [admitted, haccept, ok_bind]

/-- A query that is refused is refused under every limit. -/
theorem admitted_of_refused {mode : ExecutionMode} (h : ¬ Accepted setup.query mode) :
    ∃ e : RunError, e.isLimit = false ∧ ∀ limit, admitted setup mode limit store = .error e := by
  have haccept : KeepsToLimit (accept setup.query mode) := by
    refine .ite (.error rfl) ?_
    cases setup.query.validate with
    | error fault => exact .error rfl
    | ok u => exact .ok u
  cases hmode : accept setup.query mode with
  | ok u => exact absurd (accept_eq_ok_iff.mp hmode) h
  | error e =>
      refine ⟨e, haccept e hmode, fun limit => ?_⟩
      rw [admitted, hmode, error_bind]

theorem bounded_admitted :
    Bounded setup limit store ((admitted setup mode limit store).map Outcome.ofState) := by
  have hsteps : ∀ o, (admitted setup mode limit store).map Outcome.ofState = .ok o →
      o.steps = (fetched setup limit store).length ∧ o.steps ≤ limit.toNat := by
    intro o ho
    rcases map_eq_ok_iff.mp ho with ⟨s, hrun, rfl⟩
    rcases bind_eq_ok_iff.mp hrun with ⟨-, -, hrun⟩
    exact steps_of_run hrun
  refine ⟨length_fetchedFrom_le _ _ _, ?_, fun o ho => (hsteps o ho).1,
    fun o ho => (hsteps o ho).2⟩
  rw [executed_eq]
  exact executedFrom_prefix_fetchedFrom _ _ _

theorem keepsToLimit_admitted (h : ¬ Overruns setup limit store) :
    KeepsToLimit (admitted setup mode limit store) := by
  by_cases haccepted : Accepted setup.query mode
  · rw [admitted_of_accepted setup store haccepted]
    exact .run h
  · rcases admitted_of_refused setup store haccepted with ⟨e, he, hrefused⟩
    rw [hrefused limit]
    exact .error he

theorem reported_admitted (hlimit : limit.toNat + 1 < UInt32.size) :
    Reported setup mode limit store ((admitted setup mode limit store).map Outcome.ofState) := by
  have hreport : limitError limit = .stepLimitExceeded limit := if_pos hlimit
  by_cases hover : Overruns setup limit store
  · by_cases haccepted : Accepted setup.query mode
    · rw [admitted_of_accepted setup store haccepted, run_of_overruns hover, hreport]
      exact ⟨nofun, fun _ => iff_of_true rfl hover⟩
    · rcases admitted_of_refused setup store haccepted with ⟨e, he, hrefused⟩
      rw [hrefused limit]
      refine ⟨fun hcount => ?_, fun h => absurd h haccepted⟩
      cases hcount
      cases he
  · have hkept : KeepsToLimit ((admitted setup mode limit store).map Outcome.ofState) :=
      FailsOnly.map (keepsToLimit_admitted setup mode store hover)
    refine ⟨fun hcount => ?_, fun _ => iff_of_false (fun hexceeded => ?_) hover⟩
    · cases hkept _ hcount
    · cases hkept _ hexceeded

end Admitted

theorem quote_eq_admitted (program : Program) (query : Query) (environment : Environment)
    (limit : UInt32) (store : Order.Store) :
    quote program query environment limit store =
      (admitted ⟨program, query, environment, environment.quoteExternal⟩ .simulate limit store).map
        Outcome.ofState := by
  unfold quote admitted
  cases accept query .simulate with
  | error e => rfl
  | ok u =>
      simp only [ok_bind]
      cases run ⟨program, query, environment, environment.quoteExternal⟩ limit store <;> rfl

theorem fst_swap_eq_admitted (program : Program) (query : Query) (environment : Environment)
    (external : ExternalLogic) (limit : UInt32) (store : Order.Store) :
    (swap program query environment external limit store).1 =
      (admitted ⟨program, query, environment, external⟩ .commit limit store).map
        Outcome.ofState :=
  fst_swap program query environment external limit store

/-- The limit on steps holds, whatever a program and its external logic do.  Under the
largest limit, only what an overrun is reported as is left open. -/
theorem step_limit_holds (program : Program) (query : Query) (environment : Environment)
    (external : ExternalLogic) (limit : UInt32) (store : Order.Store) :
    let quoting : Setup := ⟨program, query, environment, environment.quoteExternal⟩
    let swapping : Setup := ⟨program, query, environment, external⟩
    let quoted := quote program query environment limit store
    let swapped := swap program query environment external limit store
    Bounded quoting limit store quoted ∧ Bounded swapping limit store swapped.1 ∧
      (limit.toNat + 1 < UInt32.size →
        Reported quoting .simulate limit store quoted ∧
          Reported swapping .commit limit store swapped.1) := by
  simp only [quote_eq_admitted, fst_swap_eq_admitted]
  refine ⟨bounded_admitted _ _ _, bounded_admitted _ _ _, fun hlimit => ?_⟩
  exact ⟨reported_admitted _ _ _ hlimit, reported_admitted _ _ _ hlimit⟩

/-!
# A program without an end
-/

def endlessBytes : List UInt8 :=
  Operation.recorded 0 (.jump 0)

/-- One record, which jumps to itself. -/
def endless : Program where
  id := .single 80
  bytes := endlessBytes.toArray
  records := #[⟨0, .jump 0⟩]

section Endless

variable {setup : Setup}

theorem step_endless (hprogram : setup.program = endless) {s : State} (hnext : s.next = 0)
    (hpending : s.pending = []) :
    step setup ⟨0, .jump 0⟩ s = .ok { s with steps := s.steps + 1 } := by
  have hindex : setup.program.indexOf 0 = .ok 0 := by
    rw [hprogram]
    cbv
  rw [step, enter_of_pending_nil hpending, ok_bind]
  show State.jump _ setup.program 0 = _
  have hzero : (0 : UInt16).toNat = 0 := rfl
  simp only [State.jump, hzero, hindex]
  cases s
  cases hnext
  rfl

theorem length_fetchedFrom_endless (hprogram : setup.program = endless) (left : Nat) {s : State}
    (hnext : s.next = 0) (hpending : s.pending = []) :
    (fetchedFrom setup left s).length = left + 1 := by
  have hr : setup.program.records[s.next]? = some ⟨0, .jump 0⟩ := by
    rw [hprogram, hnext]
    rfl
  induction left generalizing s with
  | zero =>
      rw [fetchedFrom, hr]
      rfl
  | succ left ih =>
      rw [fetchedFrom_step left hr (step_endless hprogram hnext hpending), List.length_cons,
        ih (s := { s with steps := s.steps + 1 }) hnext hpending hr]

theorem overruns_endless (hprogram : setup.program = endless) (limit : UInt32)
    (store : Order.Store) : Overruns setup limit store :=
  ⟨limit.toNat, by rw [length_fetchedFrom_endless hprogram limit.toNat rfl rfl]; omega⟩

end Endless

/-- A small limit ends the endless program. -/
theorem step_limit_holds_of_endless :
    Program.decode .full (.single 80) endlessBytes = .ok endless ∧
      (16 : UInt32).toNat + 1 < UInt32.size ∧
      quote endless (Query.simulated .input (.single 65) (.single 66) 1000)
        (Observations.atTime 100).environment 16 .empty = .error (.stepLimitExceeded 16) := by
  have hdecode : Program.decode .full (.single 80) endlessBytes = .ok endless := by cbv
  have hlimit : (16 : UInt32).toNat + 1 < UInt32.size := by decide
  have haccepted : Accepted (Query.simulated .input (.single 65) (.single 66) 1000) .simulate :=
    ⟨rfl, by decide, by decide⟩
  have hholds := step_limit_holds endless (Query.simulated .input (.single 65) (.single 66) 1000)
    (Observations.atTime 100).environment .absent 16 .empty
  exact ⟨hdecode, hlimit,
    ((hholds.2.2 hlimit).1.exceeded haccepted).mpr (overruns_endless rfl 16 .empty)⟩

/-- Under the largest limit, the count of steps has no value for the record behind the
last one allowed, so the run does not fail with its limit. -/
theorem count_exhausted_of_endless :
    Program.decode .full (.single 80) endlessBytes = .ok endless ∧
      Accepted (Query.simulated .input (.single 65) (.single 66) 1000) .simulate ∧
      Overruns ⟨endless, Query.simulated .input (.single 65) (.single 66) 1000,
        (Observations.atTime 100).environment, .absent⟩ 4294967295 .empty ∧
      quote endless (Query.simulated .input (.single 65) (.single 66) 1000)
        (Observations.atTime 100).environment 4294967295 .empty = .error .countExhausted ∧
      quote endless (Query.simulated .input (.single 65) (.single 66) 1000)
        (Observations.atTime 100).environment 4294967295 .empty ≠
          .error (.stepLimitExceeded 4294967295) := by
  have hdecode : Program.decode .full (.single 80) endlessBytes = .ok endless := by cbv
  have haccepted : Accepted (Query.simulated .input (.single 65) (.single 66) 1000) .simulate :=
    ⟨rfl, by decide, by decide⟩
  have hover : Overruns ⟨endless, Query.simulated .input (.single 65) (.single 66) 1000,
      (Observations.atTime 100).environment, .absent⟩ 4294967295 .empty :=
    overruns_endless rfl 4294967295 .empty
  have hexhausted : limitError 4294967295 = .countExhausted := rfl
  have hquote : quote endless (Query.simulated .input (.single 65) (.single 66) 1000)
      (Observations.atTime 100).environment 4294967295 .empty = .error .countExhausted :=
    quote_of_run_error haccepted (hexhausted ▸ run_of_overruns hover)
  refine ⟨hdecode, haccepted, hover, hquote, ?_⟩
  rw [hquote]
  intro h
  cases h

end Machine
end SwapPricing
