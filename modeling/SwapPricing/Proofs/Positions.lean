import SwapPricing.Proofs.Reshaping
import SwapPricing.Proofs.StraightLine

/-!
# Runs at another place

An instruction that does not jump reads nothing of the program but its id, and
nothing of the place that a run has come to.  A fee does not even look at the
fees that wait.
-/

namespace SwapPricing
namespace Machine

/-- The same trade under another program. -/
def Setup.onto (setup : Setup) (program : Program) : Setup :=
  { setup with program := program }

namespace State

/-- The same state at another place, with other fees waiting. -/
def resumed (held : List PendingFee → List PendingFee) (next steps : Nat → Nat) (s : State) :
    State :=
  { s with pending := held s.pending, next := next s.next, steps := steps s.steps }

/-- The same state at another place. -/
def moved (next steps : Nat → Nat) (s : State) : State :=
  s.resumed id next steps

end State

/-!
# Another program
-/

section Programs

variable {setup : Setup} {program : Program}

theorem enter_onto (r : Record) (s : State) : enter (setup.onto program) r s = enter setup r s :=
  rfl

theorem execute_onto (hid : program.id = setup.program.id) {i : Instruction}
    (hi : i.isStraight = true) (offset : Nat) (s : State) :
    execute (setup.onto program) offset i s = execute setup offset i s := by
  rcases program with ⟨id, bytes, records⟩
  cases hid
  cases i with
  | jump destination => cases hi
  | jumpIfAsset leg asset destination => cases hi
  | extruction logic input => cases hi
  | _ => rfl

theorem settle_onto (hid : program.id = setup.program.id) (work : Settlement) (s : State) :
    settle (setup.onto program) work s = settle setup work s := by
  rcases program with ⟨id, bytes, records⟩
  cases hid
  cases work <;> rfl

theorem settleAll_onto (hid : program.id = setup.program.id) (works : List Settlement)
    (s : State) : settleAll (setup.onto program) works s = settleAll setup works s := by
  induction works generalizing s with
  | nil => rfl
  | cons work rest ih =>
      unfold settleAll
      rw [settle_onto hid]
      exact bind_congr_of_ok fun s' _ => ih s'

end Programs

/-- Only a sale is known by its offset. -/
theorem execute_offset {setup : Setup} {i : Instruction} (hi : i.opcode ≠ .twap)
    (offset other : Nat) (s : State) : execute setup offset i s = execute setup other i s := by
  cases i with
  | twap terms => exact absurd rfl hi
  | _ => rfl

/-!
# Another place
-/

section Places

variable {setup : Setup} {held : List PendingFee → List PendingFee} {next steps : Nat → Nat}
  {s : State}

theorem openFee_resumed {op : Opcode} {leg : Leg} {rate : UInt64} {recipient : Option Address} :
    openFee setup op leg rate recipient (s.resumed held next steps) =
      (openFee setup op leg rate recipient s).map (State.resumed held next steps) := by
  apply bind_eq_map
  intro _
  cases leg with
  | input =>
      cases setup.query.fixed with
      | input => exact bind_eq_map fun _ => bind_eq_map fun _ => rfl
      | output => rfl
  | output =>
      cases setup.query.fixed with
      | input => rfl
      | output => exact bind_eq_map fun _ => rfl

theorem progressiveFee_resumed {leg : Leg} {terms : ProgressiveFee} :
    progressiveFee setup leg terms (s.resumed held next steps) =
      (progressiveFee setup leg terms s).map (State.resumed held next steps) :=
  bind_eq_map fun _ => openFee_resumed

theorem openAll_resumed (fees : List PendingFee) (s : State) :
    (fees.foldlM (fun s fee => openFee setup (.protocolFee .input) .input fee.rate.toUInt64
        (some fee.recipient) s) (s.resumed held next steps) : Run State) =
      (fees.foldlM (fun s fee => openFee setup (.protocolFee .input) .input fee.rate.toUInt64
        (some fee.recipient) s) s).map (State.resumed held next steps) := by
  induction fees generalizing s with
  | nil => rfl
  | cons fee rest ih =>
      rw [List.foldlM_cons, List.foldlM_cons, openFee_resumed]
      exact map_bind_eq_map fun s _ => ih s

theorem release_moved :
    release setup (s.moved next steps) = (release setup s).map (State.moved next steps) := by
  have hempty : ({ s.moved next steps with pending := [] } : State) =
      State.resumed id next steps { s with pending := [] } := rfl
  unfold release
  rw [hempty]
  exact openAll_resumed s.pending { s with pending := [] }

theorem keepsBalances_moved (next steps : Nat → Nat) : KeepsBalances (State.moved next steps) :=
  ⟨fun _ => rfl, fun _ => rfl, fun _ => rfl, fun _ _ _ => rfl⟩

theorem write_moved (mode : ExecutionMode) (change : Order.Journal → Order.Journal) :
    (s.moved next steps).write mode change = (s.write mode change).moved next steps := by
  cases mode <;> rfl

theorem protocolFee_moved {leg : Leg} {rate : UInt16} {recipient : Address} :
    protocolFee setup leg rate recipient (s.moved next steps) =
      (protocolFee setup leg rate recipient s).map (State.moved next steps) := by
  cases leg with
  | input => exact bind_eq_map fun _ => rfl
  | output => exact openFee_resumed

theorem takerShare_moved {asset : AssetId} {least : UInt64} :
    takerShare setup asset least (s.moved next steps) =
      (takerShare setup asset least s).map (State.moved next steps) := by
  unfold takerShare
  simp only
  split
  · rfl
  · exact bind_eq_map fun _ => bind_eq_map fun _ => rfl

theorem minRateAdjust_moved {bound : RateBound} :
    minRateAdjust setup bound (s.moved next steps) =
      (minRateAdjust setup bound s).map (State.moved next steps) := by
  apply bind_eq_map
  intro _
  cases setup.query.fixed with
  | input => exact bind_eq_map fun _ => rfl
  | output => exact bind_eq_map fun _ => rfl

theorem baseFeeAdjust_moved {terms : GasAdjust} :
    baseFeeAdjust setup terms (s.moved next steps) =
      (baseFeeAdjust setup terms s).map (State.moved next steps) := by
  apply bind_eq_map
  intro _
  by_cases hfee : setup.environment.baseFee ≤ terms.baseFee
  · simp only [hfee, if_true]
    rfl
  · simp only [hfee, if_false]
    cases setup.query.fixed with
    | input => exact bind_eq_map fun _ => rfl
    | output =>
        by_cases hzero : s.registers.amountOut = 0
        · simp only [State.moved, State.resumed, hzero, if_true]
          rfl
        · simp only [State.moved, State.resumed, hzero, if_false]
          exact bind_eq_map fun _ => bind_eq_map fun _ => bind_eq_map fun _ =>
            bind_eq_map fun _ => rfl

theorem execute_moved {offset : Nat} {i : Instruction} (hi : i.isStraight = true) :
    execute setup offset i (s.moved next steps) =
      (execute setup offset i s).map (State.moved next steps) := by
  cases hbalances : i.setsBalances with
  | true =>
      show execute (setup.reasked setup.query setup.external) offset i _ = _
      exact (keepsBalances_moved next steps).execute hbalances
  | false =>
      cases i with
      | jump destination => cases hi
      | jumpIfAsset leg asset destination => cases hi
      | deadline last => exact bind_eq_map fun _ => rfl
      | takerBalance asset least => exact bind_eq_map fun _ => rfl
      | takerShare asset least => exact takerShare_moved
      | salt bytes => rfl
      | dynamicBalances balances =>
          exact bind_eq_map fun _ => bind_eq_map fun _ => bind_eq_map fun _ => rfl
      | solve => exact bind_eq_map fun _ => bind_eq_map fun _ => rfl
      | decay period =>
          exact bind_eq_map fun _ => bind_eq_map fun _ => bind_eq_map fun _ =>
            bind_eq_map fun _ => bind_eq_map fun _ => rfl
      | twap terms =>
          exact bind_eq_map fun _ => bind_eq_map fun _ => bind_eq_map fun _ =>
            bind_eq_map fun _ => bind_eq_map fun _ => bind_eq_map fun _ => rfl
      | flatFee leg rate => exact openFee_resumed
      | progressiveFee leg terms => exact progressiveFee_resumed
      | protocolFee leg rate recipient => exact protocolFee_moved
      | minRateAdjust bound => exact minRateAdjust_moved
      | minRateRequire bound => exact bind_eq_map fun _ => bind_eq_map fun _ => rfl
      | baseFeeAdjust terms => exact baseFeeAdjust_moved
      | invalidateBit bit =>
          exact bind_eq_map fun _ => congrArg Except.ok (write_moved setup.query.mode _)
      | fillCap leg cap => rfl
      | extruction logic input => cases hi
      | _ => cases hbalances

/-!
# Settlements at another place
-/

theorem settleFee_moved {op : Opcode} {leg : Leg} {rate : UInt64} {carried : Option UInt64}
    {recipient : Option Address} :
    settleFee setup op leg rate carried recipient (s.moved next steps) =
      (settleFee setup op leg rate carried recipient s).map (State.moved next steps) := by
  apply bind_eq_map
  rintro ⟨fee, amount⟩
  cases recipient with
  | none => rfl
  | some recipient =>
      by_cases hzero : fee = 0
      · simp only [hzero, if_true]
        rfl
      · simp only [hzero, if_false]
        rfl

theorem settle_moved {work : Settlement} :
    settle setup work (s.moved next steps) = (settle setup work s).map (State.moved next steps) := by
  cases work with
  | balances balanceIn balanceOut =>
      exact bind_eq_map fun _ => bind_eq_map fun _ => congrArg Except.ok (write_moved _ _)
  | decay period =>
      exact bind_eq_map fun _ => bind_eq_map fun _ => congrArg Except.ok (write_moved _ _)
  | sale offset terms prior =>
      exact bind_eq_map fun _ => bind_eq_map fun _ => congrArg Except.ok (write_moved _ _)
  | fee op leg rate carried recipient => exact settleFee_moved
  | fillCap leg cap => exact bind_eq_map fun _ => congrArg Except.ok (write_moved _ _)

theorem settleAll_moved (works : List Settlement) (s : State) :
    settleAll setup works (s.moved next steps) =
      (settleAll setup works s).map (State.moved next steps) := by
  induction works generalizing s with
  | nil => rfl
  | cons work rest ih =>
      unfold settleAll
      rw [settle_moved]
      exact map_bind_eq_map fun s _ => ih s

end Places

/-!
# Runs side by side
-/

/-- Both runs fail alike, or both get through, to states that are related. -/
inductive Together (R : State → State → Prop) : Run State → Run State → Prop where
  | fail (e : RunError) : Together R (.error e) (.error e)
  | go {s s' : State} (h : R s s') : Together R (.ok s) (.ok s')

namespace Together

variable {R Q : State → State → Prop} {x x' : Run State}

theorem outcomes (h : Together R x x') :
    (∃ e, x = .error e ∧ x' = .error e) ∨ ∃ s s', x = .ok s ∧ x' = .ok s' ∧ R s s' := by
  cases h with
  | fail e => exact Or.inl ⟨e, rfl, rfl⟩
  | go hs => exact Or.inr ⟨_, _, rfl, rfl, hs⟩

theorem bind {f f' : State → Run State} (h : Together R x x')
    (hrest : ∀ s s', x = .ok s → x' = .ok s' → R s s' → Together Q (f s) (f' s')) :
    Together Q (x >>= f) (x' >>= f') := by
  cases h with
  | fail e => exact .fail e
  | go hs => exact hrest _ _ rfl rfl hs

theorem map {f f' : State → State} (h : Together R x x')
    (hrel : ∀ s s', R s s' → Q (f s) (f' s')) : Together Q (x.map f) (x'.map f') := by
  cases h with
  | fail e => exact .fail e
  | go hs => exact .go (hrel _ _ hs)

theorem mono (h : Together R x x')
    (hrel : ∀ s s', x = .ok s → x' = .ok s' → R s s' → Q s s') : Together Q x x' := by
  cases h with
  | fail e => exact .fail e
  | go hs => exact .go (hrel _ _ rfl rfl hs)

end Together

/-- The same state nowhere in particular. -/
def State.unplaced (s : State) : State :=
  s.moved (fun _ => 0) fun _ => 0

/-- States that differ in their places alone. -/
def Elsewhere (s s' : State) : Prop :=
  s'.unplaced = s.unplaced

theorem Elsewhere.solved_eq {s s' : State} (h : Elsewhere s s') : s'.solved = s.solved := by
  have hsolved : s'.unplaced.solved = s.unplaced.solved := congrArg State.solved h
  exact hsolved

theorem Elsewhere.journal_eq {s s' : State} (h : Elsewhere s s') : s'.journal = s.journal := by
  have hjournal : s'.unplaced.journal = s.unplaced.journal := congrArg State.journal h
  exact hjournal

/-- What does not look at the place of a state does the same elsewhere. -/
theorem Elsewhere.together {f : State → Run State} {s s' : State} (h : Elsewhere s s')
    (hf : ∀ s next steps, f (s.moved next steps) = (f s).map (State.moved next steps)) :
    Together Elsewhere (f s) (f s') := by
  have hsame : (f s').map State.unplaced = (f s).map State.unplaced := by
    have hplain : f s'.unplaced = f s.unplaced := congrArg f h
    unfold State.unplaced at hplain
    rw [hf, hf] at hplain
    exact hplain
  cases hs : f s with
  | error e =>
      cases hs' : f s' with
      | error e' =>
          rw [hs, hs'] at hsame
          cases hsame
          exact .fail e
      | ok t' =>
          rw [hs, hs'] at hsame
          cases hsame
  | ok t =>
      cases hs' : f s' with
      | error e' =>
          rw [hs, hs'] at hsame
          cases hsame
      | ok t' =>
          rw [hs, hs'] at hsame
          exact .go (Except.ok.inj hsame)

end Machine
end SwapPricing
