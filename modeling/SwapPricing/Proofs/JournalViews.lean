import SwapPricing.Proofs.Reshaping
import SwapPricing.Proofs.Runs

/-!
# Runs over another journal

A run looks at order state only through the reads of its instructions and
settlements, and changes it only by writing entries.  Where another journal
answers those reads alike, the run over it does the same, whatever else that
journal holds and whatever becomes of the writes.
-/

namespace SwapPricing

/-- The same writes over another store. -/
def Order.Journal.rebase (base : Order.Store) (j : Order.Journal) : Order.Journal :=
  { j with base := base }

namespace Machine

/-- The same trade at the same host, in another mode and with other external
logic. -/
def Setup.inMode (setup : Setup) (mode : ExecutionMode) (external : ExternalLogic) : Setup where
  program := setup.program
  query := { setup.query with mode := mode }
  environment := setup.environment
  external := external

/-- The same state with another journal. -/
def State.withJournal (view : Order.Journal → Order.Journal) (s : State) : State :=
  { s with journal := view s.journal }

section Views

variable {view : Order.Journal → Order.Journal} {mode : ExecutionMode} {external : ExternalLogic}
  {setup : Setup} {s : State}

/-!
# Instructions without order state
-/

theorem jump_withJournal {program : Program} {offset : UInt16} :
    (s.withJournal view).jump program offset =
      (s.jump program offset).map (State.withJournal view) := by
  unfold State.jump
  cases program.indexOf offset.toNat <;> rfl

theorem jumpIfAsset_withJournal {leg : Leg} {asset : AssetId} {destination : UInt16} :
    jumpIfAsset (setup.inMode mode external) leg asset destination (s.withJournal view) =
      (jumpIfAsset setup leg asset destination s).map (State.withJournal view) := by
  unfold jumpIfAsset
  show (if setup.query.asset leg = asset then _ else _) = _
  split
  · exact jump_withJournal
  · rfl

theorem takerShare_withJournal {asset : AssetId} {least : UInt64} :
    takerShare (setup.inMode mode external) asset least (s.withJournal view) =
      (takerShare setup asset least s).map (State.withJournal view) := by
  unfold takerShare
  show (if setup.environment.totalSupply asset = 0 then _ else _) =
    Except.map _ (if setup.environment.totalSupply asset = 0 then _ else _)
  split
  · rfl
  · exact bind_eq_map fun _ => bind_eq_map fun _ => rfl

theorem openFee_withJournal {op : Opcode} {leg : Leg} {rate : UInt64}
    {recipient : Option Address} :
    openFee (setup.inMode mode external) op leg rate recipient (s.withJournal view) =
      (openFee setup op leg rate recipient s).map (State.withJournal view) := by
  apply bind_eq_map
  intro _
  simp only [Setup.inMode]
  cases leg with
  | input =>
      cases setup.query.fixed with
      | input => exact bind_eq_map fun _ => bind_eq_map fun _ => rfl
      | output => rfl
  | output =>
      cases setup.query.fixed with
      | input => rfl
      | output => exact bind_eq_map fun _ => rfl

theorem progressiveFee_withJournal {leg : Leg} {terms : ProgressiveFee} :
    progressiveFee (setup.inMode mode external) leg terms (s.withJournal view) =
      (progressiveFee setup leg terms s).map (State.withJournal view) :=
  bind_eq_map fun _ => openFee_withJournal

theorem protocolFee_withJournal {leg : Leg} {rate : UInt16} {recipient : Address} :
    protocolFee (setup.inMode mode external) leg rate recipient (s.withJournal view) =
      (protocolFee setup leg rate recipient s).map (State.withJournal view) := by
  cases leg with
  | input => exact bind_eq_map fun _ => rfl
  | output => exact openFee_withJournal

theorem openAll_withJournal (fees : List PendingFee) (s : State) :
    (fees.foldlM (fun s fee => openFee (setup.inMode mode external) (.protocolFee .input) .input
        fee.rate.toUInt64 (some fee.recipient) s) (s.withJournal view) : Run State) =
      (fees.foldlM (fun s fee => openFee setup (.protocolFee .input) .input fee.rate.toUInt64
        (some fee.recipient) s) s).map (State.withJournal view) := by
  induction fees generalizing s with
  | nil => rfl
  | cons fee rest ih =>
      rw [List.foldlM_cons, List.foldlM_cons, openFee_withJournal]
      exact map_bind_eq_map fun s _ => ih s

theorem release_withJournal :
    release (setup.inMode mode external) (s.withJournal view) =
      (release setup s).map (State.withJournal view) :=
  openAll_withJournal s.pending { s with pending := [] }

theorem enter_withJournal {r : Record} :
    enter (setup.inMode mode external) r (s.withJournal view) =
      (enter setup r s).map (State.withJournal view) := by
  unfold enter releaseBefore
  split
  · rfl
  · rw [← release_withJournal]
    rfl

theorem solve_withJournal :
    solve (setup.inMode mode external) (s.withJournal view) =
      (solve setup s).map (State.withJournal view) :=
  bind_eq_map fun _ => bind_eq_map fun _ => rfl

theorem minRateAdjust_withJournal {bound : RateBound} :
    minRateAdjust (setup.inMode mode external) bound (s.withJournal view) =
      (minRateAdjust setup bound s).map (State.withJournal view) := by
  apply bind_eq_map
  intro _
  simp only [Setup.inMode]
  cases setup.query.fixed with
  | input => exact bind_eq_map fun _ => rfl
  | output => exact bind_eq_map fun _ => rfl

theorem minRateRequire_withJournal {bound : RateBound} :
    minRateRequire (setup.inMode mode external) bound (s.withJournal view) =
      (minRateRequire setup bound s).map (State.withJournal view) :=
  bind_eq_map fun _ => bind_eq_map fun _ => rfl

theorem baseFeeAdjust_withJournal {terms : GasAdjust} :
    baseFeeAdjust (setup.inMode mode external) terms (s.withJournal view) =
      (baseFeeAdjust setup terms s).map (State.withJournal view) := by
  apply bind_eq_map
  intro _
  simp only [Setup.inMode]
  by_cases hfee : setup.environment.baseFee ≤ terms.baseFee
  · simp only [hfee, if_true]
    rfl
  · simp only [hfee, if_false]
    cases setup.query.fixed with
    | input => exact bind_eq_map fun _ => rfl
    | output =>
        by_cases hzero : s.registers.amountOut = 0
        · simp only [State.withJournal, hzero, if_true]
          rfl
        · simp only [State.withJournal, hzero, if_false]
          exact bind_eq_map fun _ => bind_eq_map fun _ => bind_eq_map fun _ =>
            bind_eq_map fun _ => rfl

theorem keepsBalances_withJournal (view : Order.Journal → Order.Journal) :
    KeepsBalances (State.withJournal view) :=
  ⟨fun _ => rfl, fun _ => rfl, fun _ => rfl, fun _ _ _ => rfl⟩

/-!
# Instructions with order state
-/

/-- Both journals answer what an instruction reads of the state of `program`. -/
def ReadsAlike (program : ProgramId) (j j' : Order.Journal) : Instruction → Prop
  | .dynamicBalances _ => ∀ asset, j'.balance? program asset = j.balance? program asset
  | .decay _ => ∀ side, j'.offset? program side = j.offset? program side
  | .twap _ => ∀ offset, j'.sale? program offset = j.sale? program offset
  | .invalidateBit bit => j'.isBitSet program bit = j.isBitSet program bit
  | _ => True

/-- A change that only writes, whatever store the journal lies over. -/
def Writes (change : Order.Journal → Order.Journal) : Prop :=
  ∀ base j, change (j.rebase base) = (change j).rebase base

/-- A write in the mode `mode'`, seen through `view`, is the view of that write
in the mode `mode`. -/
def Transmits (view : Order.Journal → Order.Journal) (mode mode' : ExecutionMode) : Prop :=
  ∀ (s : State) (change : Order.Journal → Order.Journal), Writes change →
    (s.withJournal view).write mode' change = (s.write mode change).withJournal view

theorem dynamicBalances_withJournal {balances : Entries}
    (h : ∀ asset, (view s.journal).balance? setup.program.id asset =
      s.journal.balance? setup.program.id asset) :
    dynamicBalances (setup.inMode mode external) balances (s.withJournal view) =
      (dynamicBalances setup balances s).map (State.withJournal view) := by
  have hread : ∀ asset, (s.withJournal view).journal.balance?
      (setup.inMode mode external).program.id asset =
        s.journal.balance? setup.program.id asset := h
  unfold dynamicBalances
  simp only [hread]
  exact bind_eq_map fun _ => bind_eq_map fun _ => bind_eq_map fun _ => rfl

/-- Only the offset itself counts for what is left of it. -/
theorem offsetNow_withJournal {period : UInt32} {side : Side}
    (h : (view s.journal).offset? setup.program.id side =
      s.journal.offset? setup.program.id side) :
    offsetNow (setup.inMode mode external) period side (s.withJournal view) =
      offsetNow setup period side s := by
  have hread : (s.withJournal view).journal.offset?
      (setup.inMode mode external).program.id side =
        s.journal.offset? setup.program.id side := h
  unfold offsetNow
  rw [hread]
  rfl

theorem decay_withJournal {period : UInt32}
    (h : ∀ side, (view s.journal).offset? setup.program.id side =
      s.journal.offset? setup.program.id side) :
    decay (setup.inMode mode external) period (s.withJournal view) =
      (decay setup period s).map (State.withJournal view) := by
  unfold decay
  rw [offsetNow_withJournal (h _), offsetNow_withJournal (h _)]
  exact bind_eq_map fun _ => bind_eq_map fun _ => bind_eq_map fun _ => bind_eq_map fun _ =>
    bind_eq_map fun _ => rfl

theorem sale_withJournal {offset : UInt64} {terms : Sale}
    (h : ∀ offset, (view s.journal).sale? setup.program.id offset =
      s.journal.sale? setup.program.id offset) :
    sale (setup.inMode mode external) offset terms (s.withJournal view) =
      (sale setup offset terms s).map (State.withJournal view) := by
  have hread : ∀ offset, (s.withJournal view).journal.sale?
      (setup.inMode mode external).program.id offset =
        s.journal.sale? setup.program.id offset := h
  unfold sale
  simp only [hread]
  exact bind_eq_map fun _ => bind_eq_map fun _ => bind_eq_map fun _ => bind_eq_map fun _ =>
    bind_eq_map fun _ => bind_eq_map fun _ => rfl

theorem invalidateBit_withJournal {bit : UInt32} (hview : Transmits view setup.query.mode mode)
    (h : (view s.journal).isBitSet setup.program.id bit =
      s.journal.isBitSet setup.program.id bit) :
    invalidateBit (setup.inMode mode external) bit (s.withJournal view) =
      (invalidateBit setup bit s).map (State.withJournal view) := by
  have hread : (s.withJournal view).journal.isBitSet
      (setup.inMode mode external).program.id bit =
        s.journal.isBitSet setup.program.id bit := h
  unfold invalidateBit
  simp only [hread]
  apply bind_eq_map
  intro _
  exact congrArg Except.ok (hview s _ fun _ _ => rfl)

theorem execute_withJournal {offset : Nat} {i : Instruction}
    (hview : Transmits view setup.query.mode mode) (hexternal : i.opcode ≠ .extruction)
    (h : ReadsAlike setup.program.id s.journal (view s.journal) i) :
    execute (setup.inMode mode external) offset i (s.withJournal view) =
      (execute setup offset i s).map (State.withJournal view) := by
  cases hi : i.setsBalances with
  | true =>
      have hmode : setup.inMode mode external =
          setup.reasked { setup.query with mode := mode } external := rfl
      rw [hmode]
      exact (keepsBalances_withJournal view).execute hi
  | false =>
      cases i with
      | jump destination => exact jump_withJournal
      | jumpIfAsset leg asset destination => exact jumpIfAsset_withJournal
      | deadline last => exact bind_eq_map fun _ => rfl
      | takerBalance asset least => exact bind_eq_map fun _ => rfl
      | takerShare asset least => exact takerShare_withJournal
      | salt bytes => rfl
      | dynamicBalances balances => exact dynamicBalances_withJournal h
      | solve => exact solve_withJournal
      | decay period => exact decay_withJournal h
      | twap terms => exact sale_withJournal h
      | flatFee leg rate => exact openFee_withJournal
      | progressiveFee leg terms => exact progressiveFee_withJournal
      | protocolFee leg rate recipient => exact protocolFee_withJournal
      | minRateAdjust bound => exact minRateAdjust_withJournal
      | minRateRequire bound => exact minRateRequire_withJournal
      | baseFeeAdjust terms => exact baseFeeAdjust_withJournal
      | invalidateBit bit => exact invalidateBit_withJournal hview h
      | fillCap leg cap => rfl
      | extruction logic input => exact absurd rfl hexternal
      | _ => cases hi

/-!
# Settlements
-/

/-- Both journals answer what a settlement reads of the order state. -/
def SettlesAlike (setup : Setup) (j j' : Order.Journal) : Settlement → Prop
  | .decay _ => ∀ side, j'.offset? setup.program.id side = j.offset? setup.program.id side
  | .fillCap leg _ =>
      j'.filled setup.program.id ⟨setup.query.asset leg, leg⟩ =
        j.filled setup.program.id ⟨setup.query.asset leg, leg⟩
  | _ => True

theorem settleBalances_withJournal {balanceIn balanceOut : UInt64}
    (hview : Transmits view setup.query.mode mode) :
    settleBalances (setup.inMode mode external) balanceIn balanceOut (s.withJournal view) =
      (settleBalances setup balanceIn balanceOut s).map (State.withJournal view) :=
  bind_eq_map fun _ => bind_eq_map fun _ => congrArg Except.ok (hview s _ fun _ _ => rfl)

theorem settleSale_withJournal {offset : UInt64} {terms : Sale} {prior : SaleState}
    (hview : Transmits view setup.query.mode mode) :
    settleSale (setup.inMode mode external) offset terms prior (s.withJournal view) =
      (settleSale setup offset terms prior s).map (State.withJournal view) :=
  bind_eq_map fun _ => bind_eq_map fun _ => congrArg Except.ok (hview s _ fun _ _ => rfl)

theorem settleFee_withJournal {op : Opcode} {leg : Leg} {rate : UInt64} {carried : Option UInt64}
    {recipient : Option Address} :
    settleFee (setup.inMode mode external) op leg rate carried recipient (s.withJournal view) =
      (settleFee setup op leg rate carried recipient s).map (State.withJournal view) := by
  apply bind_eq_map
  rintro ⟨fee, amount⟩
  cases recipient with
  | none => rfl
  | some recipient =>
      by_cases hzero : fee = 0
      · simp only [hzero, if_true]
        rfl
      · simp only [hzero, if_false]
        rfl

theorem settleDecay_withJournal {period : UInt32} (hview : Transmits view setup.query.mode mode)
    (h : ∀ side, (view s.journal).offset? setup.program.id side =
      s.journal.offset? setup.program.id side) :
    settleDecay (setup.inMode mode external) period (s.withJournal view) =
      (settleDecay setup period s).map (State.withJournal view) := by
  unfold settleDecay
  simp only [offsetNow_withJournal (h _)]
  exact bind_eq_map fun _ => bind_eq_map fun _ => congrArg Except.ok (hview s _ fun _ _ => rfl)

theorem settleFillCap_withJournal {leg : Leg} {cap : UInt64}
    (hview : Transmits view setup.query.mode mode)
    (h : (view s.journal).filled setup.program.id ⟨setup.query.asset leg, leg⟩ =
      s.journal.filled setup.program.id ⟨setup.query.asset leg, leg⟩) :
    settleFillCap (setup.inMode mode external) leg cap (s.withJournal view) =
      (settleFillCap setup leg cap s).map (State.withJournal view) := by
  have hread : (s.withJournal view).journal.filled (setup.inMode mode external).program.id
      ⟨(setup.inMode mode external).query.asset leg, leg⟩ =
        s.journal.filled setup.program.id ⟨setup.query.asset leg, leg⟩ := by
    cases leg <;> exact h
  unfold settleFillCap
  simp only [hread]
  apply bind_eq_map
  intro _
  have hwrites : Writes fun j => j.setFilled setup.program.id ⟨setup.query.asset leg, leg⟩
    (s.journal.filled setup.program.id ⟨setup.query.asset leg, leg⟩ + s.registers.amount leg) :=
      fun _ _ => rfl
  cases leg <;> exact congrArg Except.ok (hview s _ hwrites)

theorem settle_withJournal {work : Settlement} (hview : Transmits view setup.query.mode mode)
    (h : SettlesAlike setup s.journal (view s.journal) work) :
    settle (setup.inMode mode external) work (s.withJournal view) =
      (settle setup work s).map (State.withJournal view) := by
  cases work with
  | balances balanceIn balanceOut => exact settleBalances_withJournal hview
  | decay period => exact settleDecay_withJournal hview h
  | sale offset terms prior => exact settleSale_withJournal hview
  | fee op leg rate carried recipient => exact settleFee_withJournal
  | fillCap leg cap => exact settleFillCap_withJournal hview h

/-!
# Runs

A condition that every step keeps, and under which every step does the same over
the other journal, makes whole runs do the same.
-/

/-- Entering a record writes nothing. -/
theorem journal_enter {r : Record} {s' : State} (h : enter setup r s = .ok s') :
    s'.journal = s.journal := by
  have hsteady : Steady setup fun t => t.journal = s.journal := by
    refine ⟨⟨fun ht => ht, ?_⟩, fun _ _ ht => ht⟩
    intro op leg rate recipient t t' _ hopening ht
    cases hopening <;> exact ht
  exact hsteady.enter h rfl

theorem step_withJournal {r : Record}
    (h : ∀ t, enter setup r s = .ok t →
      execute (setup.inMode mode external) r.offset r.instruction (t.withJournal view) =
        (execute setup r.offset r.instruction t).map (State.withJournal view)) :
    step (setup.inMode mode external) r (s.withJournal view) =
      (step setup r s).map (State.withJournal view) := by
  unfold step
  rw [enter_withJournal]
  exact map_bind_eq_map h

theorem runSteps_withJournal {limit : UInt32} (Good : Nat → State → Prop)
    (hstep : ∀ left s r, setup.program.records[s.next]? = some r → Good (left + 1) s →
      step (setup.inMode mode external) r (s.withJournal view) =
        (step setup r s).map (State.withJournal view))
    (hkeep : ∀ left s r s', setup.program.records[s.next]? = some r → step setup r s = .ok s' →
      Good (left + 1) s → Good left s')
    {left : Nat} (hs : Good left s) :
    runSteps (setup.inMode mode external) limit left (s.withJournal view) =
      (runSteps setup limit left s).map (State.withJournal view) := by
  induction left generalizing s with
  | zero =>
      have hnext : (setup.inMode mode external).program.records[(s.withJournal view).next]? =
        setup.program.records[s.next]? := rfl
      unfold runSteps
      rw [hnext]
      cases setup.program.records[s.next]? with
      | none => rfl
      | some r => rfl
  | succ left ih =>
      have hnext : (setup.inMode mode external).program.records[(s.withJournal view).next]? =
        setup.program.records[s.next]? := rfl
      unfold runSteps
      rw [hnext]
      cases hr : setup.program.records[s.next]? with
      | none => rfl
      | some r =>
          simp only [hstep left s r hr hs]
          apply map_bind_eq_map
          intro s' hs'
          exact ih (hkeep left s r s' hr hs' hs)

theorem finishSteps_withJournal :
    finishSteps (setup.inMode mode external) (s.withJournal view) =
      (finishSteps setup s).map (State.withJournal view) := by
  unfold finishSteps
  rw [release_withJournal]
  apply map_bind_eq_map
  intro t _
  have hsolved : (t.withJournal view).solved = t.solved := rfl
  rw [hsolved]
  cases t.solved with
  | false => rfl
  | true => rfl

theorem settleAll_withJournal (Good : List Settlement → State → Prop)
    (hsettle : ∀ work rest s, Good (work :: rest) s →
      settle (setup.inMode mode external) work (s.withJournal view) =
        (settle setup work s).map (State.withJournal view))
    (hkeep : ∀ work rest s s', Settled setup work s s' → Good (work :: rest) s → Good rest s')
    {works : List Settlement} (hs : Good works s) :
    settleAll (setup.inMode mode external) works (s.withJournal view) =
      (settleAll setup works s).map (State.withJournal view) := by
  induction works generalizing s with
  | nil => rfl
  | cons work rest ih =>
      unfold settleAll
      rw [hsettle work rest s hs]
      apply map_bind_eq_map
      intro s' hs'
      exact ih (hkeep work rest s s' (settle_eq_ok hs') hs)

end Views
end Machine
end SwapPricing
