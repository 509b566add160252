import Mathlib
import SwapPricing.Proofs.Renaming
import SwapPricing.Proofs.Runs

/-!
# Mirrored trades

Pairs of arguments are given for the lower and the higher asset, and valuations
are those of the lower one.  Other names of the assets that change which of the
two sorts first are made up for by exchanging the parts of every pair and by
taking every valuation from one; the run then does the same under the new names.
-/

namespace SwapPricing

open Arithmetic (wadWord difference)

/-!
# Mirror images
-/

-- Kept closed: comparing two terms by computing with words does not end.
/-- The valuation of the higher asset where `valuation` is that of the lower
one. -/
@[irreducible]
def opposite (valuation : UInt64) : UInt64 :=
  wadWord - valuation

def Entries.renamed (σ : Equiv.Perm AssetId) (entries : Entries) : Entries :=
  entries.map fun entry => (σ entry.1, entry.2)

def RateBound.mirrored (bound : RateBound) : RateBound :=
  ⟨bound.higher, bound.lower⟩

namespace Operation

/-- The instruction for the renamed assets, the other one of which is lower. -/
def mirrored (σ : Equiv.Perm AssetId) : Instruction → Instruction
  | jumpIfAsset leg asset destination => jumpIfAsset leg (σ asset) destination
  | takerBalance asset least => takerBalance (σ asset) least
  | takerShare asset least => takerShare (σ asset) least
  | staticBalances balances => staticBalances (balances.renamed σ)
  | dynamicBalances balances => dynamicBalances (balances.renamed σ)
  | growLiquidity deltas => growLiquidity (deltas.renamed σ)
  | growPriceRange lower higher => growPriceRange higher lower
  | minRateAdjust bound => minRateAdjust bound.mirrored
  | minRateRequire bound => minRateRequire bound.mirrored
  | valuationStatic valuation => valuationStatic (opposite valuation)
  | i => i

theorem opcode_mirrored (σ : Equiv.Perm AssetId) (i : Instruction) :
    (i.mirrored σ).opcode = i.opcode := by
  cases i <;> simp only [mirrored, opcode]

end Operation

def Record.mirrored (σ : Equiv.Perm AssetId) (r : Record) : Record :=
  ⟨r.offset, r.instruction.mirrored σ⟩

/-- The program of the mirror images, in its own encoding. -/
def Program.mirrored (σ : Equiv.Perm AssetId) (bytes : Array UInt8) (p : Program) : Program where
  id := p.id
  bytes := bytes
  records := p.records.map (Record.mirrored σ)

def Query.renamed (σ : Equiv.Perm AssetId) (q : Query) : Query :=
  { q with assetIn := σ q.assetIn, assetOut := σ q.assetOut }

def OracleReading.mirrored (reading : OracleReading) : OracleReading :=
  ⟨opposite reading.value, reading.updatedAt⟩

theorem OracleReading.value_mirrored (reading : OracleReading) :
    reading.mirrored.value = opposite reading.value := by
  rw [mirrored]

theorem OracleReading.updatedAt_mirrored (reading : OracleReading) :
    reading.mirrored.updatedAt = reading.updatedAt := by
  rw [mirrored]

/-- The host at which every asset stands under its new name. -/
def Environment.mirrored (σ : Equiv.Perm AssetId) (e : Environment) : Environment where
  now := e.now
  baseFee := e.baseFee
  oracle? oracle := (e.oracle? oracle).map OracleReading.mirrored
  balanceOf asset := e.balanceOf (σ.symm asset)
  totalSupply asset := e.totalSupply (σ.symm asset)
  reserve? program asset := e.reserve? program (σ.symm asset)
  quoteExternal := e.quoteExternal

def GuardFailure.mirrored : GuardFailure → GuardFailure
  | invalidValuation valuation => invalidValuation (opposite valuation)
  | failure => failure

def RunError.mirrored : RunError → RunError
  | guard op failure => guard op failure.mirrored
  | e => e

namespace Machine

def ProtocolFee.renamed (σ : Equiv.Perm AssetId) (fee : ProtocolFee) : ProtocolFee :=
  { fee with asset := σ fee.asset }

def Setup.mirrored (σ : Equiv.Perm AssetId) (bytes : Array UInt8) (external : ExternalLogic)
    (setup : Setup) : Setup where
  program := setup.program.mirrored σ bytes
  query := setup.query.renamed σ
  environment := setup.environment.mirrored σ
  external := external

def State.mirrored (σ : Equiv.Perm AssetId) (s : State) : State :=
  { s with
    journal := s.journal.renamed σ
    protocolFees := s.protocolFees.map (ProtocolFee.renamed σ) }

def Outcome.mirrored (σ : Equiv.Perm AssetId) (o : Outcome) : Outcome :=
  { o with protocolFees := o.protocolFees.map (ProtocolFee.renamed σ) }

end Machine

/-!
# Noted hosts
-/

def holdingKeys (σ : Equiv.Perm AssetId) : Equiv.Perm Holding where
  toFun key := ⟨σ key.asset, key.holder⟩
  invFun key := ⟨σ.symm key.asset, key.holder⟩
  left_inv key := by
    rcases key with ⟨asset, holder⟩
    simp only [Equiv.symm_apply_apply]
  right_inv key := by
    rcases key with ⟨asset, holder⟩
    simp only [Equiv.apply_symm_apply]

namespace Observations

/-- The notes with every asset under its new name and every valuation that of
the other asset. -/
def mirrored (σ : Equiv.Perm AssetId) (o : Observations) : Observations where
  now := o.now
  baseFee := o.baseFee
  oracles := o.oracles.mapValues OracleReading.mirrored
  balances := o.balances.rekey (holdingKeys σ)
  supply := o.supply.rekey σ
  reserves := o.reserves.rekey σ

theorem environment_mirrored (σ : Equiv.Perm AssetId) (o : Observations) :
    (o.mirrored σ).environment = o.environment.mirrored σ := by
  have horacles : (o.oracles.mapValues OracleReading.mirrored).find? =
      fun oracle => (o.oracles.find? oracle).map OracleReading.mirrored :=
    funext (Table.find?_mapValues _ _)
  have hreserves : (o.reserves.rekey σ).find? = fun asset => o.reserves.find? (σ.symm asset) :=
    funext (Table.find?_rekey_eq σ _)
  unfold environment mirrored Environment.mirrored
  simp only [horacles, hreserves, Table.find?_rekey_eq]
  rfl

end Observations

/-!
# Trades that turn around
-/

namespace Query

/-- Under its new name, the other one of the two assets is the lower one. -/
def TurnedBy (σ : Equiv.Perm AssetId) (q : Query) : Prop :=
  (q.renamed σ).inputIsLower = !q.inputIsLower

variable {σ : Equiv.Perm AssetId} {q : Query}

theorem asset_renamed (leg : Leg) : (q.renamed σ).asset leg = σ (q.asset leg) := by
  cases leg <;> rfl

theorem orient_renamed {α : Type} (hq : q.TurnedBy σ) (lower higher : α) :
    (q.renamed σ).orient higher lower = q.orient lower higher := by
  unfold orient
  rw [hq]
  cases q.inputIsLower <;> rfl

theorem validate_renamed : (q.renamed σ).validate = q.validate := by
  have hsame : (q.renamed σ).assetIn = (q.renamed σ).assetOut ↔ q.assetIn = q.assetOut :=
    σ.injective.eq_iff
  unfold validate
  simp only [hsame]
  rfl

end Query

/-!
# Valuations
-/

theorem opposite_opposite (valuation : UInt64) : opposite (opposite valuation) = valuation := by
  unfold opposite
  exact sub_sub_cancel wadWord valuation

theorem toNat_opposite (valuation : UInt64) :
    (opposite valuation).toNat = (2 ^ 64 - valuation.toNat + wadWord.toNat) % 2 ^ 64 := by
  unfold opposite
  exact UInt64.toNat_sub wadWord valuation

theorem opposite_valid_iff {valuation : UInt64} :
    opposite valuation ≠ 0 ∧ opposite valuation < wadWord ↔
      valuation ≠ 0 ∧ valuation < wadWord := by
  have hwad : wadWord.toNat = 1000000000000000000 := rfl
  have hlt := valuation.toNat_lt
  simp only [UInt64.lt_iff_toNat_lt, ne_eq, ← UInt64.toNat_inj, UInt64.toNat_zero, toNat_opposite,
    hwad]
  omega

theorem difference_wadWord {valuation : UInt64} (h : valuation < wadWord) :
    difference wadWord valuation = .ok (opposite valuation) := by
  unfold opposite
  exact if_pos (UInt64.le_of_lt h)

namespace Machine

/-!
# Mirrored parts of a run
-/

/-- A part of a run as its mirror image has it. -/
def reflect {α β : Type} (k : α → β) : Run α → Run β
  | .ok a => .ok (k a)
  | .error e => .error e.mirrored

/-- A failure of this part names no valuation. -/
def Unaltered {α : Type} (x : Run α) : Prop :=
  ∀ e, x = .error e → e.mirrored = e

section Parts

variable {α β γ δ : Type}

theorem reflect_bind_eq {x : Run α} {k : α → β} {f : α → Run γ} {f' : β → Run δ} {l : γ → δ}
    (h : ∀ a, x = .ok a → f' (k a) = reflect l (f a)) :
    (reflect k x >>= f') = reflect l (x >>= f) := by
  cases x with
  | ok a => exact h a rfl
  | error e => rfl

theorem bind_eq_reflect {x : Run α} {f : α → Run γ} {f' : α → Run δ} {l : γ → δ}
    (hx : Unaltered x) (h : ∀ a, f' a = reflect l (f a)) :
    (x >>= f') = reflect l (x >>= f) := by
  cases x with
  | ok a => exact h a
  | error e => exact congrArg Except.error (hx e rfl).symm

theorem unaltered_bind {x : Run α} {f : α → Run β} (hx : Unaltered x)
    (hf : ∀ a, Unaltered (f a)) : Unaltered (x >>= f) := by
  intro e h
  cases x with
  | ok a => exact hf a e h
  | error e' =>
      cases h
      exact hx e rfl

theorem unaltered_calculate {op : Opcode} {x : Except MathError α} :
    Unaltered (calculate op x) := by
  intro e h
  cases x with
  | ok a => cases h
  | error reason =>
      cases h
      rfl

theorem unaltered_demand {op : Opcode} {failure : GuardFailure} {x : Option α}
    (h : failure.mirrored = failure) : Unaltered (demand op failure x) := by
  intro e he
  cases x with
  | some a => cases he
  | none =>
      cases he
      exact congrArg (RunError.guard op) h

theorem demand_map {op : Opcode} {failure : GuardFailure} (h : failure.mirrored = failure)
    (k : α → β) (x : Option α) : demand op failure (x.map k) = reflect k (demand op failure x) := by
  cases x with
  | some a => rfl
  | none => exact congrArg (fun f => Except.error (RunError.guard op f)) h.symm

theorem unaltered_check {op : Opcode} {failure : GuardFailure} {p : Prop} [Decidable p]
    (h : failure.mirrored = failure) : Unaltered (check op failure p) := by
  intro e he
  unfold check at he
  split at he
  · cases he
  · cases he
    exact congrArg (RunError.guard op) h

theorem unaltered_requireUnsolved {s : State} {op : Opcode} :
    Unaltered (s.requireUnsolved op) := by
  intro e he
  unfold State.requireUnsolved at he
  split at he
  · cases he
    rfl
  · cases he

theorem unaltered_requireSolved {s : State} {op : Opcode} :
    Unaltered (s.requireSolved op) := by
  intro e he
  unfold State.requireSolved at he
  split at he
  · cases he
  · cases he
    rfl

end Parts

section Mirrored

variable {σ : Equiv.Perm AssetId} {bytes : Array UInt8} {external : ExternalLogic}
  {setup : Setup} {s : State}

/-!
# Reads
-/

theorem Setup.asset_mirrored (leg : Leg) :
    (setup.mirrored σ bytes external).query.asset leg = σ (setup.query.asset leg) :=
  Query.asset_renamed leg

theorem Setup.orient_mirrored {α : Type} (hq : setup.query.TurnedBy σ) (lower higher : α) :
    (setup.mirrored σ bytes external).query.orient higher lower =
      setup.query.orient lower higher :=
  Query.orient_renamed hq lower higher

theorem balanceOf_mirrored (asset : AssetId) (holder : Address) :
    (setup.mirrored σ bytes external).environment.balanceOf (σ asset) holder =
      setup.environment.balanceOf asset holder :=
  congrArg (setup.environment.balanceOf · holder) (σ.symm_apply_apply asset)

theorem listed?_renamed (entries : Entries) (asset : AssetId) :
    listed? (Entries.renamed σ entries) (σ asset) = listed? entries asset := by
  unfold listed? Entries.renamed
  simp only [List.find?_map, Option.map_map, Function.comp_def, σ.injective.eq_iff]

theorem write_mirrored {mode : ExecutionMode} {change change' : Order.Journal → Order.Journal}
    (h : ∀ j : Order.Journal, (change j).renamed σ = change' (j.renamed σ)) :
    (s.mirrored σ).write mode change' = (s.write mode change).mirrored σ := by
  cases mode with
  | simulate => rfl
  | commit =>
      unfold State.write State.mirrored
      simp only [h]

/-!
# Jumps
-/

/-- A look at the offset of a record sees no mirror. -/
theorem any_mirrored (σ : Equiv.Perm AssetId) (records : Array Record) (k : Nat)
    (seen : Nat → Bool) :
    ((records.map (Record.mirrored σ))[k]?.any fun r => seen r.offset) =
      records[k]?.any fun r => seen r.offset := by
  rw [Array.getElem?_map, Option.any_map]
  rfl

theorem lowerBound_mirrored (records : Array Record) (offset low high : Nat) :
    lowerBound (records.map (Record.mirrored σ)) offset low high =
      lowerBound records offset low high := by
  have hlook := fun k => any_mirrored σ records k (· < offset)
  fun_induction lowerBound records offset low high with
  | case1 low high hlt middle hbefore ih =>
      rw [lowerBound, if_pos hlt]
      simp only [hlook]
      rw [if_pos hbefore]
      exact ih
  | case2 low high hlt middle hbefore ih =>
      rw [lowerBound, if_pos hlt]
      simp only [hlook]
      rw [if_neg hbefore]
      exact ih
  | case3 low high hlt => rw [lowerBound, if_neg hlt]

theorem indexOf_mirrored {p : Program} (hbytes : bytes.size = p.bytes.size) (offset : Nat) :
    (p.mirrored σ bytes).indexOf offset = p.indexOf offset := by
  have hsize : (p.mirrored σ bytes).size = p.size := Array.size_map
  have hlook := fun k => any_mirrored σ p.records k (· = offset)
  unfold Program.indexOf
  rw [hsize]
  unfold Program.mirrored
  simp only [hbytes, lowerBound_mirrored, hlook]

theorem jump_mirrored {p : Program} (hbytes : bytes.size = p.bytes.size) {offset : UInt16} :
    (s.mirrored σ).jump (p.mirrored σ bytes) offset =
      reflect (State.mirrored σ) (s.jump p offset) := by
  unfold State.jump
  rw [indexOf_mirrored hbytes]
  cases p.indexOf offset.toNat <;> rfl

theorem jumpIfAsset_mirrored (hbytes : bytes.size = setup.program.bytes.size) {leg : Leg}
    {asset : AssetId} {destination : UInt16} :
    jumpIfAsset (setup.mirrored σ bytes external) leg (σ asset) destination (s.mirrored σ) =
      reflect (State.mirrored σ) (jumpIfAsset setup leg asset destination s) := by
  have htraded : (setup.mirrored σ bytes external).query.asset leg = σ asset ↔
      setup.query.asset leg = asset := by
    rw [Setup.asset_mirrored, σ.injective.eq_iff]
  unfold jumpIfAsset
  simp only [htraded]
  split
  · exact jump_mirrored hbytes
  · rfl

/-!
# Guards
-/

theorem deadline_mirrored {last : UInt64} :
    deadline (setup.mirrored σ bytes external) last (s.mirrored σ) =
      reflect (State.mirrored σ) (deadline setup last s) :=
  bind_eq_reflect (unaltered_check rfl) fun _ => rfl

theorem takerBalance_mirrored {asset : AssetId} {least : UInt64} :
    takerBalance (setup.mirrored σ bytes external) (σ asset) least (s.mirrored σ) =
      reflect (State.mirrored σ) (takerBalance setup asset least s) := by
  unfold takerBalance
  simp only [balanceOf_mirrored]
  exact bind_eq_reflect (unaltered_check rfl) fun _ => rfl

theorem takerShare_mirrored {asset : AssetId} {least : UInt64} :
    takerShare (setup.mirrored σ bytes external) (σ asset) least (s.mirrored σ) =
      reflect (State.mirrored σ) (takerShare setup asset least s) := by
  have hsupply : (setup.mirrored σ bytes external).environment.totalSupply (σ asset) =
      setup.environment.totalSupply asset :=
    congrArg setup.environment.totalSupply (σ.symm_apply_apply asset)
  unfold takerShare
  simp only [balanceOf_mirrored, hsupply]
  split
  · rfl
  · exact bind_eq_reflect unaltered_calculate fun _ =>
      bind_eq_reflect (unaltered_check rfl) fun _ => rfl

theorem invalidateBit_mirrored {bit : UInt32} :
    invalidateBit (setup.mirrored σ bytes external) bit (s.mirrored σ) =
      reflect (State.mirrored σ) (invalidateBit setup bit s) :=
  bind_eq_reflect (unaltered_check rfl) fun _ => congrArg Except.ok (write_mirrored fun _ => rfl)

/-!
# Fees
-/

theorem openFee_mirrored {op : Opcode} {leg : Leg} {rate : UInt64} {recipient : Option Address} :
    openFee (setup.mirrored σ bytes external) op leg rate recipient (s.mirrored σ) =
      reflect (State.mirrored σ) (openFee setup op leg rate recipient s) := by
  apply bind_eq_reflect unaltered_requireUnsolved
  intro _
  simp only [Setup.mirrored, Query.renamed]
  cases leg with
  | input =>
      cases setup.query.fixed with
      | input =>
          exact bind_eq_reflect unaltered_calculate fun _ =>
            bind_eq_reflect unaltered_calculate fun _ => rfl
      | output => rfl
  | output =>
      cases setup.query.fixed with
      | input => rfl
      | output => exact bind_eq_reflect unaltered_calculate fun _ => rfl

theorem progressiveFee_mirrored {leg : Leg} {terms : ProgressiveFee} :
    progressiveFee (setup.mirrored σ bytes external) leg terms (s.mirrored σ) =
      reflect (State.mirrored σ) (progressiveFee setup leg terms s) :=
  bind_eq_reflect unaltered_calculate fun _ => openFee_mirrored

theorem protocolFee_mirrored {leg : Leg} {rate : UInt16} {recipient : Address} :
    protocolFee (setup.mirrored σ bytes external) leg rate recipient (s.mirrored σ) =
      reflect (State.mirrored σ) (protocolFee setup leg rate recipient s) := by
  cases leg with
  | input => exact bind_eq_reflect unaltered_requireUnsolved fun _ => rfl
  | output => exact openFee_mirrored

theorem openAll_mirrored (fees : List PendingFee) (s : State) :
    (fees.foldlM (fun s fee => openFee (setup.mirrored σ bytes external) (.protocolFee .input)
        .input fee.rate.toUInt64 (some fee.recipient) s) (s.mirrored σ) : Run State) =
      reflect (State.mirrored σ) (fees.foldlM (fun s fee => openFee setup (.protocolFee .input)
        .input fee.rate.toUInt64 (some fee.recipient) s) s) := by
  induction fees generalizing s with
  | nil => rfl
  | cons fee rest ih =>
      rw [List.foldlM_cons, List.foldlM_cons, openFee_mirrored]
      exact reflect_bind_eq fun s _ => ih s

theorem release_mirrored :
    release (setup.mirrored σ bytes external) (s.mirrored σ) =
      reflect (State.mirrored σ) (release setup s) :=
  openAll_mirrored s.pending { s with pending := [] }

/-!
# Pricing
-/

theorem solve_mirrored :
    solve (setup.mirrored σ bytes external) (s.mirrored σ) =
      reflect (State.mirrored σ) (solve setup s) :=
  bind_eq_reflect unaltered_requireUnsolved fun _ =>
    bind_eq_reflect unaltered_calculate fun _ => rfl

theorem minRateAdjust_mirrored (hq : setup.query.TurnedBy σ) {bound : RateBound} :
    minRateAdjust (setup.mirrored σ bytes external) bound.mirrored (s.mirrored σ) =
      reflect (State.mirrored σ) (minRateAdjust setup bound s) := by
  apply bind_eq_reflect unaltered_requireSolved
  intro _
  simp only [RateBound.mirrored, Setup.orient_mirrored hq]
  simp only [Setup.mirrored, Query.renamed]
  cases setup.query.fixed with
  | input => exact bind_eq_reflect unaltered_calculate fun _ => rfl
  | output => exact bind_eq_reflect unaltered_calculate fun _ => rfl

theorem minRateRequire_mirrored (hq : setup.query.TurnedBy σ) {bound : RateBound} :
    minRateRequire (setup.mirrored σ bytes external) bound.mirrored (s.mirrored σ) =
      reflect (State.mirrored σ) (minRateRequire setup bound s) := by
  apply bind_eq_reflect unaltered_requireSolved
  intro _
  simp only [RateBound.mirrored, Setup.orient_mirrored hq]
  exact bind_eq_reflect (unaltered_check rfl) fun _ => rfl

theorem baseFeeAdjust_mirrored {terms : GasAdjust} :
    baseFeeAdjust (setup.mirrored σ bytes external) terms (s.mirrored σ) =
      reflect (State.mirrored σ) (baseFeeAdjust setup terms s) := by
  apply bind_eq_reflect unaltered_requireSolved
  intro _
  simp only [Setup.mirrored, Environment.mirrored, Query.renamed]
  by_cases hfee : setup.environment.baseFee ≤ terms.baseFee
  · simp only [hfee, if_true]
    rfl
  · simp only [hfee, if_false]
    cases setup.query.fixed with
    | input => exact bind_eq_reflect unaltered_calculate fun _ => rfl
    | output =>
        by_cases hzero : s.registers.amountOut = 0
        · simp only [State.mirrored, hzero, if_true]
          rfl
        · simp only [State.mirrored, hzero, if_false]
          exact bind_eq_reflect unaltered_calculate fun _ =>
            bind_eq_reflect unaltered_calculate fun _ =>
              bind_eq_reflect unaltered_calculate fun _ =>
                bind_eq_reflect unaltered_calculate fun _ => rfl

/-!
# Reserves
-/

theorem staticBalances_mirrored {balances : Entries} :
    staticBalances (setup.mirrored σ bytes external) (Entries.renamed σ balances) (s.mirrored σ) =
      reflect (State.mirrored σ) (staticBalances setup balances s) := by
  unfold staticBalances
  simp only [Setup.asset_mirrored, listed?_renamed]
  exact bind_eq_reflect unaltered_requireUnsolved fun _ =>
    bind_eq_reflect (unaltered_demand rfl) fun _ =>
      bind_eq_reflect (unaltered_demand rfl) fun _ => rfl

theorem dynamicBalances_mirrored {balances : Entries} :
    dynamicBalances (setup.mirrored σ bytes external) (Entries.renamed σ balances)
        (s.mirrored σ) =
      reflect (State.mirrored σ) (dynamicBalances setup balances s) := by
  have hstored : ∀ asset, (s.mirrored σ).journal.balance?
      (setup.mirrored σ bytes external).program.id (σ asset) =
        s.journal.balance? setup.program.id asset :=
    s.journal.balance?_renamed σ setup.program.id
  unfold dynamicBalances
  simp only [Setup.asset_mirrored, listed?_renamed, hstored]
  exact bind_eq_reflect unaltered_requireUnsolved fun _ =>
    bind_eq_reflect (unaltered_demand rfl) fun _ =>
      bind_eq_reflect (unaltered_demand rfl) fun _ => rfl

theorem externalBalances_mirrored :
    externalBalances (setup.mirrored σ bytes external) (s.mirrored σ) =
      reflect (State.mirrored σ) (externalBalances setup s) := by
  have hreserve : ∀ asset, (setup.mirrored σ bytes external).environment.reserve?
      (setup.mirrored σ bytes external).program.id (σ asset) =
        setup.environment.reserve? setup.program.id asset := fun asset =>
    congrArg (setup.environment.reserve? setup.program.id) (σ.symm_apply_apply asset)
  unfold externalBalances
  simp only [Setup.asset_mirrored, hreserve]
  exact bind_eq_reflect unaltered_requireUnsolved fun _ =>
    bind_eq_reflect (unaltered_demand rfl) fun _ =>
      bind_eq_reflect (unaltered_demand rfl) fun _ => rfl

theorem grow_mirrored {op : Opcode} {deltaIn deltaOut : UInt64} :
    grow op deltaIn deltaOut (s.mirrored σ) =
      reflect (State.mirrored σ) (grow op deltaIn deltaOut s) :=
  bind_eq_reflect unaltered_requireUnsolved fun _ =>
    bind_eq_reflect unaltered_calculate fun _ =>
      bind_eq_reflect unaltered_calculate fun _ => rfl

theorem growLiquidity_mirrored {deltas : Entries} :
    growLiquidity (setup.mirrored σ bytes external) (Entries.renamed σ deltas) (s.mirrored σ) =
      reflect (State.mirrored σ) (growLiquidity setup deltas s) := by
  unfold growLiquidity
  simp only [Setup.asset_mirrored, listed?_renamed]
  exact grow_mirrored

theorem growPriceRange_mirrored (hq : setup.query.TurnedBy σ) {lower higher : UInt64} :
    growPriceRange (setup.mirrored σ bytes external) higher lower (s.mirrored σ) =
      reflect (State.mirrored σ) (growPriceRange setup lower higher s) := by
  unfold growPriceRange
  rw [Setup.orient_mirrored hq]
  exact grow_mirrored

theorem unaltered_offsetNow {period : UInt32} {side : Side} :
    Unaltered (offsetNow setup period side s) := by
  unfold offsetNow
  split
  · exact unaltered_calculate
  · exact fun _ h => nomatch h

theorem offsetNow_mirrored {period : UInt32} (asset : AssetId) (leg : Leg) :
    offsetNow (setup.mirrored σ bytes external) period ⟨σ asset, leg⟩ (s.mirrored σ) =
      offsetNow setup period ⟨asset, leg⟩ s := by
  have hread : (s.mirrored σ).journal.offset? (setup.mirrored σ bytes external).program.id
      ⟨σ asset, leg⟩ = s.journal.offset? setup.program.id ⟨asset, leg⟩ :=
    s.journal.offset?_renamed σ setup.program.id ⟨asset, leg⟩
  unfold offsetNow
  rw [hread]
  rfl

theorem decay_mirrored {period : UInt32} :
    decay (setup.mirrored σ bytes external) period (s.mirrored σ) =
      reflect (State.mirrored σ) (decay setup period s) := by
  have hin : (setup.mirrored σ bytes external).query.assetIn = σ setup.query.assetIn := rfl
  have hout : (setup.mirrored σ bytes external).query.assetOut = σ setup.query.assetOut := rfl
  unfold decay
  simp only [hin, hout, offsetNow_mirrored]
  exact bind_eq_reflect unaltered_requireUnsolved fun _ =>
    bind_eq_reflect unaltered_offsetNow fun _ =>
      bind_eq_reflect unaltered_offsetNow fun _ =>
        bind_eq_reflect unaltered_calculate fun _ =>
          bind_eq_reflect unaltered_calculate fun _ => rfl

theorem unaltered_auctionFactor {op : Opcode} {terms : Auction} :
    Unaltered (auctionFactor setup op terms) :=
  unaltered_bind (unaltered_check rfl) fun _ => unaltered_calculate

theorem auction_mirrored {leg : Leg} {terms : Auction} :
    auction (setup.mirrored σ bytes external) leg terms (s.mirrored σ) =
      reflect (State.mirrored σ) (auction setup leg terms s) := by
  apply bind_eq_reflect unaltered_requireUnsolved
  intro _
  apply bind_eq_reflect unaltered_auctionFactor
  intro _
  cases leg with
  | input => exact bind_eq_reflect unaltered_calculate fun _ => rfl
  | output => exact bind_eq_reflect unaltered_calculate fun _ => rfl

theorem sale_mirrored {offset : UInt64} {terms : Sale} :
    sale (setup.mirrored σ bytes external) offset terms (s.mirrored σ) =
      reflect (State.mirrored σ) (sale setup offset terms s) :=
  bind_eq_reflect unaltered_requireUnsolved fun _ =>
    bind_eq_reflect (unaltered_check rfl) fun _ =>
      bind_eq_reflect unaltered_calculate fun _ =>
        bind_eq_reflect unaltered_calculate fun _ =>
          bind_eq_reflect (unaltered_check rfl) fun _ =>
            bind_eq_reflect unaltered_calculate fun _ => rfl

theorem revalue_mirrored (hq : setup.query.TurnedBy σ) {op : Opcode} {valuation : UInt64}
    {maxDelta : Option UInt16} :
    revalue (setup.mirrored σ bytes external) op (opposite valuation) maxDelta (s.mirrored σ) =
      reflect (State.mirrored σ) (revalue setup op valuation maxDelta s) := by
  unfold revalue check
  by_cases hvalid : valuation ≠ 0 ∧ valuation < wadWord
  · have hopposite := opposite_valid_iff.mpr hvalid
    have hback := difference_wadWord hopposite.2
    rw [opposite_opposite] at hback
    -- Either run now orients a valuation and its opposite, in exchanged places.
    rw [if_pos hvalid, if_pos hopposite, difference_wadWord hvalid.2, hback]
    show (calculate op (Arithmetic.rebalance _ _ (Query.orient _ _ _).1) >>= _) = _
    rw [Setup.orient_mirrored hq]
    apply bind_eq_reflect unaltered_calculate
    intro _
    cases maxDelta with
    | none => rfl
    | some delta =>
        exact bind_eq_reflect unaltered_calculate fun _ =>
          bind_eq_reflect unaltered_calculate fun _ => rfl
  · have hopposite := opposite_valid_iff.not.mpr hvalid
    rw [if_neg hvalid, if_neg hopposite]
    rfl

theorem valuationStatic_mirrored (hq : setup.query.TurnedBy σ) {valuation : UInt64} :
    valuationStatic (setup.mirrored σ bytes external) (opposite valuation) (s.mirrored σ) =
      reflect (State.mirrored σ) (valuationStatic setup valuation s) :=
  bind_eq_reflect unaltered_requireUnsolved fun _ => revalue_mirrored hq

theorem valuationOracle_mirrored (hq : setup.query.TurnedBy σ) {op : Opcode} {oracle : Address}
    {maxAge : Option UInt32} {maxDelta : Option UInt16} :
    valuationOracle (setup.mirrored σ bytes external) op oracle maxAge maxDelta (s.mirrored σ) =
      reflect (State.mirrored σ) (valuationOracle setup op oracle maxAge maxDelta s) := by
  have hreading : (setup.mirrored σ bytes external).environment.oracle? oracle =
      (setup.environment.oracle? oracle).map OracleReading.mirrored := rfl
  unfold valuationOracle
  rw [hreading, demand_map rfl]
  apply bind_eq_reflect unaltered_requireUnsolved
  intro _
  apply reflect_bind_eq
  intro reading _
  simp only [OracleReading.value_mirrored, OracleReading.updatedAt_mirrored]
  cases maxAge with
  | none => exact revalue_mirrored hq
  | some limit =>
      apply bind_eq_reflect (unaltered_check rfl)
      intro _
      exact revalue_mirrored hq

/-!
# Steps
-/

/-- Without external logic, the mirror image of an instruction does under the
new names what the instruction does. -/
theorem execute_mirrored (hbytes : bytes.size = setup.program.bytes.size)
    (hq : setup.query.TurnedBy σ) {offset : Nat} {i : Instruction}
    (hi : i.opcode ≠ .extruction) :
    execute (setup.mirrored σ bytes external) offset (i.mirrored σ) (s.mirrored σ) =
      reflect (State.mirrored σ) (execute setup offset i s) := by
  cases i with
  | jump destination => exact jump_mirrored hbytes
  | jumpIfAsset leg asset destination => exact jumpIfAsset_mirrored hbytes
  | deadline last => exact deadline_mirrored
  | takerBalance asset least => exact takerBalance_mirrored
  | takerShare asset least => exact takerShare_mirrored
  | salt bytes => rfl
  | staticBalances balances => exact staticBalances_mirrored
  | dynamicBalances balances => exact dynamicBalances_mirrored
  | externalBalances => exact externalBalances_mirrored
  | solve => exact solve_mirrored
  | growLiquidity deltas => exact growLiquidity_mirrored
  | growPriceRange lower higher => exact growPriceRange_mirrored hq
  | decay period => exact decay_mirrored
  | auction leg terms => exact auction_mirrored
  | twap terms => exact sale_mirrored
  | flatFee leg rate => exact openFee_mirrored
  | progressiveFee leg terms => exact progressiveFee_mirrored
  | protocolFee leg rate recipient => exact protocolFee_mirrored
  | minRateAdjust bound => exact minRateAdjust_mirrored hq
  | minRateRequire bound => exact minRateRequire_mirrored hq
  | baseFeeAdjust terms => exact baseFeeAdjust_mirrored
  | valuationStatic valuation => exact valuationStatic_mirrored hq
  | valuationOracle oracle =>
      simp only [Operation.mirrored, execute]
      exact valuationOracle_mirrored hq
  | valuationFresh oracle maxAge =>
      simp only [Operation.mirrored, execute]
      exact valuationOracle_mirrored hq
  | valuationBounded oracle maxAge maxDelta =>
      simp only [Operation.mirrored, execute]
      exact valuationOracle_mirrored hq
  | invalidateBit bit => exact invalidateBit_mirrored
  | fillCap leg cap => rfl
  | extruction logic input => exact absurd rfl hi

theorem enter_mirrored {r : Record} :
    enter (setup.mirrored σ bytes external) (r.mirrored σ) (s.mirrored σ) =
      reflect (State.mirrored σ) (enter setup r s) := by
  have hop : (r.mirrored σ).opcode = r.opcode := r.instruction.opcode_mirrored σ
  unfold enter releaseBefore
  rw [hop]
  split
  · rfl
  · rw [← release_mirrored]
    rfl

theorem step_mirrored (hbytes : bytes.size = setup.program.bytes.size)
    (hq : setup.query.TurnedBy σ) {r : Record} (hr : r.opcode ≠ .extruction) :
    step (setup.mirrored σ bytes external) (r.mirrored σ) (s.mirrored σ) =
      reflect (State.mirrored σ) (step setup r s) := by
  unfold step
  rw [enter_mirrored]
  exact reflect_bind_eq fun _ _ => execute_mirrored hbytes hq hr

/-!
# Settlements
-/

theorem settleBalances_mirrored {balanceIn balanceOut : UInt64} :
    settleBalances (setup.mirrored σ bytes external) balanceIn balanceOut (s.mirrored σ) =
      reflect (State.mirrored σ) (settleBalances setup balanceIn balanceOut s) := by
  apply bind_eq_reflect unaltered_calculate
  intro newIn
  apply bind_eq_reflect unaltered_calculate
  intro newOut
  apply congrArg Except.ok
  apply write_mirrored
  intro j
  rw [Order.Journal.renamed_setBalance, Order.Journal.renamed_setBalance]
  rfl

theorem settleDecay_mirrored {period : UInt32} :
    settleDecay (setup.mirrored σ bytes external) period (s.mirrored σ) =
      reflect (State.mirrored σ) (settleDecay setup period s) := by
  have hin : (setup.mirrored σ bytes external).query.assetIn = σ setup.query.assetIn := rfl
  have hout : (setup.mirrored σ bytes external).query.assetOut = σ setup.query.assetOut := rfl
  unfold settleDecay
  simp only [hin, hout, offsetNow_mirrored]
  apply bind_eq_reflect (unaltered_bind unaltered_offsetNow fun _ => unaltered_calculate)
  intro locked
  apply bind_eq_reflect (unaltered_bind unaltered_offsetNow fun _ => unaltered_calculate)
  intro restored
  apply congrArg Except.ok
  apply write_mirrored
  intro j
  rw [Order.Journal.renamed_setOffset, Order.Journal.renamed_setOffset]
  rfl

theorem settleSale_mirrored {offset : UInt64} {terms : Sale} {prior : SaleState} :
    settleSale (setup.mirrored σ bytes external) offset terms prior (s.mirrored σ) =
      reflect (State.mirrored σ) (settleSale setup offset terms prior s) :=
  bind_eq_reflect (unaltered_check rfl) fun _ =>
    bind_eq_reflect unaltered_calculate fun _ =>
      congrArg Except.ok (write_mirrored fun _ => rfl)

theorem settleFee_mirrored {op : Opcode} {leg : Leg} {rate : UInt64} {carried : Option UInt64}
    {recipient : Option Address} :
    settleFee (setup.mirrored σ bytes external) op leg rate carried recipient (s.mirrored σ) =
      reflect (State.mirrored σ) (settleFee setup op leg rate carried recipient s) := by
  apply bind_eq_reflect unaltered_calculate
  rintro ⟨fee, amount⟩
  cases recipient with
  | none => rfl
  | some recipient =>
      by_cases hzero : fee = 0
      · simp only [hzero, if_true]
        rfl
      · simp only [hzero, if_false, Setup.asset_mirrored]
        apply congrArg Except.ok
        unfold State.mirrored
        simp only [List.map_append]
        rfl

theorem settleFillCap_mirrored {leg : Leg} {cap : UInt64} :
    settleFillCap (setup.mirrored σ bytes external) leg cap (s.mirrored σ) =
      reflect (State.mirrored σ) (settleFillCap setup leg cap s) := by
  have hread : (s.mirrored σ).journal.filled (setup.mirrored σ bytes external).program.id
      ⟨σ (setup.query.asset leg), leg⟩ =
        s.journal.filled setup.program.id ⟨setup.query.asset leg, leg⟩ :=
    s.journal.filled_renamed σ setup.program.id ⟨setup.query.asset leg, leg⟩
  unfold settleFillCap
  simp only [Setup.asset_mirrored, hread]
  apply bind_eq_reflect (unaltered_check rfl)
  intro _
  apply congrArg Except.ok
  apply write_mirrored
  intro j
  rw [Order.Journal.renamed_setFilled]
  rfl

theorem settle_mirrored {work : Settlement} :
    settle (setup.mirrored σ bytes external) work (s.mirrored σ) =
      reflect (State.mirrored σ) (settle setup work s) := by
  cases work with
  | balances balanceIn balanceOut => exact settleBalances_mirrored
  | decay period => exact settleDecay_mirrored
  | sale offset terms prior => exact settleSale_mirrored
  | fee op leg rate carried recipient => exact settleFee_mirrored
  | fillCap leg cap => exact settleFillCap_mirrored

/-!
# Runs
-/

theorem mirrored_limitError (limit : UInt32) : (limitError limit).mirrored = limitError limit := by
  unfold limitError
  split
  · rfl
  · rfl

theorem runSteps_mirrored (hbytes : bytes.size = setup.program.bytes.size)
    (hq : setup.query.TurnedBy σ)
    (hplain : ∀ r ∈ setup.program.records, r.opcode ≠ .extruction) {limit : UInt32} (left : Nat)
    (s : State) :
    runSteps (setup.mirrored σ bytes external) limit left (s.mirrored σ) =
      reflect (State.mirrored σ) (runSteps setup limit left s) := by
  have hnext : ∀ s : State,
      (setup.mirrored σ bytes external).program.records[(s.mirrored σ).next]? =
        setup.program.records[s.next]?.map (Record.mirrored σ) := fun _ => Array.getElem?_map
  induction left generalizing s with
  | zero =>
      -- Mirror images stand at the indices of the records, so both runs end here.
      unfold runSteps
      rw [hnext]
      cases setup.program.records[s.next]? with
      | none => rfl
      | some r => exact congrArg Except.error (mirrored_limitError limit).symm
  | succ left ih =>
      unfold runSteps
      rw [hnext]
      cases hr : setup.program.records[s.next]? with
      | none => rfl
      | some r =>
          simp only [Option.map_some]
          rw [step_mirrored hbytes hq (hplain r (Array.mem_of_getElem? hr))]
          exact reflect_bind_eq fun s' _ => ih s'

theorem finishSteps_mirrored :
    finishSteps (setup.mirrored σ bytes external) (s.mirrored σ) =
      reflect (State.mirrored σ) (finishSteps setup s) := by
  unfold finishSteps
  rw [release_mirrored]
  apply reflect_bind_eq
  intro t _
  have hsolved : (t.mirrored σ).solved = t.solved := rfl
  rw [hsolved]
  cases t.solved with
  | false => rfl
  | true => rfl

theorem settleAll_mirrored (works : List Settlement) (s : State) :
    settleAll (setup.mirrored σ bytes external) works (s.mirrored σ) =
      reflect (State.mirrored σ) (settleAll setup works s) := by
  induction works generalizing s with
  | nil => rfl
  | cons work rest ih =>
      unfold settleAll
      rw [settle_mirrored]
      exact reflect_bind_eq fun s' _ => ih s'

/-- A run of the mirror images is the mirror image of the run. -/
theorem run_mirrored (setup : Setup) (hbytes : bytes.size = setup.program.bytes.size)
    (hq : setup.query.TurnedBy σ)
    (hplain : ∀ r ∈ setup.program.records, r.opcode ≠ .extruction) {limit : UInt32}
    {store : Order.Store} :
    run (setup.mirrored σ bytes external) limit (store.renamed σ) =
      reflect (State.mirrored σ) (run setup limit store) := by
  have hinitial : State.initial (setup.mirrored σ bytes external).query (store.renamed σ) =
      (State.initial setup.query store).mirrored σ := rfl
  unfold run
  rw [hinitial, runSteps_mirrored hbytes hq hplain]
  apply reflect_bind_eq
  intro stepped _
  rw [finishSteps_mirrored]
  apply reflect_bind_eq
  intro finished _
  exact settleAll_mirrored finished.settlements { finished with settlements := [] }

end Mirrored

/-!
# Quotes and swaps
-/

section Trades

variable {σ : Equiv.Perm AssetId} {bytes : Array UInt8} {program : Program} {query : Query}
  {environment : Environment} {external rival : ExternalLogic} {limit : UInt32}
  {store : Order.Store}

theorem accept_renamed {mode : ExecutionMode} :
    accept (query.renamed σ) mode = accept query mode := by
  unfold accept
  rw [Query.validate_renamed]
  rfl

theorem unaltered_accept {mode : ExecutionMode} : Unaltered (accept query mode) := by
  intro e he
  unfold accept at he
  split at he
  · cases he
    rfl
  · cases hfault : query.validate with
    | ok u =>
        rw [hfault] at he
        cases he
    | error fault =>
        rw [hfault] at he
        cases he
        rfl

theorem quote_mirrored (hbytes : bytes.size = program.bytes.size) (hquery : query.TurnedBy σ)
    (hplain : ∀ r ∈ program.records, r.opcode ≠ .extruction) :
    quote (program.mirrored σ bytes) (query.renamed σ) (environment.mirrored σ) limit
        (store.renamed σ) =
      reflect (Outcome.mirrored σ) (quote program query environment limit store) := by
  have hrun : run ⟨program.mirrored σ bytes, query.renamed σ, environment.mirrored σ,
      (environment.mirrored σ).quoteExternal⟩ limit (store.renamed σ) =
        reflect (State.mirrored σ)
          (run ⟨program, query, environment, environment.quoteExternal⟩ limit store) :=
    run_mirrored ⟨program, query, environment, environment.quoteExternal⟩ hbytes hquery hplain
  unfold quote
  rw [accept_renamed]
  apply bind_eq_reflect unaltered_accept
  intro _
  simp only [hrun]
  exact reflect_bind_eq fun _ _ => rfl

theorem swap_mirrored (hbytes : bytes.size = program.bytes.size) (hquery : query.TurnedBy σ)
    (hplain : ∀ r ∈ program.records, r.opcode ≠ .extruction) :
    swap (program.mirrored σ bytes) (query.renamed σ) (environment.mirrored σ) rival limit
        (store.renamed σ) =
      (reflect (Outcome.mirrored σ) (swap program query environment external limit store).1,
        (swap program query environment external limit store).2.renamed σ) := by
  have hrun : run ⟨program.mirrored σ bytes, query.renamed σ, environment.mirrored σ, rival⟩ limit
      (store.renamed σ) = reflect (State.mirrored σ)
        (run ⟨program, query, environment, external⟩ limit store) :=
    run_mirrored ⟨program, query, environment, external⟩ hbytes hquery hplain
  cases haccept : accept query .commit with
  | error e =>
      have hrefused := haccept
      rw [← accept_renamed] at hrefused
      rw [swap_of_refused haccept, swap_of_refused hrefused]
      have hfixed := unaltered_accept e haccept
      exact Prod.ext (congrArg Except.error hfixed.symm) rfl
  | ok u =>
      have haccepted := accept_eq_ok_iff.mp haccept
      rw [← accept_renamed] at haccept
      have hmirrored := accept_eq_ok_iff.mp haccept
      cases h : run ⟨program, query, environment, external⟩ limit store with
      | error e =>
          rw [h] at hrun
          rw [swap_of_run_error haccepted h, swap_of_run_error hmirrored hrun]
          rfl
      | ok s =>
          rw [h] at hrun
          rw [swap_of_run_ok haccepted h, swap_of_run_ok hmirrored hrun]
          have hcommit := s.journal.commit_renamed σ
          exact Prod.ext rfl hcommit

end Trades
end Machine
end SwapPricing
