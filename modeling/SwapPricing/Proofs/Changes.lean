import SwapPricing.Machine.Run
import SwapPricing.Proofs.Rounding

/-!
# What a record changes

Whatever a record does to a state when it succeeds is one of a few changes, and
whatever a settlement does is one of a few more.  Invariants of runs are proved
against these changes, never against the instructions themselves.
-/

namespace SwapPricing

namespace Operation

/-- Whether an instruction does nothing but set the balances. -/
def setsBalances : Instruction → Bool
  | staticBalances _ => true
  | externalBalances => true
  | growLiquidity _ => true
  | growPriceRange _ _ => true
  | auction _ _ => true
  | valuationStatic _ => true
  | valuationOracle _ => true
  | valuationFresh _ _ => true
  | valuationBounded _ _ _ => true
  | _ => false

/-- Whether an instruction may leave the state as it is. -/
def mayIdle : Instruction → Bool
  | deadline _ => true
  | takerBalance _ _ => true
  | takerShare _ _ => true
  | salt _ => true
  | minRateRequire _ => true
  | baseFeeAdjust _ => true
  | _ => false

/-- Whether an instruction is a fee that is opened where it stands. -/
def opensFee : Instruction → Bool
  | flatFee _ _ => true
  | progressiveFee _ _ => true
  | protocolFee leg _ _ => leg = .output
  | _ => false

/-- The leg and the recipient of a protocol fee. -/
def levy? : Instruction → Option (Leg × Address)
  | protocolFee leg _ recipient => some (leg, recipient)
  | _ => none

end Operation

namespace Machine

open Arithmetic (deductRate grossUp quoteExactIn quoteExactOut)

/-!
# Parts of runs
-/

theorem calculate_eq_ok_iff {α : Type} {op : Opcode} {x : Except MathError α} {a : α} :
    calculate op x = .ok a ↔ x = .ok a := by
  cases x with
  | error e => simp [calculate, Except.mapError]
  | ok b => simp [calculate, Except.mapError]

theorem demand_eq_ok_iff {α : Type} {op : Opcode} {failure : GuardFailure} {x : Option α} {a : α} :
    demand op failure x = .ok a ↔ x = some a := by
  cases x with
  | none => simp [demand]
  | some b => simp [demand]

theorem check_eq_ok_iff {op : Opcode} {failure : GuardFailure} {p : Prop} [Decidable p] {u : Unit} :
    check op failure p = .ok u ↔ p := by
  unfold check
  split
  · simpa
  · simpa

theorem requireUnsolved_eq_ok_iff {s : State} {op : Opcode} {u : Unit} :
    s.requireUnsolved op = .ok u ↔ s.solved = false := by
  unfold State.requireUnsolved
  cases s.solved with
  | false => simp
  | true => simp

theorem requireSolved_eq_ok_iff {s : State} {op : Opcode} {u : Unit} :
    s.requireSolved op = .ok u ↔ s.solved = true := by
  unfold State.requireSolved
  cases s.solved with
  | false => simp
  | true => simp

theorem jump_eq_ok {s s' : State} {program : Program} {offset : UInt16}
    (h : s.jump program offset = .ok s') : ∃ next, s' = { s with next := next } := by
  unfold State.jump at h
  cases hindex : program.indexOf offset.toNat with
  | error reason => simp [hindex] at h
  | ok index =>
      simp only [hindex, Except.ok.injEq] at h
      exact ⟨index, h.symm⟩

namespace State

variable (s : State) (mode : ExecutionMode) (change : Order.Journal → Order.Journal)

/-- What a change of the journal keeps, a write keeps in every mode. -/
theorem write_keeps (P : Order.Journal → Prop) {s : State} {mode : ExecutionMode}
    {change : Order.Journal → Order.Journal} (hs : P s.journal) (hchange : P (change s.journal)) :
    P (s.write mode change).journal := by
  cases mode with
  | simulate => exact hs
  | commit => exact hchange

@[simp] theorem registers_write : (s.write mode change).registers = s.registers := by
  cases mode <;> rfl

@[simp] theorem solved_write : (s.write mode change).solved = s.solved := by
  cases mode <;> rfl

@[simp] theorem settlements_write : (s.write mode change).settlements = s.settlements := by
  cases mode <;> rfl

@[simp] theorem protocolFees_write :
    (s.write mode change).protocolFees = s.protocolFees := by
  cases mode <;> rfl

end State

/-!
# Opening a fee
-/

/-- How a fee is opened on a state that is not solved. -/
inductive Opening (setup : Setup) (op : Opcode) (leg : Leg) (rate : UInt64)
    (recipient : Option Address) (s : State) : State → Prop where
  /-- The fee is taken off a fixed input. -/
  | charged {net fee : UInt64} (hleg : leg = .input) (hfixed : setup.query.fixed = .input)
      (hnet : deductRate s.registers.amountIn rate = .ok net)
      (hfee : net.toNat + fee.toNat = s.registers.amountIn.toNat) :
      Opening setup op leg rate recipient s
        ((s.setAmount .input net).defer (.fee op .input rate (some fee) recipient))
  /-- A fixed output is raised by the fee. -/
  | raised {gross : UInt64} (hleg : leg = .output) (hfixed : setup.query.fixed = .output)
      (hgross : grossUp s.registers.amountOut rate = .ok gross) :
      Opening setup op leg rate recipient s
        ((s.setAmount .output gross).defer
          (.fee op .output rate (some s.registers.amountOut) recipient))
  /-- The fee waits for the amount of its leg. -/
  | postponed (hleg : leg ≠ setup.query.fixed) :
      Opening setup op leg rate recipient s (s.defer (.fee op leg rate none recipient))

theorem openFee_eq_ok {setup : Setup} {op : Opcode} {leg : Leg} {rate : UInt64}
    {recipient : Option Address} {s s' : State}
    (h : openFee setup op leg rate recipient s = .ok s') :
    s.solved = false ∧ Opening setup op leg rate recipient s s' := by
  unfold openFee at h
  simp only [bind_eq_ok_iff, requireUnsolved_eq_ok_iff] at h
  rcases h with ⟨-, hsolved, h⟩
  refine ⟨hsolved, ?_⟩
  cases hleg : leg with
  | input =>
      cases hfixed : setup.query.fixed with
      | input =>
          simp only [hleg, hfixed, bind_eq_ok_iff, calculate_eq_ok_iff, pure_eq_ok_iff,
            Arithmetic.difference_eq_ok_iff] at h
          rcases h with ⟨net, hnet, fee, ⟨hle, rfl⟩, rfl⟩
          refine .charged rfl hfixed hnet ?_
          rw [Nat.add_comm]
          exact Arithmetic.toNat_sub_add hle
      | output =>
          simp only [hleg, hfixed, pure_eq_ok_iff] at h
          subst h
          exact .postponed (by simp [hfixed])
  | output =>
      cases hfixed : setup.query.fixed with
      | input =>
          simp only [hleg, hfixed, pure_eq_ok_iff] at h
          subst h
          exact .postponed (by simp [hfixed])
      | output =>
          simp only [hleg, hfixed, bind_eq_ok_iff, calculate_eq_ok_iff, pure_eq_ok_iff] at h
          rcases h with ⟨gross, hgross, rfl⟩
          exact .raised rfl hfixed hgross

/-- Whatever can be opened is opened. -/
theorem openFee_of_opening {setup : Setup} {op : Opcode} {leg : Leg} {rate : UInt64}
    {recipient : Option Address} {s s' : State} (hs : s.solved = false)
    (h : Opening setup op leg rate recipient s s') :
    openFee setup op leg rate recipient s = .ok s' := by
  unfold openFee
  simp only [bind_eq_ok_iff, requireUnsolved_eq_ok_iff]
  refine ⟨(), hs, ?_⟩
  cases h with
  | charged hleg hfixed hnet hfee =>
      rename_i net fee
      simp only [hleg, hfixed, bind_eq_ok_iff, calculate_eq_ok_iff, pure_eq_ok_iff,
        Arithmetic.difference_eq_ok_iff]
      have hle : net ≤ s.registers.amountIn := Arithmetic.deductRate_le hnet
      refine ⟨net, hnet, fee, ⟨hle, ?_⟩, rfl⟩
      have hsum := Arithmetic.toNat_sub_add hle
      apply UInt64.toNat_inj.mp
      omega
  | raised hleg hfixed hgross =>
      simp only [hleg, hfixed, bind_eq_ok_iff, calculate_eq_ok_iff, pure_eq_ok_iff]
      exact ⟨_, hgross, rfl⟩
  | postponed hleg =>
      cases hon : leg with
      | input =>
          cases hfixed : setup.query.fixed with
          | input => exact absurd (hon.trans hfixed.symm) hleg
          | output => rfl
      | output =>
          cases hfixed : setup.query.fixed with
          | input => rfl
          | output => exact absurd (hon.trans hfixed.symm) hleg

/-!
# Changes

The instruction is part of a change only where the change depends on it.
-/

/-- What an instruction does to a state. -/
inductive Change (setup : Setup) : Instruction → State → State → Prop where
  | idle {i : Instruction} {s : State} (hi : i.mayIdle = true) : Change setup i s s
  | moved {i : Instruction} {s : State} (hi : i.opcode.isJump = true) (next : Nat) :
      Change setup i s { s with next := next }
  | repriced {i : Instruction} {s : State} {balanceIn balanceOut : UInt64}
      (hi : i.setsBalances = true) (hs : s.solved = false) :
      Change setup i s (s.setBalances balanceIn balanceOut)
  | loaded {entries : Entries} {s : State} {balanceIn balanceOut : UInt64}
      (hs : s.solved = false)
      (hin : (s.journal.balance? setup.program.id setup.query.assetIn).or
        (listed? entries setup.query.assetIn) = some balanceIn)
      (hout : (s.journal.balance? setup.program.id setup.query.assetOut).or
        (listed? entries setup.query.assetOut) = some balanceOut) :
      Change setup (.dynamicBalances entries) s
        ((s.setBalances balanceIn balanceOut).defer (.balances balanceIn balanceOut))
  | faded {period : UInt32} {s : State} {balanceIn balanceOut : UInt64}
      (hs : s.solved = false) (hin : s.registers.balanceIn ≤ balanceIn)
      (hout : balanceOut ≤ s.registers.balanceOut) :
      Change setup (.decay period) s
        ((s.setBalances balanceIn balanceOut).defer (.decay period))
  | offered {terms : Sale} {s : State} {offset : UInt64} {balanceIn available : UInt64}
      (hs : s.solved = false) :
      Change setup (.twap terms) s
        ((s.setBalances balanceIn available).defer
          (.sale offset terms ((s.journal.sale? setup.program.id offset).getD .initial)))
  | opened {i : Instruction} {op : Opcode} {leg : Leg} {rate : UInt64}
      {recipient : Option Address} {s s' : State} (hi : i.opensFee = true)
      (hs : s.solved = false) (h : Opening setup op leg rate recipient s s')
      (hlevy : recipient.map (leg, ·) = i.levy?) : Change setup i s s'
  | held {rate : UInt16} {recipient : Address} {s : State} (hs : s.solved = false) :
      Change setup (.protocolFee .input rate recipient) s
        { s with pending := s.pending ++ [⟨rate, recipient⟩] }
  | solvedOutput {s : State} {amount : UInt64} (hs : s.solved = false)
      (hfixed : setup.query.fixed = .input)
      (h : quoteExactIn s.registers.balanceIn s.registers.balanceOut s.registers.amountIn =
        .ok amount) :
      Change setup .solve s { s.setAmount .output amount with solved := true }
  | solvedInput {s : State} {amount : UInt64} (hs : s.solved = false)
      (hfixed : setup.query.fixed = .output)
      (h : quoteExactOut s.registers.balanceIn s.registers.balanceOut s.registers.amountOut =
        .ok amount) :
      Change setup .solve s { s.setAmount .input amount with solved := true }
  | lowered {bound : RateBound} {s : State} {amount : UInt64} (hs : s.solved = true)
      (hfixed : setup.query.fixed = .input) (hle : amount ≤ s.registers.amountOut) :
      Change setup (.minRateAdjust bound) s (s.setAmount .output amount)
  | lifted {bound : RateBound} {s : State} {amount : UInt64} (hs : s.solved = true)
      (hfixed : setup.query.fixed = .output) (hle : s.registers.amountIn ≤ amount) :
      Change setup (.minRateAdjust bound) s (s.setAmount .input amount)
  | compensated {terms : GasAdjust} {s : State} {amount : UInt64} (hs : s.solved = true) :
      Change setup (.baseFeeAdjust terms) s (s.setAmount setup.query.unknown amount)
  | marked {bit : UInt32} {s : State} (hclear : s.journal.isBitSet setup.program.id bit = false) :
      Change setup (.invalidateBit bit) s
        (s.write setup.query.mode fun j => j.setBit setup.program.id bit)
  | capped {leg : Leg} {cap : UInt64} {s : State} :
      Change setup (.fillCap leg cap) s (s.defer (.fillCap leg cap))
  | answered {logic : Address} {input : List UInt8} {s : State} {registers : Registers}
      {solved : Bool} {calls : List ExternalCall} (next : Nat) :
      Change setup (.extruction logic input) s
        { s with registers := registers, solved := solved, calls := calls, next := next }

variable {setup : Setup} {s s' : State}

theorem jumpIfAsset_eq_ok {leg : Leg} {asset : AssetId} {destination : UInt16}
    (h : jumpIfAsset setup leg asset destination s = .ok s') :
    ∃ next, s' = { s with next := next } := by
  unfold jumpIfAsset at h
  split at h
  · exact jump_eq_ok h
  · injection h with h
    exact ⟨s.next, h.symm⟩

theorem deadline_eq_ok {last : UInt64} (h : deadline setup last s = .ok s') : s' = s := by
  simp only [deadline, bind_eq_ok_iff, pure_eq_ok_iff] at h
  rcases h with ⟨-, -, rfl⟩
  rfl

theorem takerBalance_eq_ok {asset : AssetId} {least : UInt64}
    (h : takerBalance setup asset least s = .ok s') : s' = s := by
  simp only [takerBalance, bind_eq_ok_iff, pure_eq_ok_iff] at h
  rcases h with ⟨-, -, rfl⟩
  rfl

theorem takerShare_eq_ok {asset : AssetId} {least : UInt64}
    (h : takerShare setup asset least s = .ok s') : s' = s := by
  unfold takerShare at h
  simp only at h
  split at h
  · cases h
  · simp only [bind_eq_ok_iff, pure_eq_ok_iff] at h
    rcases h with ⟨-, -, -, -, rfl⟩
    rfl

theorem staticBalances_eq_ok {balances : Entries}
    (h : staticBalances setup balances s = .ok s') :
    s.solved = false ∧ ∃ balanceIn balanceOut, s' = s.setBalances balanceIn balanceOut := by
  simp only [staticBalances, bind_eq_ok_iff, requireUnsolved_eq_ok_iff, pure_eq_ok_iff] at h
  rcases h with ⟨-, hs, balanceIn, -, balanceOut, -, rfl⟩
  exact ⟨hs, balanceIn, balanceOut, rfl⟩

theorem externalBalances_eq_ok (h : externalBalances setup s = .ok s') :
    s.solved = false ∧ ∃ balanceIn balanceOut, s' = s.setBalances balanceIn balanceOut := by
  simp only [externalBalances, bind_eq_ok_iff, requireUnsolved_eq_ok_iff, pure_eq_ok_iff] at h
  rcases h with ⟨-, hs, balanceIn, -, balanceOut, -, rfl⟩
  exact ⟨hs, balanceIn, balanceOut, rfl⟩

theorem grow_eq_ok {op : Opcode} {deltaIn deltaOut : UInt64}
    (h : grow op deltaIn deltaOut s = .ok s') :
    s.solved = false ∧ ∃ balanceIn balanceOut, s' = s.setBalances balanceIn balanceOut := by
  simp only [grow, bind_eq_ok_iff, requireUnsolved_eq_ok_iff, pure_eq_ok_iff] at h
  rcases h with ⟨-, hs, balanceIn, -, balanceOut, -, rfl⟩
  exact ⟨hs, balanceIn, balanceOut, rfl⟩

theorem auction_eq_ok {leg : Leg} {terms : Auction} (h : auction setup leg terms s = .ok s') :
    s.solved = false ∧ ∃ balanceIn balanceOut, s' = s.setBalances balanceIn balanceOut := by
  simp only [auction, bind_eq_ok_iff, requireUnsolved_eq_ok_iff] at h
  rcases h with ⟨-, hs, factor, -, h⟩
  refine ⟨hs, ?_⟩
  cases leg with
  | input =>
      simp only [bind_eq_ok_iff, pure_eq_ok_iff] at h
      rcases h with ⟨balanceIn, -, rfl⟩
      exact ⟨balanceIn, s.registers.balanceOut, rfl⟩
  | output =>
      simp only [bind_eq_ok_iff, pure_eq_ok_iff] at h
      rcases h with ⟨balanceOut, -, rfl⟩
      exact ⟨s.registers.balanceIn, balanceOut, rfl⟩

theorem revalue_eq_ok {op : Opcode} {valuation : UInt64} {maxDelta : Option UInt16}
    (h : revalue setup op valuation maxDelta s = .ok s') :
    ∃ balanceIn balanceOut, s' = s.setBalances balanceIn balanceOut := by
  simp only [revalue, bind_eq_ok_iff] at h
  rcases h with ⟨-, -, complement, -, ⟨fairIn, fairOut⟩, -, h⟩
  cases maxDelta with
  | none =>
      simp only [pure_eq_ok_iff] at h
      exact ⟨fairIn, fairOut, h.symm⟩
  | some delta =>
      simp only [bind_eq_ok_iff, pure_eq_ok_iff] at h
      rcases h with ⟨balanceIn, -, balanceOut, -, rfl⟩
      exact ⟨balanceIn, balanceOut, rfl⟩

theorem valuationStatic_eq_ok {valuation : UInt64}
    (h : valuationStatic setup valuation s = .ok s') :
    s.solved = false ∧ ∃ balanceIn balanceOut, s' = s.setBalances balanceIn balanceOut := by
  simp only [valuationStatic, bind_eq_ok_iff, requireUnsolved_eq_ok_iff] at h
  rcases h with ⟨-, hs, h⟩
  exact ⟨hs, revalue_eq_ok h⟩

theorem valuationOracle_eq_ok {op : Opcode} {oracle : Address} {maxAge : Option UInt32}
    {maxDelta : Option UInt16}
    (h : valuationOracle setup op oracle maxAge maxDelta s = .ok s') :
    s.solved = false ∧ ∃ balanceIn balanceOut, s' = s.setBalances balanceIn balanceOut := by
  simp only [valuationOracle, bind_eq_ok_iff, requireUnsolved_eq_ok_iff] at h
  rcases h with ⟨-, hs, reading, -, h⟩
  refine ⟨hs, ?_⟩
  cases maxAge with
  | none => exact revalue_eq_ok h
  | some limit =>
      simp only [bind_eq_ok_iff] at h
      rcases h with ⟨-, -, h⟩
      exact revalue_eq_ok h

theorem dynamicBalances_eq_ok {balances : Entries}
    (h : dynamicBalances setup balances s = .ok s') :
    Change setup (.dynamicBalances balances) s s' := by
  simp only [dynamicBalances, bind_eq_ok_iff, requireUnsolved_eq_ok_iff, demand_eq_ok_iff,
    pure_eq_ok_iff] at h
  rcases h with ⟨-, hs, balanceIn, hin, balanceOut, hout, rfl⟩
  exact .loaded hs hin hout

theorem decay_eq_ok {period : UInt32} (h : decay setup period s = .ok s') :
    Change setup (.decay period) s s' := by
  simp only [decay, bind_eq_ok_iff, requireUnsolved_eq_ok_iff, calculate_eq_ok_iff,
    Arithmetic.gain_eq_ok_iff, Arithmetic.drain_eq_ok_iff, pure_eq_ok_iff] at h
  rcases h with ⟨-, hs, restored, -, locked, -, balanceIn, hin, balanceOut, ⟨hle, rfl⟩, rfl⟩
  refine .faded hs ?_ ?_
  · rw [UInt64.le_iff_toNat_le, hin]
    exact Nat.le_add_right _ _
  · have hsum := Arithmetic.toNat_sub_add hle
    rw [UInt64.le_iff_toNat_le]
    omega

theorem sale_eq_ok {offset : UInt64} {terms : Sale} (h : sale setup offset terms s = .ok s') :
    Change setup (.twap terms) s s' := by
  simp only [sale, bind_eq_ok_iff, requireUnsolved_eq_ok_iff, pure_eq_ok_iff] at h
  rcases h with ⟨-, hs, -, -, elapsed, -, released, -, -, -, balanceIn, -, rfl⟩
  exact .offered hs

theorem solve_eq_ok (h : solve setup s = .ok s') : Change setup .solve s s' := by
  simp only [solve, bind_eq_ok_iff, requireUnsolved_eq_ok_iff, calculate_eq_ok_iff,
    pure_eq_ok_iff] at h
  rcases h with ⟨-, hs, amount, hamount, rfl⟩
  cases hfixed : setup.query.fixed with
  | input =>
      rw [hfixed] at hamount
      have hunknown : setup.query.unknown = .output := by rw [Query.unknown, hfixed]; rfl
      rw [hunknown]
      exact .solvedOutput hs hfixed hamount
  | output =>
      rw [hfixed] at hamount
      have hunknown : setup.query.unknown = .input := by rw [Query.unknown, hfixed]; rfl
      rw [hunknown]
      exact .solvedInput hs hfixed hamount

theorem flatFee_eq_ok {leg : Leg} {rate : UInt16} (h : flatFee setup leg rate s = .ok s') :
    Change setup (.flatFee leg rate) s s' := by
  rcases openFee_eq_ok h with ⟨hs, hopening⟩
  exact .opened rfl hs hopening rfl

theorem progressiveFee_eq_ok {leg : Leg} {terms : ProgressiveFee}
    (h : progressiveFee setup leg terms s = .ok s') :
    Change setup (.progressiveFee leg terms) s s' := by
  simp only [progressiveFee, bind_eq_ok_iff] at h
  rcases h with ⟨rate, -, h⟩
  rcases openFee_eq_ok h with ⟨hs, hopening⟩
  exact .opened rfl hs hopening rfl

/-- While the trade is unsolved, an input fee of a third party waits. -/
theorem protocolFee_of_unsolved (setup : Setup) (rate : UInt16) (recipient : Address)
    (hs : s.solved = false) :
    protocolFee setup .input rate recipient s =
      .ok { s with pending := s.pending ++ [⟨rate, recipient⟩] } := by
  simp only [protocolFee, State.requireUnsolved, hs]
  rfl

theorem protocolFee_eq_ok {leg : Leg} {rate : UInt16} {recipient : Address}
    (h : protocolFee setup leg rate recipient s = .ok s') :
    Change setup (.protocolFee leg rate recipient) s s' := by
  cases leg with
  | input =>
      simp only [protocolFee, bind_eq_ok_iff, requireUnsolved_eq_ok_iff, pure_eq_ok_iff] at h
      rcases h with ⟨-, hs, rfl⟩
      exact .held hs
  | output =>
      rcases openFee_eq_ok h with ⟨hs, hopening⟩
      exact .opened rfl hs hopening rfl

theorem amount_le_max (a b : UInt64) : a ≤ max a b := by
  show a ≤ (if a ≤ b then b else a)
  split
  · rename_i h
    exact h
  · exact UInt64.le_refl a

theorem minRateAdjust_eq_ok {bound : RateBound} (h : minRateAdjust setup bound s = .ok s') :
    Change setup (.minRateAdjust bound) s s' := by
  simp only [minRateAdjust, bind_eq_ok_iff, requireSolved_eq_ok_iff] at h
  rcases h with ⟨-, hs, h⟩
  cases hfixed : setup.query.fixed with
  | input =>
      simp only [hfixed, bind_eq_ok_iff, pure_eq_ok_iff] at h
      rcases h with ⟨most, -, rfl⟩
      exact .lowered hs hfixed Std.min_le_left
  | output =>
      simp only [hfixed, bind_eq_ok_iff, pure_eq_ok_iff] at h
      rcases h with ⟨least, -, rfl⟩
      exact .lifted hs hfixed (amount_le_max _ _)

theorem minRateRequire_eq_ok {bound : RateBound} (h : minRateRequire setup bound s = .ok s') :
    s' = s := by
  simp only [minRateRequire, bind_eq_ok_iff, pure_eq_ok_iff] at h
  rcases h with ⟨-, -, -, -, rfl⟩
  rfl

theorem baseFeeAdjust_eq_ok {terms : GasAdjust} (h : baseFeeAdjust setup terms s = .ok s') :
    Change setup (.baseFeeAdjust terms) s s' := by
  simp only [baseFeeAdjust, bind_eq_ok_iff, requireSolved_eq_ok_iff] at h
  rcases h with ⟨-, hs, h⟩
  split at h
  · rw [pure_eq_ok_iff] at h
    subst h
    exact .idle rfl
  · cases hfixed : setup.query.fixed with
    | input =>
        have hunknown : setup.query.unknown = .output := by rw [Query.unknown, hfixed]; rfl
        simp only [hfixed, bind_eq_ok_iff, pure_eq_ok_iff] at h
        rcases h with ⟨most, -, rfl⟩
        rw [← hunknown]
        exact .compensated hs
    | output =>
        have hunknown : setup.query.unknown = .input := by rw [Query.unknown, hfixed]; rfl
        simp only [hfixed] at h
        split at h
        · rw [pure_eq_ok_iff] at h
          subst h
          exact .idle rfl
        · simp only [bind_eq_ok_iff, pure_eq_ok_iff] at h
          rcases h with ⟨product, -, costIn, -, most, -, amount, -, rfl⟩
          rw [← hunknown]
          exact .compensated hs

theorem invalidateBit_eq_ok {bit : UInt32} (h : invalidateBit setup bit s = .ok s') :
    Change setup (.invalidateBit bit) s s' := by
  simp only [invalidateBit, bind_eq_ok_iff, check_eq_ok_iff, pure_eq_ok_iff] at h
  rcases h with ⟨-, hclear, rfl⟩
  exact .marked (by simpa using hclear)

theorem extruction_eq_ok {logic : Address} {input : List UInt8}
    (h : extruction setup logic input s = .ok s') :
    Change setup (.extruction logic input) s s' := by
  unfold extruction at h
  simp only at h
  split at h
  · cases h
  · split at h
    · rw [pure_eq_ok_iff] at h
      subst h
      exact .answered s.next
    · rcases jump_eq_ok h with ⟨next, rfl⟩
      exact .answered next

theorem setsBalances_eq_ok {offset : Nat} {i : Instruction} (hi : i.setsBalances = true)
    (h : execute setup offset i s = .ok s') :
    s.solved = false ∧ ∃ balanceIn balanceOut, s' = s.setBalances balanceIn balanceOut := by
  cases i with
  | staticBalances balances => exact staticBalances_eq_ok h
  | externalBalances => exact externalBalances_eq_ok h
  | growLiquidity deltas => exact grow_eq_ok h
  | growPriceRange lower higher => exact grow_eq_ok h
  | auction leg terms => exact auction_eq_ok h
  | valuationStatic valuation => exact valuationStatic_eq_ok h
  | valuationOracle oracle =>
      rw [execute] at h
      exact valuationOracle_eq_ok h
  | valuationFresh oracle maxAge =>
      rw [execute] at h
      exact valuationOracle_eq_ok h
  | valuationBounded oracle maxAge maxDelta =>
      rw [execute] at h
      exact valuationOracle_eq_ok h
  | _ => cases hi

/-- Every instruction that succeeds makes one of the changes. -/
theorem execute_eq_ok {offset : Nat} {i : Instruction} (h : execute setup offset i s = .ok s') :
    Change setup i s s' := by
  cases hi : i.setsBalances with
  | true =>
      rcases setsBalances_eq_ok hi h with ⟨hs, balanceIn, balanceOut, rfl⟩
      exact .repriced hi hs
  | false =>
      cases i with
      | jump destination =>
          rcases jump_eq_ok h with ⟨next, rfl⟩
          exact .moved rfl next
      | jumpIfAsset leg asset destination =>
          rcases jumpIfAsset_eq_ok h with ⟨next, rfl⟩
          exact .moved rfl next
      | deadline last =>
          cases deadline_eq_ok h
          exact .idle rfl
      | takerBalance asset least =>
          cases takerBalance_eq_ok h
          exact .idle rfl
      | takerShare asset least =>
          cases takerShare_eq_ok h
          exact .idle rfl
      | salt bytes =>
          cases h
          exact .idle rfl
      | dynamicBalances balances => exact dynamicBalances_eq_ok h
      | solve => exact solve_eq_ok h
      | decay period => exact decay_eq_ok h
      | twap terms => exact sale_eq_ok h
      | flatFee leg rate => exact flatFee_eq_ok h
      | progressiveFee leg terms => exact progressiveFee_eq_ok h
      | protocolFee leg rate recipient => exact protocolFee_eq_ok h
      | minRateAdjust bound => exact minRateAdjust_eq_ok h
      | minRateRequire bound =>
          cases minRateRequire_eq_ok h
          exact .idle rfl
      | baseFeeAdjust terms => exact baseFeeAdjust_eq_ok h
      | invalidateBit bit => exact invalidateBit_eq_ok h
      | fillCap leg cap =>
          cases h
          exact .capped
      | extruction logic input => exact extruction_eq_ok h
      | _ => cases hi

/-!
# Settlements
-/

/-- What a settled fee leaves owed to its recipient. -/
def owing (setup : Setup) (leg : Leg) (recipient : Option Address) (fee : UInt64) :
    List ProtocolFee :=
  match recipient with
  | none => []
  | some recipient => if fee = 0 then [] else [⟨recipient, setup.query.asset leg, fee⟩]

/-- What a settlement does to a state. -/
inductive Settled (setup : Setup) : Settlement → State → State → Prop where
  | stored {balanceIn balanceOut newIn newOut : UInt64} {s : State}
      (hin : newIn.toNat = balanceIn.toNat + s.registers.amountIn.toNat)
      (hout : newOut.toNat + s.registers.amountOut.toNat = balanceOut.toNat) :
      Settled setup (.balances balanceIn balanceOut) s
        (s.write setup.query.mode fun j =>
          (j.setBalance setup.program.id setup.query.assetIn newIn).setBalance
            setup.program.id setup.query.assetOut newOut)
  | shifted {period : UInt32} {locked restored : DecayOffset} {s : State} :
      Settled setup (.decay period) s
        (s.write setup.query.mode fun j =>
          (j.setOffset setup.program.id ⟨setup.query.assetIn, .output⟩ locked).setOffset
            setup.program.id ⟨setup.query.assetOut, .input⟩ restored)
  | sold {offset : UInt64} {terms : Sale} {prior progress : SaleState} {s : State}
      (hleast : terms.minTradeOut ≤ s.registers.amountOut)
      (hsold : progress.sold.toNat = prior.sold.toNat + s.registers.amountOut.toNat)
      (hlast : progress.lastFill = some setup.environment.now) :
      Settled setup (.sale offset terms prior) s
        (s.write setup.query.mode fun j => j.setSale setup.program.id offset progress)
  | charged {op : Opcode} {leg : Leg} {rate fee amount : UInt64} {carried : Option UInt64}
      {recipient : Option Address} {s : State}
      (h : settledFee leg rate carried (s.registers.amount leg) = .ok (fee, amount)) :
      Settled setup (.fee op leg rate carried recipient) s
        { s.setAmount leg amount with
          protocolFees := s.protocolFees ++ owing setup leg recipient fee }
  | filled {leg : Leg} {cap : UInt64} {s : State}
      (hcap : (s.journal.filled setup.program.id ⟨setup.query.asset leg, leg⟩).toNat +
        (s.registers.amount leg).toNat ≤ cap.toNat) :
      Settled setup (.fillCap leg cap) s
        (s.write setup.query.mode fun j =>
          j.setFilled setup.program.id ⟨setup.query.asset leg, leg⟩
            (s.journal.filled setup.program.id ⟨setup.query.asset leg, leg⟩ +
              s.registers.amount leg))

theorem settleBalances_eq_ok {balanceIn balanceOut : UInt64}
    (h : settleBalances setup balanceIn balanceOut s = .ok s') :
    Settled setup (.balances balanceIn balanceOut) s s' := by
  simp only [settleBalances, bind_eq_ok_iff, calculate_eq_ok_iff, Arithmetic.gain_eq_ok_iff,
    Arithmetic.drain_eq_ok_iff, pure_eq_ok_iff] at h
  rcases h with ⟨newIn, hin, newOut, ⟨hle, rfl⟩, rfl⟩
  exact .stored hin (Arithmetic.toNat_sub_add hle)

theorem settleDecay_eq_ok {period : UInt32} (h : settleDecay setup period s = .ok s') :
    Settled setup (.decay period) s s' := by
  simp only [settleDecay, bind_eq_ok_iff, pure_eq_ok_iff] at h
  rcases h with ⟨locked, -, restored, -, rfl⟩
  exact .shifted

theorem settleSale_eq_ok {offset : UInt64} {terms : Sale} {prior : SaleState}
    (h : settleSale setup offset terms prior s = .ok s') :
    Settled setup (.sale offset terms prior) s s' := by
  simp only [settleSale, bind_eq_ok_iff, check_eq_ok_iff, calculate_eq_ok_iff,
    Arithmetic.gain_eq_ok_iff, pure_eq_ok_iff] at h
  rcases h with ⟨-, hleast, sold, hsold, rfl⟩
  exact .sold hleast hsold rfl

theorem settleFee_of_settledFee {op : Opcode} {leg : Leg} {rate fee amount : UInt64}
    {carried : Option UInt64} (recipient : Option Address)
    (h : settledFee leg rate carried (s.registers.amount leg) = .ok (fee, amount)) :
    settleFee setup op leg rate carried recipient s =
      .ok { s.setAmount leg amount with
        protocolFees := s.protocolFees ++ owing setup leg recipient fee } := by
  have hfee : calculate op (settledFee leg rate carried (s.registers.amount leg)) =
      .ok (fee, amount) := calculate_eq_ok_iff.mpr h
  rw [settleFee, hfee, ok_bind]
  cases recipient with
  | none =>
      rw [owing, List.append_nil]
      rfl
  | some recipient =>
      by_cases hzero : fee = 0
      · rw [owing, if_pos hzero, List.append_nil]
        simp only [hzero, if_true]
        rfl
      · rw [owing, if_neg hzero]
        simp only [hzero, if_false]
        rfl

theorem settleFee_eq_ok {op : Opcode} {leg : Leg} {rate : UInt64} {carried : Option UInt64}
    {recipient : Option Address}
    (h : settleFee setup op leg rate carried recipient s = .ok s') :
    Settled setup (.fee op leg rate carried recipient) s s' := by
  cases hfee : settledFee leg rate carried (s.registers.amount leg) with
  | error reason =>
      rw [settleFee, hfee] at h
      cases h
  | ok settled =>
      rw [settleFee_of_settledFee recipient hfee] at h
      cases h
      exact .charged hfee

theorem settleFillCap_eq_ok {leg : Leg} {cap : UInt64}
    (h : settleFillCap setup leg cap s = .ok s') : Settled setup (.fillCap leg cap) s s' := by
  simp only [settleFillCap, bind_eq_ok_iff, check_eq_ok_iff, pure_eq_ok_iff] at h
  rcases h with ⟨-, hcap, rfl⟩
  exact .filled hcap

/-- Every settlement that succeeds makes one of the changes. -/
theorem settle_eq_ok {work : Settlement} (h : settle setup work s = .ok s') :
    Settled setup work s s' := by
  cases work with
  | balances balanceIn balanceOut => exact settleBalances_eq_ok h
  | decay period => exact settleDecay_eq_ok h
  | sale offset terms prior => exact settleSale_eq_ok h
  | fee op leg rate carried recipient => exact settleFee_eq_ok h
  | fillCap leg cap => exact settleFillCap_eq_ok h

end Machine
end SwapPricing
