import SwapPricing.Proofs.RateBounds

/-!
# Payouts and reserves

Solving never asks for all of the reserve that a trade is priced against.  The
output only grows again where gas costs are given back on a fixed input, each
time by no more than the extra cost and the agreed share of the output.
-/

namespace SwapPricing

/-- The terms on which an instruction gives gas costs back. -/
def Operation.gas? : Instruction → Option GasAdjust
  | baseFeeAdjust terms => some terms
  | _ => none

namespace Machine

open Arithmetic (bps)

/-!
# Limits on payouts
-/

/-- An output of `amount` with gas costs given back on the given terms. -/
def paidWithGas (baseFee : UInt64) (amount : Nat) (terms : GasAdjust) : Nat :=
  amount + min (extraCost terms baseFee).toNat (amount * terms.cap.toNat / bps)

/-- An output of `amount` with gas costs given back again and again. -/
def payoutLimit (baseFee : UInt64) (gas : List GasAdjust) (amount : Nat) : Nat :=
  gas.foldl (paidWithGas baseFee) amount

theorem le_payoutLimit (baseFee : UInt64) (gas : List GasAdjust) (amount : Nat) :
    amount ≤ payoutLimit baseFee gas amount := by
  induction gas generalizing amount with
  | nil => exact Nat.le_refl amount
  | cons terms rest ih => exact Nat.le_trans (Nat.le_add_right _ _) (ih _)

theorem payoutLimit_append (baseFee : UInt64) (gas more : List GasAdjust) (amount : Nat) :
    payoutLimit baseFee (gas ++ more) amount =
      payoutLimit baseFee more (payoutLimit baseFee gas amount) :=
  List.foldl_append

theorem paidWithGas_mono (baseFee : UInt64) (terms : GasAdjust) {amount larger : Nat}
    (h : amount ≤ larger) :
    paidWithGas baseFee amount terms ≤ paidWithGas baseFee larger terms := by
  have hshare : amount * terms.cap.toNat / bps ≤ larger * terms.cap.toNat / bps :=
    Nat.div_le_div_right (Nat.mul_le_mul_right _ h)
  unfold paidWithGas
  omega

/-- A base fee within the reference costs nothing extra. -/
theorem extraCost_eq_zero {terms : GasAdjust} {baseFee : UInt64} (h : baseFee ≤ terms.baseFee) :
    extraCost terms baseFee = 0 := by
  have hexcess : baseFee.toNat - terms.baseFee.toNat = 0 :=
    Nat.sub_eq_zero_of_le (UInt64.le_iff_toNat_le.mp h)
  simp [extraCost, hexcess]

theorem paidWithGas_eq_self {terms : GasAdjust} {baseFee : UInt64} (h : baseFee ≤ terms.baseFee)
    (amount : Nat) : paidWithGas baseFee amount terms = amount := by
  unfold paidWithGas
  rw [extraCost_eq_zero h]
  exact Nat.add_eq_left.mpr (Nat.zero_min _)

/-- Without a base fee above the references, nothing is added to an output. -/
theorem payoutLimit_eq_self {is : List Instruction} {baseFee : UInt64}
    (h : ∀ i ∈ is, i.compensates baseFee = false) (amount : Nat) :
    payoutLimit baseFee (is.filterMap Operation.gas?) amount = amount := by
  induction is with
  | nil => rfl
  | cons i rest ih =>
      rcases List.forall_mem_cons.mp h with ⟨hfirst, hothers⟩
      cases hgas : i.gas? with
      | none =>
          rw [List.filterMap_cons_none hgas]
          exact ih hothers
      | some terms =>
          have hi : i = .baseFeeAdjust terms := by
            cases i with
            | baseFeeAdjust given =>
                cases hgas
                rfl
            | _ => cases hgas
          subst hi
          have hle : baseFee ≤ terms.baseFee := UInt64.not_lt.mp (of_decide_eq_false hfirst)
          rw [List.filterMap_cons_some hgas]
          show payoutLimit baseFee _ (paidWithGas baseFee amount terms) = amount
          rw [paidWithGas_eq_self hle]
          exact ih hothers

/-!
# Trades within the reserve
-/

/-- The output in `r` is what the reserve allows, with the gas costs given back
so far. -/
structure WithinReserve (setup : Setup) (gas : List GasAdjust) (r : Registers) : Prop where
  reserve : 0 < r.balanceOut.toNat
  limited : r.amountOut.toNat ≤
    payoutLimit setup.environment.baseFee gas (r.balanceOut.toNat - 1)
  fixed : setup.query.fixed = .output → r.amountOut < r.balanceOut

namespace WithinReserve

variable {setup : Setup} {gas : List GasAdjust} {r r' : Registers}

theorem of_lt (gas : List GasAdjust) (h : r.amountOut.toNat < r.balanceOut.toNat) :
    WithinReserve setup gas r where
  reserve := Nat.zero_lt_of_lt h
  limited := Nat.le_trans (Nat.le_sub_one_of_lt h) (le_payoutLimit _ _ _)
  fixed _ := UInt64.lt_iff_toNat_lt.mpr h

theorem more (h : WithinReserve setup gas r) (others : List GasAdjust) :
    WithinReserve setup (gas ++ others) r where
  reserve := h.reserve
  limited := by
    rw [payoutLimit_append]
    exact Nat.le_trans h.limited (le_payoutLimit _ _ _)
  fixed := h.fixed

theorem lower (h : WithinReserve setup gas r) (hbalance : r'.balanceOut = r.balanceOut)
    (hle : r'.amountOut ≤ r.amountOut) : WithinReserve setup gas r' := by
  have hnat := UInt64.le_iff_toNat_le.mp hle
  constructor
  · rw [hbalance]
    exact h.reserve
  · rw [hbalance]
    exact Nat.le_trans hnat h.limited
  · intro hfixed
    rw [hbalance]
    have hlt := UInt64.lt_iff_toNat_lt.mp (h.fixed hfixed)
    exact UInt64.lt_iff_toNat_lt.mpr (Nat.lt_of_le_of_lt hnat hlt)

/-- Gas costs that are given back are bounded by their terms on a fixed input,
and leave a fixed output alone. -/
theorem compensated {s s' : State} {terms : GasAdjust}
    (h : baseFeeAdjust setup terms s = .ok s') (hs : WithinReserve setup gas s.registers) :
    WithinReserve setup (gas ++ [terms]) s'.registers := by
  simp only [baseFeeAdjust, bind_eq_ok_iff] at h
  rcases h with ⟨-, -, h⟩
  split at h
  · rw [pure_eq_ok_iff] at h
    subst h
    exact hs.more [terms]
  · cases hfixed : setup.query.fixed with
    | input =>
        simp only [hfixed, bind_eq_ok_iff, calculate_eq_ok_iff, Arithmetic.mulDivFloor_eq_ok_iff,
          pure_eq_ok_iff] at h
        rcases h with ⟨most, ⟨-, hmost⟩, rfl⟩
        refine ⟨hs.reserve, ?_, fun h => absurd (hfixed.symm.trans h) (by decide)⟩
        have hshare : most.toNat = s.registers.amountOut.toNat * terms.cap.toNat / bps := by
          rw [hmost]
          rfl
        have hgiven : (min (extraCost terms setup.environment.baseFee) most).toNat ≤
            min (extraCost terms setup.environment.baseFee).toNat most.toNat :=
          Nat.le_min.mpr ⟨UInt64.le_iff_toNat_le.mp Std.min_le_left,
            UInt64.le_iff_toNat_le.mp Std.min_le_right⟩
        rw [payoutLimit_append]
        refine Nat.le_trans ?_ (paidWithGas_mono _ terms hs.limited)
        rw [hshare] at hgiven
        refine Nat.le_trans (Nat.le_trans (Nat.mod_le _ _) (Nat.min_le_left _ _)) ?_
        exact Nat.add_le_add_left hgiven _
    | output =>
        simp only [hfixed] at h
        split at h
        · rw [pure_eq_ok_iff] at h
          subst h
          exact hs.more [terms]
        · simp only [bind_eq_ok_iff, pure_eq_ok_iff] at h
          rcases h with ⟨product, -, costIn, -, most, -, amount, -, rfl⟩
          exact (hs.more [terms]).lower rfl (UInt64.le_refl _)

end WithinReserve

/-!
# Runs
-/

theorem solved_opening {setup : Setup} {op : Opcode} {leg : Leg} {rate : UInt64}
    {recipient : Option Address} {s s' : State} (h : Opening setup op leg rate recipient s s') :
    s'.solved = s.solved := by
  cases h <;> rfl

/-- Between records: a solved trade is within the reserve, with the gas costs
given back so far. -/
def Reserved (setup : Setup) (gas : List GasAdjust) (s : State) : Prop :=
  s.solved = true → WithinReserve setup gas s.registers

namespace Reserved

variable {setup : Setup} {gas : List GasAdjust} {s s' : State}

/-- Fees are only opened in front of the solution. -/
theorem steady (setup : Setup) (gas : List GasAdjust) : Steady setup (Reserved setup gas) where
  advance _ _ hs := hs
  release hs := hs
  opening hunsolved h _ hsolved := by
    have hstill := (solved_opening h).symm.trans hsolved
    exact absurd (hunsolved.symm.trans hstill) (by decide)

theorem execute {offset : Nat} {i : Instruction} (hexternal : i.opcode ≠ .extruction)
    (h : Machine.execute setup offset i s = .ok s') (hs : Reserved setup gas s) :
    Reserved setup (gas ++ i.gas?.toList) s' := by
  intro hsolved
  have hchange := execute_eq_ok h
  cases hchange with
  | idle hidle => exact (hs hsolved).more _
  | moved hjump next => exact (hs hsolved).more _
  | repriced hi hunsolved => exact absurd (hunsolved.symm.trans hsolved) (by decide)
  | loaded hunsolved hin hout => exact absurd (hunsolved.symm.trans hsolved) (by decide)
  | faded hunsolved hin hout => exact absurd (hunsolved.symm.trans hsolved) (by decide)
  | offered hunsolved => exact absurd (hunsolved.symm.trans hsolved) (by decide)
  | opened hi hunsolved hopening =>
      have hstill := (solved_opening hopening).symm.trans hsolved
      exact absurd (hunsolved.symm.trans hstill) (by decide)
  | held hunsolved => exact absurd (hunsolved.symm.trans hsolved) (by decide)
  | solvedOutput hunsolved hfixed hquote =>
      exact .of_lt _ (Arithmetic.product_le_of_quoteExactIn hquote).1
  | solvedInput hunsolved hfixed hquote =>
      exact .of_lt _ (Arithmetic.product_le_of_quoteExactOut hquote).1
  | lowered hbefore hfixed hle =>
      refine ((hs hbefore).lower ?_ ?_).more _
      · rfl
      · exact hle
  | lifted hbefore hfixed hle =>
      refine ((hs hbefore).lower ?_ ?_).more _
      · rfl
      · exact UInt64.le_refl _
  | compensated hbefore => exact (hs hbefore).compensated h
  | marked hclear =>
      rw [State.solved_write] at hsolved
      rw [State.registers_write]
      exact (hs hsolved).more _
  | capped => exact (hs hsolved).more _
  | answered => exact absurd rfl hexternal

theorem step {r : Record} (hexternal : r.opcode ≠ .extruction)
    (h : Machine.step setup r s = .ok s') (hs : Reserved setup gas s) :
    Reserved setup (gas ++ r.instruction.gas?.toList) s' := by
  rcases step_eq_ok h with ⟨t, henter, hexecute⟩
  exact ((steady setup gas).enter henter hs).execute hexternal hexecute

theorem ran (hexternal : ∀ r ∈ setup.program.records, r.opcode ≠ .extruction) {left : Nat}
    (h : Ran setup left s s') (hs : Reserved setup gas s) :
    Reserved setup (gas ++ (executedFrom setup left s).filterMap Operation.gas?) s' := by
  induction h generalizing gas with
  | finished hend =>
      rw [executedFrom_none _ hend, List.filterMap_nil, List.append_nil]
      exact hs
  | stepped hr hstep hrest ih =>
      have hnext := ih (hs.step (hexternal _ (Array.mem_of_getElem? hr)) hstep)
      rw [executedFrom_step hr hstep, ← List.singleton_append, List.filterMap_append,
        ← List.append_assoc]
      rename_i left r s t s'
      have hfirst : [r.instruction].filterMap Operation.gas? = r.instruction.gas?.toList := by
        cases hgas : r.instruction.gas? <;> simp [hgas]
      rw [hfirst]
      exact hnext

end Reserved

/-- A run ends within the reserve, with the gas costs that it gave back. -/
theorem withinReserve_of_run {setup : Setup}
    (hexternal : ∀ r ∈ setup.program.records, r.opcode ≠ .extruction) {limit : UInt32}
    {store : Order.Store} {s : State} (h : run setup limit store = .ok s) :
    WithinReserve setup ((executed setup limit store).filterMap Operation.gas?) s.registers := by
  rw [executed_eq]
  generalize hgas : (executedFrom setup limit.toNat (State.initial setup.query store)).filterMap
    Operation.gas? = gas
  refine registers_of_run (P := WithinReserve setup gas) ?_ (Reserved.steady setup gas) ?_
    hexternal h ?_
  · exact fun hfavoured hwithin => hwithin.lower hfavoured.balanceOut hfavoured.output
  · exact fun hsolved hreserved => hreserved hsolved
  · intro stepped hran
    have hstart : Reserved setup [] (State.initial setup.query store) := by
      intro hsolved
      cases hsolved
    exact hgas ▸ hstart.ran hexternal hran

/-!
# Quotes and swaps
-/

/-- The output of `o` comes out of the reserve that it is priced against, up to
the gas costs that the run gives back. -/
structure Payable (setup : Setup) (limit : UInt32) (store : Order.Store) (o : Outcome) :
    Prop where
  reserve : 0 < o.registers.balanceOut.toNat
  limited : o.amountOut.toNat ≤
    payoutLimit setup.environment.baseFee
      ((executed setup limit store).filterMap Operation.gas?) (o.registers.balanceOut.toNat - 1)
  /-- A fixed output is below the reserve, and so is one without such costs. -/
  below : (setup.query.fixed = .output ∨
      ∀ i ∈ executed setup limit store, i.compensates setup.environment.baseFee = false) →
    o.amountOut < o.registers.balanceOut

theorem payable_of_run {setup : Setup}
    (hexternal : ∀ r ∈ setup.program.records, r.opcode ≠ .extruction) {limit : UInt32}
    {store : Order.Store} {s : State} (h : run setup limit store = .ok s) :
    Payable setup limit store (.ofState s) := by
  have hwithin := withinReserve_of_run hexternal h
  refine ⟨hwithin.reserve, hwithin.limited, ?_⟩
  rintro (hfixed | hplain)
  · exact hwithin.fixed hfixed
  · have hlimited := hwithin.limited
    rw [payoutLimit_eq_self hplain] at hlimited
    have hreserve := hwithin.reserve
    show s.registers.amountOut < s.registers.balanceOut
    exact UInt64.lt_iff_toNat_lt.mpr (by omega)

/-- Nothing is paid beyond the reserve but gas costs, and those only on a fixed
input. -/
theorem payout_within_reserve {program : Program}
    (hexternal : ∀ r ∈ program.records, r.opcode ≠ .extruction) (query : Query)
    (environment : Environment) (external : ExternalLogic) (limit : UInt32) (store : Order.Store)
    (o : Outcome) :
    (quote program query environment limit store = .ok o →
      Payable ⟨program, query, environment, environment.quoteExternal⟩ limit store o) ∧
    ((swap program query environment external limit store).1 = .ok o →
      Payable ⟨program, query, environment, external⟩ limit store o) := by
  constructor
  · intro hquote
    rcases quote_eq_ok_iff.mp hquote with ⟨-, s, hrun, rfl⟩
    exact payable_of_run hexternal hrun
  · intro hswap
    rcases swap_eq_ok hswap with ⟨-, s, hrun, rfl⟩
    exact payable_of_run hexternal hrun

def rebatingBytes : List UInt8 :=
  Operation.recorded 7 (.staticBalances [(.single 65, 1000), (.single 66, 1000)]) ++
    Operation.recorded 10 .solve ++
    Operation.recorded 25 (.baseFeeAdjust ⟨10, 1000, 1000000000000000000, 200⟩)

/-- A small pool that gives back gas costs worth up to a fiftieth of the output. -/
def rebatingPool : Program where
  id := .single 80
  bytes := rebatingBytes.toArray
  records := #[⟨0, .staticBalances [(.single 65, 1000), (.single 66, 1000)]⟩, ⟨82, .solve⟩,
    ⟨84, .baseFeeAdjust ⟨10, 1000, 1000000000000000000, 200⟩⟩]

/-- A host whose base fee is just above the reference of the pool. -/
def busyHost : Environment :=
  { Observations.atTime 100 with baseFee := 11 }.environment

theorem payout_within_rebating_reserve :
    quote rebatingPool (.simulated .output (.single 65) (.single 66) 500) busyHost 16 .empty =
      .ok ⟨⟨1000, 1000, 980, 500⟩, [], 3⟩ ∧
    500 < (1000 : UInt64) ∧
    quote rebatingPool (.simulated .input (.single 65) (.single 66) 4000) busyHost 16 .empty =
      .ok ⟨⟨1000, 1000, 4000, 816⟩, [], 3⟩ ∧
    816 ≤ payoutLimit 11 [⟨10, 1000, 1000000000000000000, 200⟩] 999 := by
  have hout : quote rebatingPool (.simulated .output (.single 65) (.single 66) 500) busyHost 16
      .empty = .ok ⟨⟨1000, 1000, 980, 500⟩, [], 3⟩ := rfl
  have hin : quote rebatingPool (.simulated .input (.single 65) (.single 66) 4000) busyHost 16
      .empty = .ok ⟨⟨1000, 1000, 4000, 816⟩, [], 3⟩ := rfl
  have hplain : ∀ r ∈ rebatingPool.records, r.opcode ≠ .extruction := by decide
  exact ⟨hout, ((payout_within_reserve hplain _ _ .absent _ _ _).1 hout).below (.inl rfl), hin,
    ((payout_within_reserve hplain _ _ .absent _ _ _).1 hin).limited⟩

/-- The output comes close to the reserve before the gas costs are added. -/
theorem payout_exceeds_reserve :
    Program.decode .full (.single 80) rebatingBytes = .ok rebatingPool ∧
    (∀ r ∈ rebatingPool.records, r.opcode ≠ .extruction) ∧
    quote rebatingPool (.simulated .input (.single 65) (.single 66) 200000) busyHost 16 .empty =
      .ok ⟨⟨1000, 1000, 200000, 1014⟩, [], 3⟩ ∧
    ¬ (1014 : UInt64) < 1000 := by
  refine ⟨?_, by decide, rfl, by decide⟩
  cbv

end Machine
end SwapPricing
