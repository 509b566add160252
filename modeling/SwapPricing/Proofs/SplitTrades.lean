import Mathlib
import SwapPricing.Proofs.Lockstep
import SwapPricing.Proofs.StoredBalances

/-!
# Trades in parts

A pool of stored balances that solves trades and does nothing else prices every
part of a trade against the balances that the parts in front of it have left.
Each part rounds in the maker's favour, and none of it is lost: the product of
the balances behind all parts is at least the one in front of them.  One trade
of the same size is priced by exactly that product.
-/

namespace SwapPricing

/-- The program loads stored balances, solves the trade and does nothing else. -/
def Program.IsPool (program : Program) (entries : Entries) : Prop :=
  program.records.toList.map Record.instruction = [.dynamicBalances entries, .solve]

theorem Program.IsPool.toList_records {program : Program} {entries : Entries}
    (h : program.IsPool entries) :
    ∃ first second, program.records.toList =
      [⟨first, .dynamicBalances entries⟩, ⟨second, .solve⟩] := by
  unfold Program.IsPool at h
  rcases List.map_eq_cons_iff.mp h with ⟨⟨first, i⟩, rest, hrecords, hi, hrest⟩
  rcases List.map_eq_cons_iff.mp hrest with ⟨⟨second, j⟩, more, hmore, hj, hnil⟩
  cases hi
  cases hj
  rw [hmore, List.map_eq_nil_iff.mp hnil] at hrecords
  exact ⟨first, second, hrecords⟩

namespace Machine

open Arithmetic (quoteExactIn quoteExactOut gain drain)

/-!
# One trade
-/

/-- Both amounts of a trade of `amount` on the leg `fixed` against two balances. -/
def PoolTrade (fixed : Leg) (amount balanceIn balanceOut amountIn amountOut : UInt64) : Prop :=
  match fixed with
  | .input => amountIn = amount ∧ quoteExactIn balanceIn balanceOut amountIn = .ok amountOut
  | .output => amountOut = amount ∧ quoteExactOut balanceIn balanceOut amountOut = .ok amountIn

theorem PoolTrade.product_le {fixed : Leg} {amount balanceIn balanceOut amountIn amountOut : UInt64}
    (h : PoolTrade fixed amount balanceIn balanceOut amountIn amountOut) :
    amountOut.toNat < balanceOut.toNat ∧
      balanceIn.toNat * balanceOut.toNat ≤
        (balanceIn.toNat + amountIn.toNat) * (balanceOut.toNat - amountOut.toNat) := by
  cases fixed with
  | input => exact Arithmetic.product_le_of_quoteExactIn h.2
  | output => exact Arithmetic.product_le_of_quoteExactOut h.2

theorem PoolTrade.balances_ne_zero {fixed : Leg}
    {amount balanceIn balanceOut amountIn amountOut : UInt64}
    (h : PoolTrade fixed amount balanceIn balanceOut amountIn amountOut) :
    balanceIn ≠ 0 ∧ balanceOut ≠ 0 := by
  constructor
  · cases fixed with
    | input => exact (Arithmetic.quoteExactIn_eq_ok_iff.mp h.2).1
    | output => exact (Arithmetic.quoteExactOut_eq_ok_iff.mp h.2).1
  · rintro rfl
    exact absurd h.product_le.1 (Nat.not_lt_zero _)

section Pools

variable {setup : Setup} {entries : Entries} {limit : UInt32} {store : Order.Store} {s : State}
  {balanceIn balanceOut : UInt64}

/-- The state behind the balances of a pool. -/
def loadedState (query : Query) (store : Order.Store) (balanceIn balanceOut : UInt64) : State :=
  { State.initial query store with
    registers := (Registers.seeded query).setBalances balanceIn balanceOut
    settlements := [.balances balanceIn balanceOut]
    next := 1
    steps := 1 }

/-- The state behind the records of a pool. -/
def tradedState (query : Query) (store : Order.Store) (r : Registers) : State :=
  { State.initial query store with
    registers := r
    solved := true
    settlements := [.balances r.balanceIn r.balanceOut]
    next := 2
    steps := 2 }

theorem step_dynamicBalances_iff {offset : Nat} :
    step setup ⟨offset, .dynamicBalances entries⟩ (State.initial setup.query store) = .ok s ↔
      ∃ balanceIn balanceOut,
        held? setup.program.id entries store setup.query.assetIn = some balanceIn ∧
        held? setup.program.id entries store setup.query.assetOut = some balanceOut ∧
        s = loadedState setup.query store balanceIn balanceOut := by
  have hstep : step setup ⟨offset, .dynamicBalances entries⟩ (State.initial setup.query store) =
      dynamicBalances setup entries
        { State.initial setup.query store with next := 1, steps := 1 } := rfl
  rw [hstep]
  unfold dynamicBalances
  simp only [bind_eq_ok_iff, requireUnsolved_eq_ok_iff, demand_eq_ok_iff, pure_eq_ok_iff]
  constructor
  · rintro ⟨-, -, balanceIn, hin, balanceOut, hout, rfl⟩
    exact ⟨balanceIn, balanceOut, hin, hout, rfl⟩
  · rintro ⟨balanceIn, balanceOut, hin, hout, rfl⟩
    exact ⟨(), rfl, balanceIn, hin, balanceOut, hout, rfl⟩

theorem step_solve_iff {offset : Nat} :
    step setup ⟨offset, .solve⟩ (loadedState setup.query store balanceIn balanceOut) = .ok s ↔
      ∃ amountIn amountOut,
        PoolTrade setup.query.fixed setup.query.amount balanceIn balanceOut amountIn amountOut ∧
        s = tradedState setup.query store ⟨balanceIn, balanceOut, amountIn, amountOut⟩ := by
  have hstep : step setup ⟨offset, .solve⟩ (loadedState setup.query store balanceIn balanceOut) =
      solve setup { loadedState setup.query store balanceIn balanceOut with
        next := 2, steps := 2 } := rfl
  rw [hstep]
  unfold solve PoolTrade Query.unknown
  simp only [bind_eq_ok_iff, requireUnsolved_eq_ok_iff, calculate_eq_ok_iff, pure_eq_ok_iff]
  cases hfixed : setup.query.fixed with
  | input =>
      have hseeded : Registers.seeded setup.query = ⟨0, 0, setup.query.amount, 0⟩ := by
        unfold Registers.seeded
        rw [hfixed]
        rfl
      constructor
      · rintro ⟨-, -, amountOut, hquote, rfl⟩
        simp only [loadedState, hseeded] at hquote ⊢
        exact ⟨setup.query.amount, amountOut, ⟨rfl, hquote⟩, rfl⟩
      · rintro ⟨amountIn, amountOut, ⟨rfl, hquote⟩, rfl⟩
        simp only [loadedState, hseeded]
        exact ⟨(), rfl, amountOut, hquote, rfl⟩
  | output =>
      have hseeded : Registers.seeded setup.query = ⟨0, 0, 0, setup.query.amount⟩ := by
        unfold Registers.seeded
        rw [hfixed]
        rfl
      constructor
      · rintro ⟨-, -, amountIn, hquote, rfl⟩
        simp only [loadedState, hseeded] at hquote ⊢
        exact ⟨amountIn, setup.query.amount, ⟨rfl, hquote⟩, rfl⟩
      · rintro ⟨amountIn, amountOut, ⟨rfl, hquote⟩, rfl⟩
        simp only [loadedState, hseeded]
        exact ⟨(), rfl, amountIn, hquote, rfl⟩

/-- A trade of a pool: the balances are those held, the amounts are those of the
pool, and the balances afterwards can be stored. -/
structure Traded (setup : Setup) (entries : Entries) (store : Order.Store) (r : Registers)
    (newIn newOut : UInt64) : Prop where
  input : held? setup.program.id entries store setup.query.assetIn = some r.balanceIn
  output : held? setup.program.id entries store setup.query.assetOut = some r.balanceOut
  trade : PoolTrade setup.query.fixed setup.query.amount r.balanceIn r.balanceOut r.amountIn
    r.amountOut
  newIn_eq : gain r.balanceIn r.amountIn = .ok newIn
  newOut_eq : drain r.balanceOut r.amountOut = .ok newOut

/-- The state that a trade of a pool ends in. -/
def storedState (setup : Setup) (store : Order.Store) (r : Registers) (newIn newOut : UInt64) :
    State :=
  State.write { tradedState setup.query store r with settlements := [] } setup.query.mode fun j =>
    (j.setBalance setup.program.id setup.query.assetIn newIn).setBalance setup.program.id
      setup.query.assetOut newOut

theorem close_tradedState_iff {r : Registers} :
    close setup (tradedState setup.query store r) = .ok s ↔
      ∃ newIn newOut, gain r.balanceIn r.amountIn = .ok newIn ∧
        drain r.balanceOut r.amountOut = .ok newOut ∧
        s = storedState setup store r newIn newOut := by
  unfold close
  rw [finishSteps_of_solved rfl rfl, ok_bind]
  show (settleBalances setup r.balanceIn r.balanceOut
    { tradedState setup.query store r with settlements := [] } >>= Except.ok) = .ok s ↔ _
  simp only [settleBalances, bind_eq_ok_iff, calculate_eq_ok_iff, pure_eq_ok_iff,
    Except.ok.injEq]
  constructor
  · rintro ⟨-, ⟨newIn, hin, newOut, hout, rfl⟩, rfl⟩
    exact ⟨newIn, newOut, hin, hout, rfl⟩
  · rintro ⟨newIn, newOut, hin, hout, rfl⟩
    exact ⟨_, ⟨newIn, hin, newOut, hout, rfl⟩, rfl⟩

/-- A run that comes to its end has a step for every record that it cannot jump
over. -/
theorem size_le_of_ran {left : Nat} {s s' : State}
    (hstraight : ∀ r ∈ setup.program.records, r.instruction.isStraight = true)
    (h : Ran setup left s s') : setup.program.records.size ≤ s.next + left := by
  induction h with
  | finished hend =>
      have hsize := Array.getElem?_eq_none_iff.mp hend
      omega
  | stepped hr hstep hrest ih =>
      rw [next_step (hstraight _ (Array.mem_of_getElem? hr)) hstep] at ih
      omega

theorem size_le_of_run (hstraight : ∀ r ∈ setup.program.records, r.instruction.isStraight = true)
    (h : run setup limit store = .ok s) : setup.program.records.size ≤ limit.toNat := by
  rcases run_eq_ok h with ⟨stepped, finished, hsteps, -, -⟩
  have hle := size_le_of_ran hstraight (ran_of_runSteps hsteps)
  have hstart : (State.initial setup.query store).next = 0 := rfl
  rw [hstart, Nat.zero_add] at hle
  exact hle

theorem run_pool_eq_ok_iff (hpool : setup.program.IsPool entries) :
    run setup limit store = .ok s ↔
      2 ≤ limit.toNat ∧ ∃ r newIn newOut, Traded setup entries store r newIn newOut ∧
        s = storedState setup store r newIn newOut := by
  rcases hpool.toList_records with ⟨first, second, hrecords⟩
  have hsize : setup.program.records.size = 2 := by
    rw [← Array.length_toList, hrecords]
    rfl
  have hstraight : ∀ r ∈ setup.program.records, r.instruction.isStraight = true := by
    intro r hr
    rw [← Array.mem_toList_iff, hrecords] at hr
    simp only [List.mem_cons, List.not_mem_nil, or_false] at hr
    rcases hr with rfl | rfl
    · rfl
    · rfl
  have hrun (hlimit : 2 ≤ limit.toNat) : run setup limit store = .ok s ↔
      ∃ r newIn newOut, Traded setup entries store r newIn newOut ∧
        s = storedState setup store r newIn newOut := by
    rw [run_eq_foldlM hstraight (hsize ▸ hlimit), hrecords]
    simp only [List.foldlM_cons, List.foldlM_nil, bind_assoc, bind_eq_ok_iff, pure_eq_ok_iff,
      step_dynamicBalances_iff]
    constructor
    · rintro ⟨_, ⟨balanceIn, balanceOut, hin, hout, rfl⟩, _, hsolve, _, rfl, hclose⟩
      rcases step_solve_iff.mp hsolve with ⟨amountIn, amountOut, htrade, rfl⟩
      rcases close_tradedState_iff.mp hclose with ⟨newIn, newOut, hnewIn, hnewOut, rfl⟩
      exact ⟨_, newIn, newOut, ⟨hin, hout, htrade, hnewIn, hnewOut⟩, rfl⟩
    · rintro ⟨r, newIn, newOut, h, rfl⟩
      have hsolve : step setup ⟨second, .solve⟩
          (loadedState setup.query store r.balanceIn r.balanceOut) =
            .ok (tradedState setup.query store r) :=
        step_solve_iff.mpr ⟨r.amountIn, r.amountOut, h.trade, rfl⟩
      have hclose : close setup (tradedState setup.query store r) =
          .ok (storedState setup store r newIn newOut) :=
        close_tradedState_iff.mpr ⟨newIn, newOut, h.newIn_eq, h.newOut_eq, rfl⟩
      exact ⟨_, ⟨r.balanceIn, r.balanceOut, h.input, h.output, rfl⟩, _, hsolve, _, rfl, hclose⟩
  constructor
  · intro h
    have hlimit : 2 ≤ limit.toNat := hsize ▸ size_le_of_run hstraight h
    exact ⟨hlimit, (hrun hlimit).mp h⟩
  · rintro ⟨hlimit, h⟩
    exact (hrun hlimit).mpr h

end Pools

/-!
# Quotes and swaps of pools
-/

section Trades

variable {program : Program} {entries : Entries} {query : Query} {environment : Environment}
  {external : ExternalLogic} {limit : UInt32} {store : Order.Store}

theorem quote_of_traded (hpool : program.IsPool entries) (haccepted : Accepted query .simulate)
    (hlimit : 2 ≤ limit.toNat) {r : Registers} {newIn newOut : UInt64}
    (h : Traded ⟨program, query, environment, environment.quoteExternal⟩ entries store r newIn
      newOut) :
    quote program query environment limit store = .ok ⟨r, [], 2⟩ := by
  apply quote_eq_ok_iff.mpr
  refine ⟨haccepted, _, (run_pool_eq_ok_iff hpool).mpr ⟨hlimit, r, newIn, newOut, h, rfl⟩, ?_⟩
  unfold storedState
  rw [haccepted.mode_eq]
  rfl

/-- The balances behind a swap are those in front of the next one. -/
theorem traded_of_swap (hpool : program.IsPool entries) {o : Outcome}
    (h : (swap program query environment external limit store).1 = .ok o) :
    Accepted query .commit ∧ 2 ≤ limit.toNat ∧
      ∃ newIn newOut,
        Traded ⟨program, query, environment, external⟩ entries store o.registers newIn newOut ∧
        held? program.id entries (swap program query environment external limit store).2
          query.assetIn = some newIn ∧
        held? program.id entries (swap program query environment external limit store).2
          query.assetOut = some newOut := by
  rcases swap_eq_ok h with ⟨haccepted, s, hrun, rfl⟩
  rcases (run_pool_eq_ok_iff hpool).mp hrun with ⟨hlimit, r, newIn, newOut, htraded, hs⟩
  have hregisters : (Outcome.ofState s).registers = r := by
    rw [hs]
    exact State.registers_write _ _ _
  have hjournal : s.journal =
      ((Order.Journal.opened store).setBalance program.id query.assetIn newIn).setBalance
        program.id query.assetOut newOut := by
    rw [hs]
    unfold storedState
    rw [haccepted.mode_eq]
    rfl
  rw [swap_of_run_ok haccepted hrun, hregisters]
  refine ⟨haccepted, hlimit, newIn, newOut, htraded, ?_, ?_⟩
  · unfold held?
    rw [Order.Journal.balance?_commit, hjournal,
      Order.Journal.balance?_setBalance_of_ne _ _ haccepted.distinct,
      Order.Journal.balance?_setBalance_self]
    rfl
  · unfold held?
    rw [Order.Journal.balance?_commit, hjournal, Order.Journal.balance?_setBalance_self]
    rfl

end Trades

/-!
# Parts
-/

/-- A part of a trade, and the taker and the host that it meets. -/
structure Part where
  amount : UInt64
  taker : Address
  environment : Environment
  external : ExternalLogic

def Part.query (fixed : Leg) (assetIn assetOut : AssetId) (part : Part) : Query :=
  ((Query.simulated fixed assetIn assetOut part.amount).withTaker part.taker).committing

/-- The outcomes of the swaps of all parts, made one after another.  It fails as
soon as one of them does. -/
def swapAll (program : Program) (fixed : Leg) (assetIn assetOut : AssetId) (limit : UInt32) :
    List Part → Order.Store → Run (List Outcome)
  | [], _ => .ok []
  | part :: rest, store => do
      let placed := swap program (part.query fixed assetIn assetOut) part.environment
        part.external limit store
      let o ← placed.1
      let more ← swapAll program fixed assetIn assetOut limit rest placed.2
      return o :: more

/-- The sum of what was traded on a leg. -/
def totalOf (leg : Leg) (outcomes : List Outcome) : Nat :=
  (outcomes.map fun o => (o.registers.amount leg).toNat).sum

/-- The sum of what the parts fix. -/
def totalAmount (parts : List Part) : Nat :=
  (parts.map fun part => part.amount.toNat).sum

section Parts

variable {program : Program} {entries : Entries} {fixed : Leg} {assetIn assetOut : AssetId}
  {limit : UInt32} {store : Order.Store} {parts : List Part} {outcomes : List Outcome}

theorem swapAll_cons_eq_ok {part : Part} {rest : List Part}
    (h : swapAll program fixed assetIn assetOut limit (part :: rest) store = .ok outcomes) :
    ∃ o more,
      (swap program (part.query fixed assetIn assetOut) part.environment part.external limit
        store).1 = .ok o ∧
      swapAll program fixed assetIn assetOut limit rest
        (swap program (part.query fixed assetIn assetOut) part.environment part.external limit
          store).2 = .ok more ∧
      outcomes = o :: more := by
  unfold swapAll at h
  simp only [bind_eq_ok_iff, pure_eq_ok_iff] at h
  rcases h with ⟨o, ho, more, hmore, rfl⟩
  exact ⟨o, more, ho, hmore, rfl⟩

theorem PoolTrade.amount_fixed {amount : UInt64} {r : Registers}
    (h : PoolTrade fixed amount r.balanceIn r.balanceOut r.amountIn r.amountOut) :
    r.amount fixed = amount := by
  cases fixed with
  | input => exact h.1
  | output => exact h.1

/-- The parts trade what they fix. -/
theorem totalOf_fixed (hpool : program.IsPool entries)
    (h : swapAll program fixed assetIn assetOut limit parts store = .ok outcomes) :
    totalOf fixed outcomes = totalAmount parts := by
  induction parts generalizing store outcomes with
  | nil =>
      cases h
      rfl
  | cons part rest ih =>
      rcases swapAll_cons_eq_ok h with ⟨o, more, ho, hmore, rfl⟩
      rcases traded_of_swap hpool ho with ⟨-, -, newIn, newOut, htraded, -, -⟩
      have hamount : o.registers.amount fixed = part.amount := htraded.trade.amount_fixed
      have hrest := ih hmore
      unfold totalOf totalAmount at hrest ⊢
      rw [List.map_cons, List.sum_cons, List.map_cons, List.sum_cons, hamount, hrest]

/-- Over all parts the product of the balances does not fall, and what comes in can
be stored. -/
theorem product_le_of_swapAll (hpool : program.IsPool entries)
    (h : swapAll program fixed assetIn assetOut limit parts store = .ok outcomes)
    {balanceIn balanceOut : UInt64}
    (hin : held? program.id entries store assetIn = some balanceIn)
    (hout : held? program.id entries store assetOut = some balanceOut) :
    balanceIn.toNat + totalOf .input outcomes < UInt64.size ∧
      balanceIn.toNat * balanceOut.toNat ≤
        (balanceIn.toNat + totalOf .input outcomes) *
          (balanceOut.toNat - totalOf .output outcomes) := by
  induction parts generalizing store outcomes balanceIn balanceOut with
  | nil =>
      cases h
      exact ⟨balanceIn.toNat_lt, Nat.le_refl _⟩
  | cons part rest ih =>
      -- The rest starts from the balances that this part has stored, so the bound of
      -- the rest continues where the one of this part ends.
      rcases swapAll_cons_eq_ok h with ⟨o, more, ho, hmore, rfl⟩
      rcases traded_of_swap hpool ho with ⟨-, -, newIn, newOut, htraded, hnewIn, hnewOut⟩
      rcases ih hmore hnewIn hnewOut with ⟨hfits, hproduct⟩
      have heqIn : o.registers.balanceIn = balanceIn :=
        Option.some.inj (htraded.input.symm.trans hin)
      have heqOut : o.registers.balanceOut = balanceOut :=
        Option.some.inj (htraded.output.symm.trans hout)
      have hfirst := htraded.trade.product_le.2
      have hgain := Arithmetic.gain_eq_ok_iff.mp htraded.newIn_eq
      rcases Arithmetic.drain_eq_ok_iff.mp htraded.newOut_eq with ⟨hle, hdrain⟩
      have hleft : newOut.toNat = balanceOut.toNat - o.registers.amountOut.toNat := by
        rw [hdrain, UInt64.toNat_sub_of_le _ _ hle, heqOut]
      have htotal (leg : Leg) : totalOf leg (o :: more) =
          (o.registers.amount leg).toNat + totalOf leg more := by
        unfold totalOf
        rw [List.map_cons, List.sum_cons]
      rw [heqIn, heqOut] at hfirst
      rw [heqIn] at hgain
      rw [hleft, hgain, Nat.add_assoc, Nat.sub_sub] at hproduct
      rw [hgain, Nat.add_assoc] at hfits
      rw [htotal, htotal]
      exact ⟨hfits, Nat.le_trans hfirst hproduct⟩

end Parts

/-!
# One trade instead
-/

section Whole

variable {balanceIn balanceOut total : UInt64} {totalIn totalOut : Nat}

/-- What is left of a positive product is positive. -/
theorem lt_of_product_le (hin : balanceIn ≠ 0) (hout : balanceOut ≠ 0)
    (hproduct : balanceIn.toNat * balanceOut.toNat ≤
      (balanceIn.toNat + totalIn) * (balanceOut.toNat - totalOut)) :
    totalOut < balanceOut.toNat := by
  have hpos : 0 < balanceIn.toNat * balanceOut.toNat := by
    apply Nat.mul_pos
    · exact Nat.pos_of_ne_zero fun h => hin (UInt64.toNat_inj.mp h)
    · exact Nat.pos_of_ne_zero fun h => hout (UInt64.toNat_inj.mp h)
  by_contra hge
  rw [Nat.sub_eq_zero_of_le (Nat.le_of_not_lt hge), Nat.mul_zero] at hproduct
  omega

/-- The pool sells the total for no less than the parts. -/
theorem exists_quoteExactIn_of_product_le (hin : balanceIn ≠ 0) (hout : balanceOut ≠ 0)
    (htotal : total.toNat = totalIn)
    (hproduct : balanceIn.toNat * balanceOut.toNat ≤
      (balanceIn.toNat + totalIn) * (balanceOut.toNat - totalOut)) :
    ∃ amountOut, quoteExactIn balanceIn balanceOut total = .ok amountOut ∧
      totalOut ≤ amountOut.toNat := by
  have hlt := lt_of_product_le hin hout hproduct
  have hpos : 0 < balanceIn.toNat + totalIn := by
    have := Nat.pos_of_ne_zero fun h => hin (UInt64.toNat_inj.mp h)
    omega
  rcases Arithmetic.exists_quoteExactIn hin hout total with ⟨amountOut, hquote⟩
  refine ⟨amountOut, hquote, ?_⟩
  rw [(Arithmetic.quoteExactIn_eq_ok_iff.mp hquote).2.2, htotal, Nat.le_div_iff_mul_le hpos]
  have hpaid : (balanceIn.toNat + totalIn) * totalOut ≤
      (balanceIn.toNat + totalIn) * balanceOut.toNat := Nat.mul_le_mul_left _ (Nat.le_of_lt hlt)
  rw [Nat.mul_sub, Nat.add_mul, Nat.add_mul] at hproduct
  rw [Nat.mul_add, Nat.mul_comm totalOut, Nat.mul_comm totalOut]
  rw [Nat.add_mul, Nat.add_mul] at hpaid
  omega

/-- The pool asks for no more for the total than for the parts. -/
theorem exists_quoteExactOut_of_product_le (hin : balanceIn ≠ 0) (hout : balanceOut ≠ 0)
    (htotal : total.toNat = totalOut) (hfits : balanceIn.toNat + totalIn < UInt64.size)
    (hproduct : balanceIn.toNat * balanceOut.toNat ≤
      (balanceIn.toNat + totalIn) * (balanceOut.toNat - totalOut)) :
    ∃ amountIn, quoteExactOut balanceIn balanceOut total = .ok amountIn ∧
      amountIn.toNat ≤ totalIn := by
  have hlt := lt_of_product_le hin hout hproduct
  have hceil : total.toNat * balanceIn.toNat ⌈/⌉ (balanceOut.toNat - total.toNat) ≤ totalIn := by
    rw [htotal, ceilDiv_le_iff_le_mul (by omega)]
    have hkept : balanceIn.toNat * totalOut ≤ balanceIn.toNat * balanceOut.toNat :=
      Nat.mul_le_mul_left _ (Nat.le_of_lt hlt)
    rw [Nat.add_mul, Nat.mul_sub] at hproduct
    rw [Nat.mul_comm totalOut, Nat.mul_comm _ totalIn]
    omega
  rcases Arithmetic.exists_word .overflow (Nat.lt_of_le_of_lt hceil (by omega)) with
    ⟨amountIn, -, hvalue⟩
  refine ⟨amountIn, Arithmetic.quoteExactOut_eq_ok_iff.mpr ⟨hin, ?_, hvalue⟩, ?_⟩
  · rw [UInt64.lt_iff_toNat_lt, htotal]
    exact hlt
  · rw [hvalue]
    exact hceil

end Whole

section Splitting

variable {program : Program} {entries : Entries} {fixed : Leg} {assetIn assetOut : AssetId}
  {limit : UInt32} {store : Order.Store}

/-- A pool that could trade the first part has something of both assets. -/
theorem exists_held_of_swapAll (hpool : program.IsPool entries) {parts : List Part}
    (hparts : parts ≠ []) {outcomes : List Outcome}
    (h : swapAll program fixed assetIn assetOut limit parts store = .ok outcomes) :
    assetIn ≠ assetOut ∧ 2 ≤ limit.toNat ∧ 0 < totalAmount parts ∧
      ∃ balanceIn balanceOut : UInt64, balanceIn ≠ 0 ∧ balanceOut ≠ 0 ∧
        held? program.id entries store assetIn = some balanceIn ∧
        held? program.id entries store assetOut = some balanceOut := by
  cases parts with
  | nil => exact absurd rfl hparts
  | cons part rest =>
      rcases swapAll_cons_eq_ok h with ⟨o, more, ho, -, -⟩
      rcases traded_of_swap hpool ho with ⟨haccepted, hlimit, newIn, newOut, htraded, -, -⟩
      rcases htraded.trade.balances_ne_zero with ⟨hneIn, hneOut⟩
      have hamount : part.amount ≠ 0 := haccepted.amount_ne_zero
      have hpos : 0 < part.amount.toNat :=
        Nat.pos_of_ne_zero fun hzero => hamount (UInt64.toNat_inj.mp hzero)
      refine ⟨haccepted.distinct, hlimit, ?_, _, _, hneIn, hneOut, htraded.input, htraded.output⟩
      unfold totalAmount
      rw [List.map_cons, List.sum_cons]
      omega

/-- A pool quotes what its balances allow for, as long as the input can be stored. -/
theorem quote_of_poolTrade (hpool : program.IsPool entries) (hdistinct : assetIn ≠ assetOut)
    (hlimit : 2 ≤ limit.toNat) {balanceIn balanceOut amount amountIn amountOut : UInt64}
    (hamount : amount ≠ 0) (hin : held? program.id entries store assetIn = some balanceIn)
    (hout : held? program.id entries store assetOut = some balanceOut)
    (htrade : PoolTrade fixed amount balanceIn balanceOut amountIn amountOut)
    (hfits : balanceIn.toNat + amountIn.toNat < UInt64.size) (taker : Address)
    (environment : Environment) :
    quote program ((Query.simulated fixed assetIn assetOut amount).withTaker taker) environment
      limit store = .ok ⟨⟨balanceIn, balanceOut, amountIn, amountOut⟩, [], 2⟩ := by
  rcases Arithmetic.exists_word .overflow hfits with ⟨newIn, -, hnewIn⟩
  have hle : amountOut ≤ balanceOut :=
    UInt64.le_iff_toNat_le.mpr (Nat.le_of_lt htrade.product_le.1)
  have hgain : gain balanceIn amountIn = .ok newIn := Arithmetic.gain_eq_ok_iff.mpr hnewIn
  have hdrain : drain balanceOut amountOut = .ok (balanceOut - amountOut) :=
    Arithmetic.drain_eq_ok_iff.mpr ⟨hle, rfl⟩
  apply quote_of_traded hpool
  · exact ⟨rfl, hdistinct, hamount⟩
  · exact hlimit
  · exact ⟨hin, hout, htrade, hgain, hdrain⟩

end Splitting

/-- Splitting a trade never beats one trade.  Where the parts of a trade succeed one
after another, their sum is an amount, and the quote of that amount over the store in
front of them succeeds: for a fixed input it pays no less than all parts together, and
for a fixed output it asks for no more. -/
theorem split_never_beats_one_trade {program : Program} {entries : Entries}
    (hpool : program.IsPool entries) (assetIn assetOut : AssetId) (limit : UInt32)
    (store : Order.Store) {parts : List Part} (hparts : parts ≠ []) :
    (∀ outcomes, swapAll program .input assetIn assetOut limit parts store = .ok outcomes →
      ∃ total : UInt64, total.toNat = totalAmount parts ∧ ∀ taker environment, ∃ o,
        quote program ((Query.simulated .input assetIn assetOut total).withTaker taker) environment
          limit store = .ok o ∧ totalOf .output outcomes ≤ o.amountOut.toNat) ∧
    (∀ outcomes, swapAll program .output assetIn assetOut limit parts store = .ok outcomes →
      ∃ total : UInt64, total.toNat = totalAmount parts ∧ ∀ taker environment, ∃ o,
        quote program ((Query.simulated .output assetIn assetOut total).withTaker taker) environment
          limit store = .ok o ∧ o.amountIn.toNat ≤ totalOf .input outcomes) := by
  constructor
  · intro outcomes h
    rcases exists_held_of_swapAll hpool hparts h with
      ⟨hdistinct, hlimit, hpos, balanceIn, balanceOut, hneIn, hneOut, hin, hout⟩
    rcases product_le_of_swapAll hpool h hin hout with ⟨hfits, hproduct⟩
    have hfixed := totalOf_fixed hpool h
    rw [hfixed] at hfits hproduct
    rcases Arithmetic.exists_word .overflow (show totalAmount parts < UInt64.size by omega) with
      ⟨total, -, htotal⟩
    rcases exists_quoteExactIn_of_product_le hneIn hneOut htotal hproduct with
      ⟨amountOut, hquote, hle⟩
    refine ⟨total, htotal, ?_⟩
    intro taker environment
    have hamount : total ≠ 0 := by
      rintro rfl
      exact absurd htotal (Nat.ne_of_lt hpos)
    have htrade : PoolTrade .input total balanceIn balanceOut total amountOut := ⟨rfl, hquote⟩
    rw [← htotal] at hfits
    exact ⟨_, quote_of_poolTrade hpool hdistinct hlimit hamount hin hout htrade hfits taker
      environment, hle⟩
  · intro outcomes h
    rcases exists_held_of_swapAll hpool hparts h with
      ⟨hdistinct, hlimit, hpos, balanceIn, balanceOut, hneIn, hneOut, hin, hout⟩
    rcases product_le_of_swapAll hpool h hin hout with ⟨hfits, hproduct⟩
    have hfixed := totalOf_fixed hpool h
    rw [hfixed] at hproduct
    -- Outputs are never stored as a sum, so that their sum fits is read off the product.
    have hlt := lt_of_product_le hneIn hneOut hproduct
    rcases Arithmetic.exists_word .overflow (Nat.lt_trans hlt balanceOut.toNat_lt) with
      ⟨total, -, htotal⟩
    rcases exists_quoteExactOut_of_product_le hneIn hneOut htotal hfits hproduct with
      ⟨amountIn, hquote, hle⟩
    refine ⟨total, htotal, ?_⟩
    intro taker environment
    have hamount : total ≠ 0 := by
      rintro rfl
      exact absurd htotal (Nat.ne_of_lt hpos)
    have htrade : PoolTrade .output total balanceIn balanceOut amountIn total := ⟨rfl, hquote⟩
    have hstored : balanceIn.toNat + amountIn.toNat < UInt64.size := by omega
    exact ⟨_, quote_of_poolTrade hpool hdistinct hlimit hamount hin hout htrade hstored taker
      environment, hle⟩

/-- A pool that stores its balances. -/
def plainPool : Program where
  id := .single 80
  bytes := #[]
  records := #[⟨0, .dynamicBalances [(.single 65, 1000), (.single 66, 1000)]⟩, ⟨82, .solve⟩]

def part (amount : UInt64) : Part :=
  ⟨amount, .zero, (Observations.atTime 100).environment, .absent⟩

theorem split_never_beats_one_trade_of_plain_pool :
    swapAll plainPool .input (.single 65) (.single 66) 16 [part 100, part 50, part 7] .empty =
      .ok [⟨⟨1000, 1000, 100, 90⟩, [], 2⟩, ⟨⟨1100, 910, 50, 39⟩, [], 2⟩,
        ⟨⟨1150, 871, 7, 5⟩, [], 2⟩] ∧
    ∃ total : UInt64, total.toNat = 157 ∧ ∃ o,
      quote plainPool ((Query.simulated .input (.single 65) (.single 66) total).withTaker .zero)
        (Observations.atTime 0).environment 16 .empty = .ok o ∧ 134 ≤ o.amountOut.toNat := by
  have hswaps : swapAll plainPool .input (.single 65) (.single 66) 16
      [part 100, part 50, part 7] .empty =
    .ok [⟨⟨1000, 1000, 100, 90⟩, [], 2⟩, ⟨⟨1100, 910, 50, 39⟩, [], 2⟩,
      ⟨⟨1150, 871, 7, 5⟩, [], 2⟩] := rfl
  have hpool : plainPool.IsPool [(.single 65, 1000), (.single 66, 1000)] := rfl
  have hparts : [part 100, part 50, part 7] ≠ [] := List.cons_ne_nil _ _
  rcases (split_never_beats_one_trade hpool (.single 65) (.single 66) 16 .empty hparts).1 _
    hswaps with ⟨total, htotal, hquote⟩
  exact ⟨hswaps, total, htotal, hquote .zero _⟩

end Machine
end SwapPricing
