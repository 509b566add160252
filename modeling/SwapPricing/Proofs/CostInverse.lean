import Mathlib
import SwapPricing.Proofs.Lockstep

/-!
# The cost of an output

A quote at a fixed output asks for the least input that buys it, and fails only
if no input does.
-/

namespace SwapPricing
namespace Machine

open Arithmetic (quoteExactIn quoteExactOut)

/-!
# The trade in both quotes
-/

/-- What the pool pays for a fixed input, or asks for a fixed output. -/
def poolAmount (fixed : Leg) (balanceIn balanceOut amount : UInt64) : Except MathError UInt64 :=
  match fixed with
  | .input => quoteExactIn balanceIn balanceOut amount
  | .output => quoteExactOut balanceIn balanceOut amount

/-- The state behind the trade. -/
def State.solvedAt (s : State) (leg : Leg) (amount : UInt64) : State :=
  { s.setAmount leg amount with solved := true }

theorem solve_eq_ok_iff {setup : Setup} {s s' : State} (hs : s.solved = false) :
    solve setup s = .ok s' ↔
      ∃ amount, poolAmount setup.query.fixed s.registers.balanceIn s.registers.balanceOut
          (s.registers.amount setup.query.fixed) = .ok amount ∧
        s.solvedAt setup.query.unknown amount = s' := by
  have hunsolved : s.requireUnsolved .solve = .ok () := requireUnsolved_eq_ok_iff.mpr hs
  unfold solve poolAmount
  rw [hunsolved, ok_bind]
  cases setup.query.fixed with
  | input =>
      simp only [bind_eq_ok_iff, calculate_eq_ok_iff, pure_eq_ok_iff]
      exact Iff.rfl
  | output =>
      simp only [bind_eq_ok_iff, calculate_eq_ok_iff, pure_eq_ok_iff]
      exact Iff.rfl

/-- Behind the records, the pool quotes the fixed amount and the fees on the
other leg settle on its answer. -/
theorem Charging.trade {setup : Setup} {c s : State} {result : UInt64}
    (hs : Charging setup c s) (hpending : s.pending = []) :
    (∃ s', (solve setup s >>= close setup) = .ok s' ∧
      s'.registers.amount setup.query.unknown = result) ↔
        ∃ amount, poolAmount setup.query.fixed c.registers.balanceIn c.registers.balanceOut
            (s.registers.amount setup.query.fixed) = .ok amount ∧
          afterFees setup.query.unknown (feeRates setup.query.unknown s.settlements) amount =
            .ok result := by
  have hclose (amount : UInt64) :
      (∃ s', close setup (s.solvedAt setup.query.unknown amount) = .ok s' ∧
        s'.registers.amount setup.query.unknown = result) ↔
          afterFees setup.query.unknown (feeRates setup.query.unknown s.settlements) amount =
            .ok result := by
    have hamount : (s.solvedAt setup.query.unknown amount).registers.amount setup.query.unknown =
        amount := Registers.amount_setAmount _ _ _
    have hrestores : Restores setup s.settlements (s.solvedAt setup.query.unknown amount) :=
      hs.restores.of_amount_eq
        (Registers.amount_setAmount_of_ne _ setup.query.unknown_ne_fixed.symm _)
    have hsolved : (s.solvedAt setup.query.unknown amount).solved = true := rfl
    rw [close_unknown_iff hsolved hpending hs.fees hrestores, hamount]
    rfl
  rw [← hs.balanceIn, ← hs.balanceOut]
  constructor
  · rintro ⟨s', h, hresult⟩
    rcases bind_eq_ok_iff.mp h with ⟨traded, hsolve, hrest⟩
    rcases (solve_eq_ok_iff hs.unsolved).mp hsolve with ⟨amount, hamount, rfl⟩
    exact ⟨amount, hamount, (hclose amount).mp ⟨s', hrest, hresult⟩⟩
  · rintro ⟨amount, hamount, hafter⟩
    rcases (hclose amount).mpr hafter with ⟨s', hrest, hresult⟩
    have hsolve := (solve_eq_ok_iff hs.unsolved).mpr ⟨amount, hamount, rfl⟩
    exact ⟨s', bind_eq_ok_iff.mpr ⟨_, hsolve, hrest⟩, hresult⟩

theorem Matched.asked_ne_zero {setup : Setup} {x w : UInt64} {c a t : State} {b : Run State}
    (h : Matched setup x w c a b) (hw : w ≠ 0) (hb : b = .ok t) : t.registers.amountOut ≠ 0 := by
  intro hzero
  have hraised := h.raised t hb
  rw [hzero] at hraised
  exact hw (UInt64.le_zero_iff.mp hraised)

/-- The pool pays for the input, and pays enough exactly if what is asked of it
costs no more. -/
theorem Matched.trade {setup : Setup} {x w : UInt64} {c a : State} {b : Run State}
    (h : Matched setup x w c a b) (hpending : a.pending = []) (hin : c.registers.balanceIn ≠ 0)
    (hout : c.registers.balanceOut ≠ 0) (hw : w ≠ 0) :
    ∃ s, (solve (setup.asking .input x) a >>= close (setup.asking .input x)) = .ok s ∧
      (w ≤ s.registers.amountOut ↔
        ∃ t, (b >>= fun t => solve (setup.asking .output w) t >>=
            close (setup.asking .output w)) = .ok t ∧
          t.registers.amountIn ≤ x) := by
  rcases Arithmetic.exists_quoteExactIn hin hout a.registers.amountIn with ⟨paidOut, hquote⟩
  rcases h.received paidOut with ⟨left, hleft, hwanted⟩
  rcases (h.input.trade hpending).mpr ⟨paidOut, hquote, hleft⟩ with ⟨s, hs, hamount⟩
  have hamountOut : s.registers.amountOut = left := hamount
  refine ⟨s, hs, ?_⟩
  rw [hamountOut, hwanted]
  -- What is wanted, what the pool is asked for, what it asks for, what is offered:
  -- each amount bounds the next one through one of the connections.
  constructor
  · rintro ⟨t, hb, hle⟩
    have htarget := h.asked_ne_zero hw hb
    rcases (Arithmetic.le_quoteExactIn_iff htarget hquote).mp hle with ⟨asked, hasked, hpaid⟩
    rcases (h.paid asked).mp hpaid with ⟨gross, hgross, hoffered⟩
    rw [← (h.same t hb).rates] at hgross
    have htpending : t.pending = [] := (h.same t hb).pending.trans hpending
    rcases ((h.output t hb).trade htpending).mpr ⟨asked, hasked, hgross⟩ with
      ⟨t', ht', hamountIn⟩
    refine ⟨t', bind_eq_ok_iff.mpr ⟨t, hb, ht'⟩, ?_⟩
    have hsame : t'.registers.amountIn = gross := hamountIn
    rw [hsame]
    exact hoffered
  · rintro ⟨t', ht', hoffered⟩
    rcases bind_eq_ok_iff.mp ht' with ⟨t, hb, htrade⟩
    have htpending : t.pending = [] := (h.same t hb).pending.trans hpending
    rcases ((h.output t hb).trade htpending).mp ⟨t', htrade, rfl⟩ with ⟨asked, hasked, hgross⟩
    refine ⟨t, hb, ?_⟩
    have htarget := h.asked_ne_zero hw hb
    apply (Arithmetic.le_quoteExactIn_iff htarget hquote).mpr
    refine ⟨asked, hasked, (h.paid asked).mpr ⟨t'.registers.amountIn, ?_, hoffered⟩⟩
    rw [← (h.same t hb).rates]
    exact hgross

/-!
# Quotes
-/

section Quotes

variable {program : Program} {query : Query} {environment : Environment} {limit : UInt32}
  {store : Order.Store}

theorem run_eq_trade (setup : Setup) {front : List Record} {last : Record}
    (hrecords : setup.program.records.toList = front ++ [last]) (hlast : last.instruction = .solve)
    (hfront : ∀ r ∈ front, r.instruction.setsBalances = true ∨ r.instruction.chargesRate = true)
    (hlimit : setup.program.records.size ≤ limit.toNat) :
    run setup limit store =
      ((front.foldlM (fun s r => step setup r s) (State.initial setup.query store)) >>=
        enter setup last) >>= fun s => solve setup s >>= close setup := by
  have hstraight : ∀ r ∈ setup.program.records, r.instruction.isStraight = true := by
    intro r hr
    rw [← Array.mem_toList_iff, hrecords, List.mem_append, List.mem_singleton] at hr
    rcases hr with hr | rfl
    · rcases hfront r hr with hsets | hfee
      · exact Operation.isStraight_of_setsBalances hsets
      · exact Operation.isStraight_of_chargesRate hfee
    · rw [hlast]
      rfl
  rw [run_eq_foldlM hstraight hlimit, hrecords, List.foldlM_append]
  simp only [List.foldlM_cons, List.foldlM_nil, bind_pure, step, hlast, bind_assoc]
  rfl

theorem quote_asking_iff {leg : Leg} {amount : UInt64} {o : Outcome}
    (hdistinct : query.assetIn ≠ query.assetOut) (hamount : amount ≠ 0) :
    quote program (query.asking leg amount) environment limit store = .ok o ↔
      ∃ s, run (Setup.asking ⟨program, query, environment, environment.quoteExternal⟩ leg amount)
        limit store = .ok s ∧ .ofState s = o := by
  have haccepted : Accepted (query.asking leg amount) .simulate := ⟨rfl, hdistinct, hamount⟩
  rw [quote_eq_ok_iff]
  exact ⟨fun h => h.2, fun h => ⟨haccepted, h⟩⟩

/-- Where the records that set balances succeed and leave both of them positive,
every input has a quote, and its output reaches `w` exactly if the quote for the
output `w` succeeds and asks for no more than that input. -/
theorem le_amountOut_iff_amountIn_le {set : InstructionSet} {id : ProgramId} {bytes : List UInt8}
    {front : List Record} {last : Record} {priceState : State} {x w : UInt64}
    (hdecode : Program.decode set id bytes = .ok program)
    (hrecords : program.records.toList = front ++ [last]) (hlast : last.instruction = .solve)
    (hfront : ∀ r ∈ front, r.instruction.setsBalances = true ∨ r.instruction.chargesRate = true)
    (hlimit : program.records.size ≤ limit.toNat)
    (hpriced : priced ⟨program, query, environment, environment.quoteExternal⟩ front
      (State.initial query store) = .ok priceState)
    (hin : priceState.registers.balanceIn ≠ 0) (hout : priceState.registers.balanceOut ≠ 0)
    (hdistinct : query.assetIn ≠ query.assetOut) (hx : x ≠ 0) (hw : w ≠ 0) :
    ∃ o, quote program (query.asking .input x) environment limit store = .ok o ∧
      (w ≤ o.amountOut ↔
        ∃ o', quote program (query.asking .output w) environment limit store = .ok o' ∧
          o'.amountIn ≤ x) := by
  have hrange : ∀ r ∈ front, r.instruction.InRange := by
    intro r hr
    apply Program.inRange_of_decode hdecode
    rw [← Array.mem_toList_iff, hrecords]
    exact List.mem_append_left _ hr
  have hinitial : Matched ⟨program, query, environment, environment.quoteExternal⟩ x w
      (State.initial query store) _ _ := .initial store
  rcases hinitial.steps hfront hrange hpriced with ⟨stepped, hsteps, hmatched⟩
  rcases hmatched.enter last with ⟨entered, henter, hentered⟩
  have hwaits : keepsWaiting last.opcode = false := by
    unfold Record.opcode
    rw [hlast]
    rfl
  rcases hentered.trade (Matched.pending_enter hwaits henter) hin hout hw with
    ⟨s, htrade, hiff⟩
  have hrun (leg : Leg) (amount : UInt64) :
      run (Setup.asking ⟨program, query, environment, environment.quoteExternal⟩ leg amount)
        limit store = _ :=
    run_eq_trade _ hrecords hlast hfront hlimit
  refine ⟨.ofState s, ?_, ?_⟩
  · rw [quote_asking_iff hdistinct hx]
    refine ⟨s, ?_, rfl⟩
    rw [hrun, hsteps, ok_bind, henter]
    exact htrade
  · show w ≤ s.registers.amountOut ↔ _
    rw [hiff]
    simp only [quote_asking_iff hdistinct hw, hrun]
    constructor
    · rintro ⟨t, ht, hle⟩
      exact ⟨_, ⟨t, ht, rfl⟩, hle⟩
    · rintro ⟨o', ⟨t, ht, rfl⟩, hle⟩
      exact ⟨t, ht, hle⟩

end Quotes

def layeredBytes : List UInt8 :=
  Operation.recorded 7 (.staticBalances [(.single 65, 1000000), (.single 66, 2000000)]) ++
    Operation.recorded 17 (.flatFee .input 30) ++
    Operation.recorded 11 (.growLiquidity [(.single 65, 500000), (.single 66, 1000000)]) ++
    Operation.recorded 21 (.protocolFee .input 100 (.single 82)) ++
    Operation.recorded 22 (.protocolFee .output 50 (.single 82)) ++ Operation.recorded 10 .solve

/-- A concentrated pool with fees on both legs. -/
def layeredPool : Program where
  id := .single 80
  bytes := layeredBytes.toArray
  records := #[⟨0, .staticBalances [(.single 65, 1000000), (.single 66, 2000000)]⟩,
    ⟨82, .flatFee .input 30⟩,
    ⟨86, .growLiquidity [(.single 65, 500000), (.single 66, 1000000)]⟩,
    ⟨168, .protocolFee .input 100 (.single 82)⟩, ⟨204, .protocolFee .output 50 (.single 82)⟩,
    ⟨240, .solve⟩]

theorem reaches_amountOut_of_layered_pool :
    quote layeredPool ((Query.simulated .input (.single 65) (.single 66) 1).asking .output 1500)
        (Observations.atTime 0).environment 16 .empty =
      .ok ⟨⟨1500000, 3000000, 766, 1500⟩,
        [⟨.single 82, .single 66, 8⟩, ⟨.single 82, .single 65, 8⟩], 6⟩ ∧
    ∃ o, quote layeredPool ((Query.simulated .input (.single 65) (.single 66) 1).asking .input 766)
        (Observations.atTime 0).environment 16 .empty = .ok o ∧ 1500 ≤ o.amountOut := by
  have hdecode : Program.decode .full (.single 80) layeredBytes = .ok layeredPool := by cbv
  have hpriced : priced ⟨layeredPool, .simulated .input (.single 65) (.single 66) 1,
      (Observations.atTime 0).environment, (Observations.atTime 0).environment.quoteExternal⟩
      (layeredPool.records.toList.take 5)
      (State.initial (.simulated .input (.single 65) (.single 66) 1) .empty) = .ok _ := rfl
  have hquote : quote layeredPool
      ((Query.simulated .input (.single 65) (.single 66) 1).asking .output 1500)
      (Observations.atTime 0).environment 16 .empty =
    .ok ⟨⟨1500000, 3000000, 766, 1500⟩,
      [⟨.single 82, .single 66, 8⟩, ⟨.single 82, .single 65, 8⟩], 6⟩ := rfl
  have hrecords : layeredPool.records.toList = layeredPool.records.toList.take 5 ++
      [⟨240, .solve⟩] := rfl
  have hlimit : layeredPool.records.size ≤ (16 : UInt32).toNat := by decide
  rcases le_amountOut_iff_amountIn_le hdecode hrecords rfl (by decide) hlimit hpriced
      (by decide) (by decide) (by decide) (show (766 : UInt64) ≠ 0 by decide)
      (show (1500 : UInt64) ≠ 0 by decide) with ⟨o, ho, hiff⟩
  exact ⟨hquote, o, ho, hiff.mpr ⟨_, hquote, UInt64.le_refl 766⟩⟩

end Machine
end SwapPricing
