import SwapPricing.Proofs.BetterTrades
import SwapPricing.Proofs.Charges

/-!
# The shape of prices

Over the same balances a larger input never buys less, and a larger output never
costs less.  The average price does not improve with the size of a trade either, but
for the roundings: the pool's own and that of every fee on the output are worth less
than one unit each.
-/

namespace SwapPricing

namespace Operation

/-- Whether an instruction prepares a trade, by setting the balances or by a fee at a
rate that no trade changes, and reads no order state for it. -/
def preparesTrade : Instruction → Bool
  | staticBalances _ => true
  | externalBalances => true
  | growLiquidity _ => true
  | growPriceRange _ _ => true
  | auction _ _ => true
  | flatFee _ _ => true
  | protocolFee _ _ _ => true
  | _ => false

/-- The rate of a fee on `leg`. -/
def rateOn? (leg : Leg) : Instruction → Option UInt64
  | flatFee on rate => if on = leg then some rate.toUInt64 else none
  | protocolFee on rate _ => if on = leg then some rate.toUInt64 else none
  | _ => none

theorem keepsOrder_of_preparesTrade {i : Instruction} (h : i.preparesTrade = true) :
    i.keepsOrder = true := by
  cases i <;> first | rfl | cases h

theorem sets_or_charges_of_preparesTrade {i : Instruction} (h : i.preparesTrade = true) :
    i.setsBalances = true ∨ i.chargesRate = true := by
  cases i <;> first | exact Or.inl rfl | exact Or.inr rfl | cases h

theorem isStraight_of_keepsOrder {i : Instruction} (h : i.keepsOrder = true) :
    i.isStraight = true := by
  cases i <;> first | rfl | cases h

end Operation

namespace Arithmetic

/-!
# Rounding and the average price

That `large` for `l` is no better on average than `small` for `s` would be
`large * s ≤ small * l`.  Each rounding adds one unit to `small`.
-/

section Slack

variable {s l : Nat}

/-- The pool pays no better on average for a larger input, but for one rounding. -/
theorem quoteExactIn_slack {balanceIn balanceOut amount more small large : UInt64}
    (hle : amount ≤ more) (hmore : more ≠ 0)
    (h : quoteExactIn balanceIn balanceOut amount = .ok small)
    (h' : quoteExactIn balanceIn balanceOut more = .ok large) :
    large.toNat * amount.toNat < (small.toNat + 1) * more.toNat := by
  rcases quoteExactIn_eq_ok_iff.mp h with ⟨hin, -, hsmall⟩
  rcases quoteExactIn_eq_ok_iff.mp h' with ⟨-, -, hlarge⟩
  have hle := UInt64.le_iff_toNat_le.mp hle
  have hinPos : 0 < balanceIn.toNat := Nat.pos_of_ne_zero (toNat_ne_zero hin)
  have hmorePos : 0 < more.toNat := Nat.pos_of_ne_zero (toNat_ne_zero hmore)
  have hfloor : large.toNat * (balanceIn.toNat + more.toNat) ≤ more.toNat * balanceOut.toNat := by
    rw [hlarge]
    exact Nat.div_mul_le_self _ _
  have hnext : amount.toNat * balanceOut.toNat <
      (balanceIn.toNat + amount.toNat) * (small.toNat + 1) := by
    rw [hsmall]
    exact Nat.lt_mul_div_succ _ (by omega)
  refine Nat.lt_of_mul_lt_mul_right (a := balanceIn.toNat + amount.toNat) ?_
  calc large.toNat * amount.toNat * (balanceIn.toNat + amount.toNat)
      ≤ large.toNat * amount.toNat * (balanceIn.toNat + more.toNat) :=
        Nat.mul_le_mul_left _ (by omega)
    _ = large.toNat * (balanceIn.toNat + more.toNat) * amount.toNat := by ring
    _ ≤ more.toNat * balanceOut.toNat * amount.toNat := Nat.mul_le_mul_right _ hfloor
    _ = amount.toNat * balanceOut.toNat * more.toNat := by ring
    _ < (balanceIn.toNat + amount.toNat) * (small.toNat + 1) * more.toNat :=
        Nat.mul_lt_mul_of_pos_right hnext hmorePos
    _ = (small.toNat + 1) * more.toNat * (balanceIn.toNat + amount.toNat) := by ring

/-- A cut costs one more rounding. -/
theorem deductRate_slack {small large rate left kept : UInt64} {slack : Nat}
    (h : deductRate small rate = .ok left) (h' : deductRate large rate = .ok kept)
    (hslack : large.toNat * s < (small.toNat + slack) * l) :
    kept.toNat * s < (left.toNat + (slack + 1)) * l := by
  have hbps : 0 < bps := by decide
  have hl : 0 < l := Nat.pos_of_ne_zero fun hzero => by simp [hzero] at hslack
  rcases deductRate_eq_ok_iff.mp h with ⟨-, hleft⟩
  rcases deductRate_eq_ok_iff.mp h' with ⟨-, hkept⟩
  generalize hshare : bps - rate.toNat = share at hleft hkept
  have hcut : share ≤ bps := by omega
  have hfloor : kept.toNat * bps ≤ large.toNat * share := by
    rw [hkept]
    exact Nat.div_mul_le_self _ _
  have hnext : small.toNat * share < bps * (left.toNat + 1) := by
    rw [hleft]
    exact Nat.lt_mul_div_succ _ hbps
  refine Nat.lt_of_mul_lt_mul_right (a := bps) ?_
  calc kept.toNat * s * bps = kept.toNat * bps * s := by ring
    _ ≤ large.toNat * share * s := Nat.mul_le_mul_right _ hfloor
    _ = large.toNat * s * share := by ring
    _ ≤ (small.toNat + slack) * l * share := Nat.mul_le_mul_right _ (Nat.le_of_lt hslack)
    _ = small.toNat * share * l + slack * l * share := by ring
    _ < bps * (left.toNat + 1) * l + slack * l * bps :=
        Nat.add_lt_add_of_lt_of_le (Nat.mul_lt_mul_of_pos_right hnext hl)
          (Nat.mul_le_mul_left _ hcut)
    _ = (left.toNat + (slack + 1)) * l * bps := by ring

end Slack

end Arithmetic

namespace Machine

open Arithmetic (quoteExactIn)

/-- Fees on the output cost one rounding each. -/
theorem afterFees_slack {rates : List UInt64} {small large left kept : UInt64} {s l slack : Nat}
    (h : afterFees .output rates small = .ok left) (h' : afterFees .output rates large = .ok kept)
    (hslack : large.toNat * s < (small.toNat + slack) * l) :
    kept.toNat * s < (left.toNat + (slack + rates.length)) * l := by
  induction rates generalizing small large slack with
  | nil =>
      cases h
      cases h'
      exact hslack
  | cons rate rest ih =>
      rcases afterFees_cons.mp h with ⟨net, hnet, hrest⟩
      rcases afterFees_cons.mp h' with ⟨net', hnet', hrest'⟩
      have hmore := ih hrest hrest' (Arithmetic.deductRate_slack hnet hnet' hslack)
      rw [List.length_cons, ← Nat.add_assoc slack, Nat.add_right_comm slack]
      exact hmore

/-!
# Balances behind fees
-/

namespace Charging

variable {setup : Setup} {query : Query} {external : ExternalLogic} {c s s' : State}

/-- An instruction that has set the balances here sets the same ones at `c`. -/
theorem exists_reprice {offset : Nat} {i : Instruction} (hi : i.setsBalances = true)
    (h : execute (setup.reasked query external) offset i s = .ok s')
    (hs : Charging (setup.reasked query external) c s) :
    ∃ c', execute setup offset i c = .ok c' ∧
      Charging (setup.reasked query external) c' s' := by
  have hsame : execute (setup.reasked query external) offset i (s.adopt c) =
      (execute setup offset i c).map s.adopt := (keepsBalances_adopt s).execute hi
  rw [hs.adopt_eq, h] at hsame
  rcases map_eq_ok_iff.mp hsame.symm with ⟨c', hc, rfl⟩
  exact ⟨c', hc, (hs.reprice hi hc).2⟩

/-- Where a quote gets behind the records, the balances alone do so too. -/
theorem exists_priced {records : List Record}
    (hrecords : ∀ r ∈ records,
      r.instruction.setsBalances = true ∨ r.instruction.chargesRate = true)
    (hrange : ∀ r ∈ records, r.instruction.InRange)
    (h : records.foldlM (fun s r => step (setup.reasked query external) r s) s = .ok s')
    (hs : Charging (setup.reasked query external) c s) :
    ∃ c', priced setup records c = .ok c' ∧ Charging (setup.reasked query external) c' s' := by
  induction records generalizing c s with
  | nil =>
      cases h
      exact ⟨c, rfl, hs⟩
  | cons r rest ih =>
      rw [List.foldlM_cons, bind_eq_ok_iff] at h
      rcases h with ⟨t, hstep, hrest⟩
      rcases step_eq_ok hstep with ⟨entered, henter, hexecute⟩
      rcases List.forall_mem_cons.mp hrecords with ⟨hr, hothers⟩
      rcases List.forall_mem_cons.mp hrange with ⟨hrangeOne, hrangeRest⟩
      have hentered := steady.enter henter hs
      rw [priced, List.filter_cons]
      -- Only a record that sets balances moves the run of the balances alone.
      cases hsets : r.instruction.setsBalances with
      | true =>
          rcases hentered.exists_reprice hsets hexecute with ⟨middle, hmiddle, ht⟩
          rcases ih hothers hrangeRest hrest ht with ⟨c', hpriced, hs'⟩
          refine ⟨c', ?_, hs'⟩
          rw [if_pos rfl, List.foldlM_cons, hmiddle]
          exact hpriced
      | false =>
          have hfee : r.instruction.chargesRate = true :=
            hr.resolve_left (by rw [hsets]; exact Bool.false_ne_true)
          rw [if_neg Bool.false_ne_true]
          exact ih hothers hrangeRest hrest (charge hfee hrangeOne hexecute hentered)

end Charging

/-!
# Trades without fees on the input
-/

/-- The input is still whole, and only fees of the given rates wait on the output. -/
structure WholeInput (amount : UInt64) (rates : List UInt64) (s : State) : Prop where
  pending : s.pending = []
  amountIn : s.registers.amountIn = amount
  rates : feeRates .output s.settlements = rates

namespace WholeInput

variable {setup : Setup} {amount : UInt64} {rates : List UInt64} {s s' : State}

theorem enter {r : Record} (h : Machine.enter setup r s = .ok s') (hs : WholeInput amount rates s) :
    WholeInput amount rates s' := by
  rw [enter_of_pending_nil hs.pending] at h
  cases h
  exact ⟨hs.pending, hs.amountIn, hs.rates⟩

theorem openFee {op : Opcode} {rate : UInt64} {recipient : Option Address}
    (hfixed : setup.query.fixed = .input)
    (h : Machine.openFee setup op .output rate recipient s = .ok s')
    (hs : WholeInput amount rates s) : WholeInput amount (rate :: rates) s' := by
  have hopening := (openFee_eq_ok h).2
  refine ⟨(pending_opening hopening).trans hs.pending, ?_, ?_⟩
  · cases hopening with
    | charged hleg => cases hleg
    | raised _ hraised => cases hfixed.symm.trans hraised
    | postponed => exact hs.amountIn
  · rw [feeRates_opening hopening, feeRates_cons_self, hs.rates]

theorem execute {offset : Nat} {i : Instruction} (hfixed : setup.query.fixed = .input)
    (hi : i.preparesTrade = true) (hinput : i.rateOn? .input = none)
    (h : Machine.execute setup offset i s = .ok s') (hs : WholeInput amount rates s) :
    WholeInput amount ((i.rateOn? .output).toList ++ rates) s' := by
  rcases Operation.sets_or_charges_of_preparesTrade hi with hsets | hcharges
  · have hnone : i.rateOn? .output = none := by cases i <;> first | rfl | cases hsets
    rcases setsBalances_eq_ok hsets h with ⟨-, balanceIn, balanceOut, rfl⟩
    rw [hnone]
    exact ⟨hs.pending, hs.amountIn, hs.rates⟩
  · cases i with
    | flatFee leg rate =>
        cases leg with
        | input => cases hinput
        | output => exact hs.openFee hfixed h
    | protocolFee leg rate recipient =>
        cases leg with
        | input => cases hinput
        | output => exact hs.openFee hfixed h
    | _ => cases hcharges

theorem foldlM_step {records : List Record} (hfixed : setup.query.fixed = .input)
    (hrecords : ∀ r ∈ records, r.instruction.preparesTrade = true)
    (hinput : ∀ r ∈ records, r.instruction.rateOn? .input = none)
    (h : records.foldlM (fun s r => step setup r s) s = .ok s') (hs : WholeInput amount rates s) :
    WholeInput amount
      ((records.filterMap fun r => r.instruction.rateOn? .output).reverse ++ rates) s' := by
  induction records generalizing s rates with
  | nil =>
      cases h
      exact hs
  | cons r rest ih =>
      rw [List.foldlM_cons, bind_eq_ok_iff] at h
      rcases h with ⟨t, hstep, hrest⟩
      rcases step_eq_ok hstep with ⟨entered, henter, hexecute⟩
      rcases List.forall_mem_cons.mp hrecords with ⟨hr, hothers⟩
      rcases List.forall_mem_cons.mp hinput with ⟨hwhole, hwholes⟩
      have ht := (hs.enter henter).execute hfixed hr hwhole hexecute
      have hs' := ih hothers hwholes hrest ht
      rw [List.filterMap_cons]
      cases hrate : r.instruction.rateOn? .output with
      | none =>
          rw [hrate] at hs'
          exact hs'
      | some rate =>
          rw [hrate] at hs'
          rw [List.reverse_cons, List.append_assoc]
          exact hs'

end WholeInput

/-!
# Quotes of different sizes
-/

section Sizes

variable {set : InstructionSet} {id : ProgramId} {bytes : List UInt8} {program : Program}
  {front : List Record} {last : Record} {query : Query} {environment : Environment}
  {limit : UInt32} {store : Order.Store}

theorem keepsOrder_of_front (hrecords : program.records.toList = front ++ [last])
    (hlast : last.instruction = .solve)
    (hfront : ∀ r ∈ front, r.instruction.preparesTrade = true) :
    ∀ r ∈ program.records, r.instruction.keepsOrder = true := by
  intro r hr
  rw [← Array.mem_toList_iff, hrecords, List.mem_append, List.mem_singleton] at hr
  rcases hr with hr | rfl
  · exact Operation.keepsOrder_of_preparesTrade (hfront r hr)
  · rw [hlast]
    rfl

theorem not_keepsWaiting_of_solve (hlast : last.instruction = .solve) :
    keepsWaiting last.opcode = false := by
  unfold Record.opcode
  rw [hlast]
  rfl

/-- Two quotes at the same leg for amounts in order. -/
theorem precedes_asking (setup : Setup) (leg : Leg) {x y : UInt64} (hle : leg.Orders x y) :
    (setup.asking leg x).Precedes (setup.asking leg y) :=
  ⟨rfl, fun asset => by cases asset <;> rfl, rfl, hle, rfl, UInt64.le_refl _⟩

theorem orders_of_quotes (hdecode : Program.decode set id bytes = .ok program)
    (hrecords : ∀ r ∈ program.records, r.instruction.keepsOrder = true) (leg : Leg)
    {x y : UInt64} (hle : leg.Orders x y) {o o' : Outcome}
    (h : quote program (query.asking leg x) environment limit store = .ok o)
    (h' : quote program (query.asking leg y) environment limit store = .ok o') :
    leg.Orders (o.registers.amount leg.other) (o'.registers.amount leg.other) := by
  rcases (quote_eq_ok_iff.mp h).2 with ⟨s, hrun, rfl⟩
  rcases (quote_eq_ok_iff.mp h').2 with ⟨t, hrun', rfl⟩
  have hsetup := precedes_asking
    ⟨program, query, environment, environment.quoteExternal⟩ leg hle
  exact orders_of_run hsetup hrecords (Program.inRange_of_decode hdecode) hrun hrun'

/-- Where the balances can be priced and are positive, every input comes to its trade. -/
theorem exists_run_of_priced {setup : Setup} {c : State} (x : UInt64)
    (hrecords : setup.program.records.toList = front ++ [last]) (hlast : last.instruction = .solve)
    (hfront : ∀ r ∈ front, r.instruction.setsBalances = true ∨ r.instruction.chargesRate = true)
    (hrange : ∀ r ∈ front, r.instruction.InRange)
    (hlimit : setup.program.records.size ≤ limit.toNat)
    (hpriced : priced setup front (State.initial setup.query store) = .ok c)
    (hin : c.registers.balanceIn ≠ 0) (hout : c.registers.balanceOut ≠ 0) :
    ∃ s, run (setup.asking .input x) limit store = .ok s := by
  have hinitial : Matched setup x 1 (State.initial setup.query store) _ _ := .initial store
  rcases hinitial.steps hfront hrange hpriced with ⟨stepped, hsteps, hmatched⟩
  rcases hmatched.enter last with ⟨entered, henter, hentered⟩
  have hpending := Matched.pending_enter (not_keepsWaiting_of_solve hlast) henter
  rcases hentered.trade hpending hin hout (by decide) with ⟨s, htrade, -⟩
  refine ⟨s, ?_⟩
  rw [run_eq_trade (setup.asking .input x) hrecords hlast hfront hlimit, hsteps, ok_bind, henter]
  exact htrade

/-- Without fees on the input, the pool pays for all of it, at balances that are the
same for every input, and the fees on the output are taken off. -/
theorem exists_paid_of_run (setup : Setup)
    (hrecords : setup.program.records.toList = front ++ [last]) (hlast : last.instruction = .solve)
    (hfront : ∀ r ∈ front, r.instruction.preparesTrade = true)
    (hrange : ∀ r ∈ front, r.instruction.InRange)
    (hinput : ∀ r ∈ front, r.instruction.rateOn? .input = none) {x : UInt64} {t : State}
    (h : run (setup.asking .input x) limit store = .ok t) :
    ∃ c paid, priced setup front (State.initial setup.query store) = .ok c ∧
      quoteExactIn c.registers.balanceIn c.registers.balanceOut x = .ok paid ∧
      afterFees .output (front.filterMap fun r => r.instruction.rateOn? .output).reverse paid =
        .ok t.registers.amountOut := by
  have hparts : ∀ r ∈ front, r.instruction.setsBalances = true ∨ r.instruction.chargesRate = true :=
    fun r hr => Operation.sets_or_charges_of_preparesTrade (hfront r hr)
  have hstraight : ∀ r ∈ (setup.asking .input x).program.records,
      r.instruction.isStraight = true := fun r hr =>
    Operation.isStraight_of_keepsOrder (keepsOrder_of_front hrecords hlast hfront r hr)
  have hlimit := size_le_of_run hstraight h
  rw [run_eq_trade (setup.asking .input x) hrecords hlast hparts hlimit, bind_eq_ok_iff] at h
  rcases h with ⟨entered, hfold, htrade⟩
  rcases bind_eq_ok_iff.mp hfold with ⟨stepped, hsteps, henter⟩
  have hinitial : Charging (setup.asking .input x) (State.initial setup.query store)
      (State.initial (setup.asking .input x).query store) := .initial .input x store
  rcases hinitial.exists_priced hparts hrange hsteps with ⟨c, hpriced, hstepped⟩
  have hcharging := Charging.steady.enter henter hstepped
  have hpending := Matched.pending_enter (not_keepsWaiting_of_solve hlast) henter
  have hseeded : WholeInput x [] (State.initial (setup.asking .input x).query store) :=
    ⟨rfl, rfl, rfl⟩
  have hwhole := (hseeded.foldlM_step rfl hfront hinput hsteps).enter henter
  rcases (hcharging.trade_of_input rfl hpending).mp ⟨t, htrade, rfl⟩ with ⟨paid, hpaid, hleft⟩
  rw [hwhole.amountIn] at hpaid
  rw [hwhole.rates, List.append_nil] at hleft
  exact ⟨c, paid, hpriced, hpaid, hleft⟩

/-- Behind fees at fixed rates and positive balances every input has a quote, a larger
input never buys less, and a larger output never costs less.  Without fees on the input,
a larger one is paid no better on average than a smaller one, but for one rounding in
the pool and one more for each fee. -/
theorem price_worsens_with_size (hdecode : Program.decode set id bytes = .ok program)
    (hrecords : program.records.toList = front ++ [last]) (hlast : last.instruction = .solve)
    (hfront : ∀ r ∈ front, r.instruction.preparesTrade = true) :
    (program.records.size ≤ limit.toNat → query.assetIn ≠ query.assetOut →
      ∀ c, priced ⟨program, query, environment, environment.quoteExternal⟩ front
          (State.initial query store) = .ok c →
        c.registers.balanceIn ≠ 0 → c.registers.balanceOut ≠ 0 →
          ∀ x ≠ 0, ∃ o, quote program (query.asking .input x) environment limit store = .ok o) ∧
    (∀ x y o o', x ≤ y →
      quote program (query.asking .input x) environment limit store = .ok o →
      quote program (query.asking .input y) environment limit store = .ok o' →
      o.amountOut ≤ o'.amountOut) ∧
    (∀ x y o o', x ≤ y →
      quote program (query.asking .output x) environment limit store = .ok o →
      quote program (query.asking .output y) environment limit store = .ok o' →
      o.amountIn ≤ o'.amountIn) ∧
    ((∀ r ∈ front, r.instruction.rateOn? .input = none) → ∀ s l o o', s ≤ l →
      quote program (query.asking .input s) environment limit store = .ok o →
      quote program (query.asking .input l) environment limit store = .ok o' →
      o'.amountOut.toNat * s.toNat <
        (o.amountOut.toNat + (front.filterMap fun r => r.instruction.rateOn? .output).length + 1) *
          l.toNat) := by
  have horder := keepsOrder_of_front hrecords hlast hfront
  have hrange : ∀ r ∈ front, r.instruction.InRange := by
    intro r hr
    apply Program.inRange_of_decode hdecode
    rw [← Array.mem_toList_iff, hrecords]
    exact List.mem_append_left _ hr
  refine ⟨?_, ?_, ?_, ?_⟩
  · intro hlimit hdistinct c hpriced hin hout x hx
    rcases exists_run_of_priced x hrecords hlast
        (fun r hr => Operation.sets_or_charges_of_preparesTrade (hfront r hr)) hrange hlimit hpriced
        hin hout with ⟨s, hrun⟩
    exact ⟨.ofState s, (quote_asking_iff hdistinct hx).mpr ⟨s, hrun, rfl⟩⟩
  · intro x y o o' hle h h'
    exact orders_of_quotes hdecode horder .input hle h h'
  · intro x y o o' hle h h'
    exact orders_of_quotes hdecode horder .output hle h' h
  · intro hinput s l o o' hle h h'
    rcases quote_eq_ok_iff.mp h with ⟨-, t, hrun, rfl⟩
    rcases quote_eq_ok_iff.mp h' with ⟨haccepted, t', hrun', rfl⟩
    rcases exists_paid_of_run ⟨program, query, environment, environment.quoteExternal⟩ hrecords
      hlast hfront hrange hinput hrun with ⟨c, small, hpriced, hsmall, hleft⟩
    rcases exists_paid_of_run ⟨program, query, environment, environment.quoteExternal⟩ hrecords
      hlast hfront hrange hinput hrun' with ⟨c', large, hpriced', hlarge, hkept⟩
    cases hpriced.symm.trans hpriced'
    have hslack := afterFees_slack hleft hkept
      (Arithmetic.quoteExactIn_slack hle haccepted.amount_ne_zero hsmall hlarge)
    rw [List.length_reverse, Nat.add_comm 1, ← Nat.add_assoc] at hslack
    exact hslack

end Sizes

def slopedBytes : List UInt8 :=
  Operation.recorded 7 (.staticBalances [(.single 65, 1000000), (.single 66, 2000000)]) ++
    Operation.recorded 12 (.growPriceRange 500 700) ++
    Operation.recorded 18 (.flatFee .output 30) ++
    Operation.recorded 22 (.protocolFee .output 50 (.single 82)) ++ Operation.recorded 10 .solve

/-- A concentrated pool with two fees on the output. -/
def slopedPool : Program where
  id := .single 80
  bytes := slopedBytes.toArray
  records := #[⟨0, .staticBalances [(.single 65, 1000000), (.single 66, 2000000)]⟩,
    ⟨82, .growPriceRange 500 700⟩, ⟨100, .flatFee .output 30⟩,
    ⟨104, .protocolFee .output 50 (.single 82)⟩, ⟨140, .solve⟩]

/-- Three times the input is paid a little more than three times as much here, and the
three roundings allow for less than six units more.  What is between the two has a
quote as well. -/
theorem price_worsens_with_size_of_sloped_pool :
    Program.decode .full (.single 80) slopedBytes = .ok slopedPool ∧
      quote slopedPool ((Query.simulated .input (.single 65) (.single 66) 1).asking .input 100)
        (Observations.atTime 0).environment 16 .empty =
          .ok ⟨⟨1000500, 2000700, 100, 197⟩, [⟨.single 82, .single 66, 1⟩], 5⟩ ∧
      quote slopedPool ((Query.simulated .input (.single 65) (.single 66) 1).asking .input 300)
        (Observations.atTime 0).environment 16 .empty =
          .ok ⟨⟨1000500, 2000700, 300, 594⟩, [⟨.single 82, .single 66, 3⟩], 5⟩ ∧
      (∃ o, quote slopedPool
        ((Query.simulated .input (.single 65) (.single 66) 1).asking .input 200)
        (Observations.atTime 0).environment 16 .empty = .ok o) ∧
      (197 : UInt64) ≤ 594 ∧ 594 * 100 < (197 + 2 + 1) * 300 := by
  have hdecode : Program.decode .full (.single 80) slopedBytes = .ok slopedPool := by cbv
  have hpriced : priced ⟨slopedPool, .simulated .input (.single 65) (.single 66) 1,
      (Observations.atTime 0).environment, (Observations.atTime 0).environment.quoteExternal⟩
      (slopedPool.records.toList.take 4)
      (State.initial (.simulated .input (.single 65) (.single 66) 1) .empty) = .ok _ := rfl
  have hsmall : quote slopedPool
      ((Query.simulated .input (.single 65) (.single 66) 1).asking .input 100)
      (Observations.atTime 0).environment 16 .empty =
        .ok ⟨⟨1000500, 2000700, 100, 197⟩, [⟨.single 82, .single 66, 1⟩], 5⟩ := rfl
  have hlarge : quote slopedPool
      ((Query.simulated .input (.single 65) (.single 66) 1).asking .input 300)
      (Observations.atTime 0).environment 16 .empty =
        .ok ⟨⟨1000500, 2000700, 300, 594⟩, [⟨.single 82, .single 66, 3⟩], 5⟩ := rfl
  have hrecords : slopedPool.records.toList = slopedPool.records.toList.take 4 ++
      [⟨140, .solve⟩] := rfl
  have hlimit : slopedPool.records.size ≤ (16 : UInt32).toNat := by decide
  have hfront : ∀ r ∈ slopedPool.records.toList.take 4, r.instruction.preparesTrade = true := by
    decide
  rcases price_worsens_with_size hdecode hrecords rfl hfront with ⟨hevery, hmore, -, haverage⟩
  exact ⟨hdecode, hsmall, hlarge,
    hevery hlimit (by decide) _ hpriced (by decide) (by decide) 200 (by decide),
    hmore 100 300 _ _ (by decide) hsmall hlarge,
    haverage (by decide) 100 300 _ _ (by decide) hsmall hlarge⟩

end Machine
end SwapPricing
