import SwapPricing.Proofs.FillCaps
import SwapPricing.Proofs.Isolation
import SwapPricing.Proofs.Offsets

/-!
# Sales

The output of a sale unlocks evenly over its duration, and a trade is priced
against what is unlocked and not yet sold.  A trade is recorded before fees and
bounds have taken all they take from its output, so what is recorded as sold is
never less than what takers received, and never more than was unlocked at the
time of the last trade.
-/

namespace SwapPricing

/-!
# Programs that sell
-/

namespace Operation

/-- Whether an instruction lets nobody else decide on the balance and the amount
of the output: no listed or stored balances, no growth of the output and no
external logic. -/
def keepsToSale : Instruction → Bool
  | staticBalances _ => false
  | dynamicBalances _ => false
  | externalBalances => false
  | growLiquidity _ => false
  | growPriceRange _ _ => false
  | auction leg _ => leg = .input
  | baseFeeAdjust _ => false
  | valuationStatic _ => false
  | valuationOracle _ => false
  | valuationFresh _ _ => false
  | valuationBounded _ _ _ => false
  | extruction _ _ => false
  | _ => true

theorem opcode_ne_of_keepsToSale {i : Instruction} (h : i.keepsToSale = true) :
    i.opcode ≠ .extruction := by
  cases i with
  | extruction logic input => cases h
  | _ => nofun

theorem exists_auction_of_keepsToSale {i : Instruction} (hset : i.setsBalances = true)
    (hkeeps : i.keepsToSale = true) : ∃ terms, i = auction .input terms := by
  cases i with
  | auction leg terms =>
      cases leg with
      | input => exact ⟨terms, rfl⟩
      | output => cases hkeeps
  | _ => first | (cases hset; done) | cases hkeeps

end Operation

/-- The sale that a record opens, with the key of its progress. -/
def Record.sale? (r : Record) : Option (UInt64 × Sale) :=
  match r.instruction with
  | .twap terms => some (UInt64.ofNat r.offset, terms)
  | _ => none

namespace Machine

/-- A sale under way: whose it is, where its progress is kept, and how far it has
got before the trade. -/
structure OpenSale where
  key : UInt64
  terms : Sale
  prior : SaleState

def OpenSale.work (sale : OpenSale) : Settlement :=
  .sale sale.key sale.terms sale.prior

/-- With `amount` more sold, the sale keeps to what is released now. -/
structure OpenSale.Covers (sale : OpenSale) (now amount : UInt64) : Prop where
  started : sale.terms.start ≤ now
  within : sale.prior.sold.toNat + amount.toNat ≤ sale.terms.releasedAt now

theorem OpenSale.Covers.mono {sale : OpenSale} {now amount less : UInt64} (h : sale.Covers now amount)
    (hle : less ≤ amount) : sale.Covers now less where
  started := h.started
  within := Nat.le_trans (Nat.add_le_add_left (UInt64.le_iff_toNat_le.mp hle) _) h.within

/-!
# Up to the settlements
-/

section Selling

variable {setup : Setup} {sale : OpenSale} {s s' : State}

/-- Whatever is offered or promised to the taker is covered by the sale, and will
be recorded. -/
structure Offers (setup : Setup) (sale : OpenSale) (works : List Settlement) (amount : UInt64) :
    Prop where
  recorded : sale.work ∈ works
  covered : sale.Covers setup.environment.now amount

theorem Offers.mono {works more : List Settlement} {amount less : UInt64}
    (h : Offers setup sale works amount) (hworks : works ⊆ more) (hle : less ≤ amount) :
    Offers setup sale more less where
  recorded := hworks h.recorded
  covered := h.covered.mono hle

def Settlement.isSale : Settlement → Bool
  | .sale _ _ _ => true
  | _ => false

/-- A state of a run of a program with one sale. -/
structure Selling (setup : Setup) (sale : OpenSale) (s : State) : Prop where
  restores : Restores setup s.settlements s
  progress : (s.journal.sale? setup.program.id sale.key).getD .initial = sale.prior
  only : ∀ work ∈ s.settlements, work.isSale = true → work = sale.work
  balance : s.registers.balanceOut ≠ 0 →
    Offers setup sale s.settlements s.registers.balanceOut
  amount : s.solved = true → Offers setup sale s.settlements s.registers.amountOut

theorem auction_input_eq_ok {terms : Auction} (h : auction setup .input terms s = .ok s') :
    s.solved = false ∧ ∃ balanceIn, s' = s.setBalances balanceIn s.registers.balanceOut := by
  simp only [auction, bind_eq_ok_iff, requireUnsolved_eq_ok_iff, pure_eq_ok_iff] at h
  rcases h with ⟨-, hs, factor, -, balanceIn, -, rfl⟩
  exact ⟨hs, balanceIn, rfl⟩

namespace Selling

theorem initial (store : Order.Store)
    (hprior : (store.sale? setup.program.id sale.key).getD .initial = sale.prior) :
    Selling setup sale (State.initial setup.query store) where
  restores := Restores.initial store
  progress := hprior
  only := nofun
  balance := fun hne => by
    have hzero : (State.initial setup.query store).registers.balanceOut = 0 :=
      Registers.balance_setAmount .zero _ .output _
    exact absurd hzero hne
  amount := nofun

/-- A change that defers no sale, and neither raises the balance nor, once it is
solved, the amount of the output. -/
theorem of_le (hs : Selling setup sale s) (hrestores : Restores setup s'.settlements s')
    (hjournal : s'.journal.sale? setup.program.id sale.key =
      s.journal.sale? setup.program.id sale.key)
    {more : List Settlement} (hmore : ∀ work ∈ more, work.isSale = false)
    (hworks : s'.settlements = more ++ s.settlements)
    (hbalance : s'.registers.balanceOut ≤ s.registers.balanceOut)
    (hamount : s'.solved = true →
      s.solved = true ∧ s'.registers.amountOut ≤ s.registers.amountOut) :
    Selling setup sale s' where
  restores := hrestores
  progress := by rw [hjournal]; exact hs.progress
  only work hwork hsale := by
    rw [hworks] at hwork
    rcases List.mem_append.mp hwork with hnew | hold
    · rw [hmore work hnew] at hsale
      cases hsale
    · exact hs.only work hold hsale
  balance hne := by
    have hold : s.registers.balanceOut ≠ 0 := by
      intro hzero
      rw [hzero, UInt64.le_zero_iff] at hbalance
      exact hne hbalance
    rw [hworks]
    exact (hs.balance hold).mono (List.subset_append_right _ _) hbalance
  amount hsolved := by
    rcases hamount hsolved with ⟨hbefore, hle⟩
    rw [hworks]
    exact (hs.amount hbefore).mono (List.subset_append_right _ _) hle

/-- A change of the registers and of what comes next only. -/
theorem of_registers (hs : Selling setup sale s) (hrestores : Restores setup s'.settlements s')
    (hjournal : s'.journal = s.journal) (hworks : s'.settlements = s.settlements)
    (hbalance : s'.registers.balanceOut ≤ s.registers.balanceOut)
    (hamount : s'.solved = true →
      s.solved = true ∧ s'.registers.amountOut ≤ s.registers.amountOut) :
    Selling setup sale s' := by
  refine hs.of_le hrestores ?_ (List.forall_mem_nil _) hworks hbalance hamount
  rw [hjournal]

theorem opening {op : Opcode} {leg : Leg} {rate : UInt64} {recipient : Option Address}
    (hsolved : s.solved = false) (h : Opening setup op leg rate recipient s s')
    (hs : Selling setup sale s) : Selling setup sale s' := by
  have hrestores := hs.restores.opening h
  cases h with
  | charged hleg hfixed hnet hfee =>
      exact hs.of_le hrestores rfl (List.forall_mem_singleton.mpr rfl) rfl (UInt64.le_refl _)
        fun htrue => absurd (hsolved.symm.trans htrue) Bool.false_ne_true
  | raised hleg hfixed hgross =>
      exact hs.of_le hrestores rfl (List.forall_mem_singleton.mpr rfl) rfl (UInt64.le_refl _)
        fun htrue => absurd (hsolved.symm.trans htrue) Bool.false_ne_true
  | postponed hleg =>
      exact hs.of_le hrestores rfl (List.forall_mem_singleton.mpr rfl) rfl (UInt64.le_refl _)
        fun htrue => absurd (hsolved.symm.trans htrue) Bool.false_ne_true

theorem steady : Steady setup (Selling setup sale) where
  release hs := ⟨hs.restores, hs.progress, hs.only, hs.balance, hs.amount⟩
  advance _ _ hs := ⟨hs.restores, hs.progress, hs.only, hs.balance, hs.amount⟩
  opening hsolved h hs := hs.opening hsolved h

theorem offer (h : Machine.sale setup sale.key sale.terms s = .ok s')
    (hs : Selling setup sale s) : Selling setup sale s' := by
  have hrestores := hs.restores.change (i := .twap sale.terms) nofun (sale_eq_ok h)
  simp only [Machine.sale, hs.progress, bind_eq_ok_iff, requireUnsolved_eq_ok_iff, check_eq_ok_iff,
    calculate_eq_ok_iff, Arithmetic.difference_eq_ok_iff, unlocked_eq_ok_iff, pure_eq_ok_iff] at h
  rcases h with ⟨-, hsolved, -, hstart, elapsed, ⟨-, rfl⟩, released, ⟨-, hreleased⟩, -, hsome,
    balanceIn, -, rfl⟩
  have helapsed : (setup.environment.now - sale.terms.start).toNat =
      setup.environment.now.toNat - sale.terms.start.toNat := UInt64.toNat_sub_of_le _ _ hstart
  have hfit : released.toNat - sale.prior.sold.toNat < UInt64.size :=
    Nat.lt_of_le_of_lt (Nat.sub_le _ _) released.toNat_lt
  have havailable := UInt64.toNat_ofNat_of_lt' hfit
  -- What is left to sell is not zero, so no more was sold than is released.
  have hleft : released.toNat - sale.prior.sold.toNat ≠ 0 := by
    intro hzero
    rw [hzero] at hsome
    exact hsome rfl
  have hoffers : Offers setup sale (sale.work :: s.settlements)
      (UInt64.ofNat (released.toNat - sale.prior.sold.toNat)) := by
    refine ⟨List.mem_cons_self, hstart, ?_⟩
    rw [havailable, Sale.releasedAt, ← helapsed, ← hreleased]
    omega
  refine ⟨hrestores, hs.progress, ?_, fun _ => hoffers, fun htrue => ?_⟩
  · intro work hwork hsale
    rcases List.mem_cons.mp hwork with rfl | hold
    · rfl
    · exact hs.only work hold hsale
  · exact absurd (hsolved.symm.trans htrue) Bool.false_ne_true

theorem solve (h : Machine.solve setup s = .ok s') (hs : Selling setup sale s) :
    Selling setup sale s' := by
  have hrestores := hs.restores.change (i := .solve) nofun (solve_eq_ok h)
  cases solve_eq_ok h with
  | idle hidle => cases hidle
  | moved hjump next => cases hjump
  | repriced hset => cases hset
  | opened hopens => cases hopens
  | solvedOutput hsolved hfixed hquote =>
      rename_i amount
      rcases Arithmetic.quoteExactIn_eq_ok_iff.mp hquote with ⟨-, hne, hamount⟩
      have hle : amount ≤ s.registers.balanceOut := by
        rw [UInt64.le_iff_toNat_le, hamount]
        apply Nat.div_le_of_le_mul
        exact Nat.mul_le_mul_right _ (Nat.le_add_left _ _)
      exact ⟨hrestores, hs.progress, hs.only, hs.balance,
        fun _ => (hs.balance hne).mono (List.Subset.refl _) hle⟩
  | solvedInput hsolved hfixed hquote =>
      rcases Arithmetic.quoteExactOut_eq_ok_iff.mp hquote with ⟨-, hlt, -⟩
      have hne : s.registers.balanceOut ≠ 0 := by
        intro hzero
        rw [hzero] at hlt
        exact absurd hlt (UInt64.not_lt.mpr UInt64.zero_le)
      exact ⟨hrestores, hs.progress, hs.only, hs.balance,
        fun _ => (hs.balance hne).mono (List.Subset.refl _) (UInt64.le_of_lt hlt)⟩

theorem execute {offset : Nat} {i : Instruction} (hkeeps : i.keepsToSale = true)
    (hone : ∀ terms, i = .twap terms → UInt64.ofNat offset = sale.key ∧ terms = sale.terms)
    (h : Machine.execute setup offset i s = .ok s') (hs : Selling setup sale s) :
    Selling setup sale s' := by
  have hrestores := hs.restores.change (Operation.opcode_ne_of_keepsToSale hkeeps)
    (execute_eq_ok h)
  have hle := UInt64.le_refl s.registers.balanceOut
  cases hset : i.setsBalances with
  | true =>
      rcases Operation.exists_auction_of_keepsToSale hset hkeeps with ⟨terms, rfl⟩
      rcases auction_input_eq_ok h with ⟨hsolved, balanceIn, rfl⟩
      exact hs.of_registers hrestores rfl rfl hle
        fun htrue => absurd (hsolved.symm.trans htrue) Bool.false_ne_true
  | false =>
      cases execute_eq_ok h with
      | idle hidle => exact hs
      | moved hjump next =>
          exact hs.of_registers hrestores rfl rfl hle fun htrue => ⟨htrue, UInt64.le_refl _⟩
      | repriced hi =>
          rw [hset] at hi
          cases hi
      | loaded => cases hkeeps
      | faded hsolved hin hout =>
          exact hs.of_le hrestores rfl (List.forall_mem_singleton.mpr rfl) rfl hout
            fun htrue => absurd (hsolved.symm.trans htrue) Bool.false_ne_true
      | offered hsolved =>
          rename_i terms _ _ _
          rcases hone terms rfl with ⟨hkey, rfl⟩
          have hoffer : Machine.sale setup (UInt64.ofNat offset) sale.terms s = .ok _ := h
          rw [hkey] at hoffer
          exact hs.offer hoffer
      | opened hopens hsolved hopening => exact hs.opening hsolved hopening
      | held hsolved =>
          exact hs.of_registers hrestores rfl rfl hle
            fun htrue => absurd (hsolved.symm.trans htrue) Bool.false_ne_true
      | solvedOutput => exact hs.solve h
      | solvedInput => exact hs.solve h
      | lowered hsolved hfixed hamount =>
          exact hs.of_registers hrestores rfl rfl hle fun htrue => ⟨htrue, hamount⟩
      | lifted hsolved hfixed hamount =>
          exact hs.of_registers hrestores rfl rfl hle fun htrue => ⟨htrue, UInt64.le_refl _⟩
      | compensated => cases hkeeps
      | marked hclear =>
          refine hs.of_le hrestores ?_ (List.forall_mem_nil _) (State.settlements_write _ _ _) ?_ ?_
          · exact State.write_keeps (fun j => j.sale? setup.program.id sale.key =
              s.journal.sale? setup.program.id sale.key) rfl rfl
          · rw [State.registers_write]
            exact hle
          · rw [State.registers_write, State.solved_write]
            exact fun htrue => ⟨htrue, UInt64.le_refl _⟩
      | capped =>
          exact hs.of_le hrestores rfl (List.forall_mem_singleton.mpr rfl) rfl hle
            fun htrue => ⟨htrue, UInt64.le_refl _⟩
      | answered => cases hkeeps

end Selling
end Selling

/-!
# Settlements
-/

/-- What is recorded of a trade of `amount`. -/
structure OpenSale.Records (sale : OpenSale) (now amount : UInt64) (progress : SaleState) :
    Prop where
  last : progress.lastFill = some now
  started : sale.terms.start ≤ now
  within : progress.sold.toNat ≤ sale.terms.releasedAt now
  least : sale.prior.sold.toNat + sale.terms.minTradeOut.toNat ≤ progress.sold.toNat
  counted : sale.prior.sold.toNat + amount.toNat ≤ progress.sold.toNat

theorem OpenSale.Records.mono {sale : OpenSale} {now amount less : UInt64} {progress : SaleState}
    (h : sale.Records now amount progress) (hle : less ≤ amount) :
    sale.Records now less progress where
  last := h.last
  started := h.started
  within := h.within
  least := h.least
  counted := Nat.le_trans (Nat.add_le_add_left (UInt64.le_iff_toNat_le.mp hle) _) h.counted

def Recorded (setup : Setup) (sale : OpenSale) (s : State) : Prop :=
  ∃ progress, s.journal.sale? setup.program.id sale.key = some progress ∧
    sale.Records setup.environment.now s.registers.amountOut progress

/-- Until the trade is recorded, the sale covers it. -/
structure Recording (setup : Setup) (sale : OpenSale) (works : List Settlement) (s : State) :
    Prop where
  restores : Restores setup works s
  only : ∀ work ∈ works, work.isSale = true → work = sale.work
  covered : sale.Covers setup.environment.now s.registers.amountOut
  recorded : sale.work ∈ works ∨ Recorded setup sale s

namespace Recording

variable {setup : Setup} {sale : OpenSale} {s s' : State} {work : Settlement}
  {rest : List Settlement}

theorem other (hwork : work.isSale = false) (hle : s'.registers.amountOut ≤ s.registers.amountOut)
    (hjournal : s'.journal.sale? setup.program.id sale.key =
      s.journal.sale? setup.program.id sale.key)
    (h : sale.work ∈ work :: rest ∨ Recorded setup sale s) :
    sale.work ∈ rest ∨ Recorded setup sale s' := by
  rcases h with hmem | ⟨progress, hprogress, hrecords⟩
  · rcases List.mem_cons.mp hmem with rfl | hrest
    · cases hwork
    · exact Or.inl hrest
  · exact Or.inr ⟨progress, hjournal.trans hprogress, hrecords.mono hle⟩

theorem settle (hmode : setup.query.mode = .commit) (h : Settled setup work s s')
    (hs : Recording setup sale (work :: rest) s) : Recording setup sale rest s' := by
  have hdown : work.KeepsDown .output := nofun
  have hle : s'.registers.amountOut ≤ s.registers.amountOut :=
    amount_le_of_settled hdown hs.restores h
  refine ⟨hs.restores.settle h, fun w hw => hs.only w (List.mem_cons_of_mem _ hw),
    hs.covered.mono hle, ?_⟩
  cases h with
  | sold hleast hsold hlast =>
      rename_i offset terms prior progress
      cases hs.only _ List.mem_cons_self rfl
      refine Or.inr ⟨progress, ?_, hlast, hs.covered.started, ?_, ?_, ?_⟩
      · rw [hmode]
        exact Order.Journal.sale?_setSale_self _ _ _ _
      · rw [hsold]
        exact hs.covered.within
      · rw [hsold]
        exact Nat.add_le_add_left (UInt64.le_iff_toNat_le.mp hleast) _
      · rw [hsold]
        exact Nat.add_le_add_left (UInt64.le_iff_toNat_le.mp hle) _
  | charged hfee => exact other rfl hle rfl hs.recorded
  | _ =>
      refine other rfl hle ?_ hs.recorded
      exact State.write_keeps (fun j => j.sale? setup.program.id sale.key =
        s.journal.sale? setup.program.id sale.key) rfl rfl

end Recording

/-!
# Trades
-/

/-- The program has one sale and leaves the output to it. -/
structure SellsAt (program : Program) (key : UInt64) (terms : Sale) : Prop where
  one : program.records.toList.filterMap Record.sale? = [(key, terms)]
  keeps : ∀ r ∈ program.records, r.instruction.keepsToSale = true

theorem SellsAt.eq_of_twap {program : Program} {key : UInt64} {terms own : Sale}
    (h : SellsAt program key terms) {r : Record} (hr : r ∈ program.records)
    (htwap : r.instruction = .twap own) : UInt64.ofNat r.offset = key ∧ own = terms := by
  have hsale : r.sale? = some (UInt64.ofNat r.offset, own) := by
    unfold Record.sale?
    rw [htwap]
  have hmem : (UInt64.ofNat r.offset, own) ∈ program.records.toList.filterMap Record.sale? :=
    List.mem_filterMap.mpr ⟨r, Array.mem_toList_iff.mpr hr, hsale⟩
  rw [h.one] at hmem
  exact Prod.mk.inj (List.mem_singleton.mp hmem)

theorem recorded_of_run (setup : Setup) (sale : OpenSale)
    (hsells : SellsAt setup.program sale.key sale.terms) (hmode : setup.query.mode = .commit)
    {limit : UInt32} {store : Order.Store}
    (hprior : (store.sale? setup.program.id sale.key).getD .initial = sale.prior) {s' : State}
    (h : run setup limit store = .ok s') : Recorded setup sale s' := by
  rcases run_eq_ok h with ⟨stepped, s, hsteps, hfinish, hsettle⟩
  have hstepped : Selling setup sale stepped :=
    Selling.steady.ran
      (fun hr hexecute hs =>
        hs.execute (hsells.keeps _ hr) (fun _ htwap => hsells.eq_of_twap hr htwap) hexecute)
      (ran_of_runSteps hsteps) (Selling.initial store hprior)
  rcases Selling.steady.finishSteps hfinish hstepped with ⟨hsolved, hs⟩
  have hoffers := hs.amount hsolved
  have hrecording : Recording setup sale s.settlements { s with settlements := [] } :=
    ⟨hs.restores, hs.only, hoffers.covered, Or.inl hoffers.recorded⟩
  rcases (settleAll_keeps (fun h hs => hs.settle hmode h) hsettle hrecording).recorded with
    hmem | hrecorded
  · cases hmem
  · exact hrecorded

/-!
# Histories of a sale
-/

/-- The output that the sale of a program has sold. -/
def soldAt (program : ProgramId) (key : UInt64) (store : Order.Store) : Nat :=
  ((store.sale? program key).getD .initial).sold.toNat

/-- What a taker receives from the program `owner`. -/
def Bid.received (owner : ProgramId) (b : Bid) (store : Order.Store) : Nat :=
  match (b.place store).1 with
  | .ok o => if b.program.id = owner then o.amountOut.toNat else 0
  | .error _ => 0

/-- Nobody swaps another program under the id of `program`. -/
def Action.Respects (program : Program) : Action → Prop
  | swap bid => bid.program.id = program.id → bid.program = program
  | _ => True

/-- What was sold up to the last trade was released by then. -/
def OnSchedule (program : ProgramId) (key : UInt64) (terms : Sale) (store : Order.Store) : Prop :=
  ∀ progress, store.sale? program key = some progress →
    ∃ last, progress.lastFill = some last ∧ terms.start ≤ last ∧
      progress.sold.toNat ≤ terms.releasedAt last

section Histories

variable {program : Program} {key : UInt64} {terms : Sale}

theorem recorded_of_place (hsells : SellsAt program key terms) {b : Bid}
    (hb : b.program = program) {store : Order.Store} {o : Outcome}
    (hok : (b.place store).1 = .ok o) :
    ∃ progress, (b.place store).2.sale? program.id key = some progress ∧
      OpenSale.Records ⟨key, terms, (store.sale? program.id key).getD .initial⟩
        b.environment.now o.amountOut progress := by
  subst hb
  rcases b.place_cases store with ⟨s, haccepted, hrun, hplace⟩ | ⟨e, hplace⟩
  · rw [hplace] at hok ⊢
    cases hok
    rw [Order.Journal.sale?_commit]
    exact recorded_of_run b.setup ⟨key, terms, _⟩ hsells haccepted.mode_eq rfl hrun
  · rw [hplace] at hok
    cases hok

theorem sale?_of_other {b : Bid} (hb : b.program.id ≠ program.id) (store : Order.Store) :
    (b.place store).2.sale? program.id key = store.sale? program.id key := by
  rw [← Order.Store.sale?_ofProgram, Bid.ofProgram_place hb.symm, Order.Store.sale?_ofProgram]

/-- What is sold grows by what the taker of each trade receives. -/
theorem place_keeps (hsells : SellsAt program key terms) {b : Bid}
    (hb : (Action.swap b).Respects program) {store : Order.Store}
    (hstore : OnSchedule program.id key terms store) :
    OnSchedule program.id key terms (b.place store).2 ∧
      soldAt program.id key store + b.received program.id store ≤
        soldAt program.id key (b.place store).2 := by
  unfold Bid.received
  cases hplace : (b.place store).1 with
  | error e =>
      rw [Bid.place_eq_of_error hplace]
      exact ⟨hstore, Nat.le_refl _⟩
  | ok o =>
      by_cases hid : b.program.id = program.id
      · rcases recorded_of_place hsells (hb hid) hplace with ⟨progress, hprogress, hrecords⟩
        simp only [hid, if_true]
        unfold soldAt OnSchedule
        rw [hprogress]
        refine ⟨?_, hrecords.counted⟩
        intro p hp
        cases hp
        exact ⟨_, hrecords.last, hrecords.started, hrecords.within⟩
      · simp only [hid, if_false]
        unfold soldAt OnSchedule
        rw [sale?_of_other hid]
        exact ⟨hstore, Nat.le_refl _⟩

theorem action_keeps (hsells : SellsAt program key terms) {action : Action}
    (haction : action.Respects program) {store : Order.Store}
    (hstore : OnSchedule program.id key terms store) :
    OnSchedule program.id key terms (action.leaves store) ∧
      soldAt program.id key store + action.weighed (Bid.received program.id) store ≤
        soldAt program.id key (action.leaves store) := by
  cases action with
  | swap bid => exact place_keeps hsells haction hstore
  | quote bid => exact ⟨hstore, Nat.le_refl _⟩
  | invalidate owner bit => exact ⟨hstore, Nat.le_refl _⟩
  | reload =>
      rw [Action.leaves_reload]
      exact ⟨hstore, Nat.le_refl _⟩

/-- However a program with one sale is used, the sale never sells more than it has
released by the time of its last trade, takers never receive more than what counts
as sold, and no trade takes anything back. -/
theorem never_oversold (hsells : SellsAt program key terms) {store : Order.Store}
    (hnone : store.sale? program.id key = none) {history : List Action}
    (hhistory : ∀ action ∈ history, action.Respects program) :
    (∀ progress, (storeAfter store history).sale? program.id key = some progress →
      ∃ last, progress.lastFill = some last ∧ terms.start ≤ last ∧
        progress.sold.toNat ≤ terms.releasedAt last ∧
        terms.releasedAt last ≤ terms.balanceOut.toNat) ∧
    tally (Bid.received program.id) store history ≤
      soldAt program.id key (storeAfter store history) ∧
    (∀ action : Action, action.Respects program →
      soldAt program.id key (storeAfter store history) ≤
        soldAt program.id key (action.leaves (storeAfter store history))) ∧
    ∀ b : Bid, b.program = program → ∀ o, (b.place (storeAfter store history)).1 = .ok o →
      soldAt program.id key (storeAfter store history) + terms.minTradeOut.toNat ≤
        soldAt program.id key (b.place (storeAfter store history)).2 := by
  have hstart : OnSchedule program.id key terms store := by
    intro p hp
    rw [hnone] at hp
    cases hp
  rcases add_tally_le_of_allowed (OnSchedule program.id key terms) (fun a => a.Respects program)
    (fun _ _ haction hstore => action_keeps hsells haction hstore) hstart hhistory with
    ⟨hschedule, htally⟩
  refine ⟨?_, ?_, ?_, ?_⟩
  · intro progress hprogress
    rcases hschedule progress hprogress with ⟨last, hlast, hstarted, hsold⟩
    exact ⟨last, hlast, hstarted, hsold, terms.released_le _⟩
  · exact Nat.le_trans (Nat.le_add_left _ _) htally
  · intro action haction
    exact Nat.le_trans (Nat.le_add_right _ _) (action_keeps hsells haction hschedule).2
  · intro b hb o hok
    rcases recorded_of_place hsells hb hok with ⟨progress, hprogress, hrecords⟩
    have hleast := hrecords.least
    unfold soldAt
    rw [hprogress]
    exact hleast

end Histories

/-- A pool that sells 1000000 within 100 seconds, at first for two each. -/
def sellingPool : Program where
  id := .single 80
  bytes := #[]
  records := #[⟨0, .flatFee .output 30⟩,
    ⟨4, .twap ⟨1000, 100, 2000000, 1000000, 1000000000000000000, 30, 2000000000000000000, 50⟩⟩,
    ⟨62, .solve⟩]

def buyAt (time amount : UInt64) : Bid :=
  { payInto sellingPool amount with environment := (Observations.atTime time).environment }

/-- A trade, one by an earlier clock that is refused, and one more. -/
def purchases : List Action :=
  [.swap (buyAt 1050 100000), .swap (buyAt 1004 100000), .swap (buyAt 1080 5000)]

theorem never_oversold_by_purchases :
    (storeAfter .empty purchases).sale? sellingPool.id 4 = some ⟨46701, some 1080, true⟩ ∧
    tally (Bid.received sellingPool.id) .empty purchases = 46560 ∧
    tally (Bid.received sellingPool.id) .empty purchases ≤
      soldAt sellingPool.id 4 (storeAfter .empty purchases) := by
  have hsells : SellsAt sellingPool 4
      ⟨1000, 100, 2000000, 1000000, 1000000000000000000, 30, 2000000000000000000, 50⟩ :=
    ⟨rfl, by decide⟩
  have hpurchases : ∀ action ∈ purchases, action.Respects sellingPool := by
    simp [purchases, Action.Respects, buyAt, payInto]
  exact ⟨rfl, rfl, (never_oversold hsells rfl hpurchases).2.1⟩

end Machine
end SwapPricing
