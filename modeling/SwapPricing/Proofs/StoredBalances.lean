import Mathlib.Algebra.BigOperators.Group.List.Basic
import Mathlib.Algebra.Order.BigOperators.GroupWithZero.List
import Mathlib.Algebra.Order.Ring.Nat
import SwapPricing.Proofs.ConstantProduct

/-!
# Stored balances

Balances that outlive a run are read when a trade is priced and written when it
is settled.  Whatever happens in between, the pair that is written has no
smaller product than the pair that was read, so no sequence of swaps drains the
maker.
-/

namespace SwapPricing

namespace Operation

/-- The entries that a program falls back on where no balance is stored. -/
def initial? : Instruction → Option Entries
  | dynamicBalances entries => some entries
  | _ => none

/-- Whether an instruction prices a trade against stored balances: it loads
them, lets them decay, charges a fee, solves or bounds the trade, or only decides
whether and where the run goes on. -/
def tradesStored : Instruction → Bool
  | jump _ => true
  | jumpIfAsset _ _ _ => true
  | deadline _ => true
  | takerBalance _ _ => true
  | takerShare _ _ => true
  | salt _ => true
  | dynamicBalances _ => true
  | solve => true
  | decay _ => true
  | flatFee _ _ => true
  | progressiveFee _ _ => true
  | protocolFee _ _ _ => true
  | minRateAdjust _ => true
  | minRateRequire _ => true
  | invalidateBit _ => true
  | fillCap _ _ => true
  | _ => false

theorem opcode_ne_of_tradesStored {i : Instruction} (h : i.tradesStored = true) :
    i.opcode ≠ .baseFeeAdjust ∧ i.opcode ≠ .extruction := by
  constructor
  · intro heq
    cases i <;> first | (cases h; done) | cases heq
  · intro heq
    cases i <;> first | (cases h; done) | cases heq

end Operation

namespace Machine

/-- The balance that is read for an asset over a store: the stored one, or else
the listed one. -/
def held? (program : ProgramId) (entries : Entries) (store : Order.Store) (asset : AssetId) :
    Option UInt64 :=
  (store.balance? program asset).or (listed? entries asset)

/-!
# What was read

A pair of balances that waits to be stored was read before the run wrote any
balance.  Decay only moves the priced balances to the maker's side of it.
-/

/-- The pair was read from the store, and the trade is priced no better for the
taker than by it. -/
structure Captured (setup : Setup) (entries : Entries) (store : Order.Store) (r : Registers)
    (balanceIn balanceOut : UInt64) : Prop where
  input : held? setup.program.id entries store setup.query.assetIn = some balanceIn
  output : held? setup.program.id entries store setup.query.assetOut = some balanceOut
  input_le : balanceIn.toNat ≤ r.balanceIn.toNat
  le_output : r.balanceOut.toNat ≤ balanceOut.toNat

/-- Every pair that waits to be stored is captured. -/
def Backed (setup : Setup) (entries : Entries) (store : Order.Store) (works : List Settlement)
    (r : Registers) : Prop :=
  ∀ balanceIn balanceOut, .balances balanceIn balanceOut ∈ works →
    Captured setup entries store r balanceIn balanceOut

namespace Backed

variable {setup : Setup} {entries : Entries} {store : Order.Store} {works : List Settlement}
  {r r' : Registers}

theorem mono (hin : r.balanceIn ≤ r'.balanceIn) (hout : r'.balanceOut ≤ r.balanceOut)
    (hs : Backed setup entries store works r) : Backed setup entries store works r' := by
  intro balanceIn balanceOut hmem
  have hcaptured := hs balanceIn balanceOut hmem
  constructor
  · exact hcaptured.input
  · exact hcaptured.output
  · exact Nat.le_trans hcaptured.input_le (UInt64.le_iff_toNat_le.mp hin)
  · exact Nat.le_trans (UInt64.le_iff_toNat_le.mp hout) hcaptured.le_output

theorem of_balances_eq (hs : Backed setup entries store works r)
    (hin : r'.balanceIn = r.balanceIn) (hout : r'.balanceOut = r.balanceOut) :
    Backed setup entries store works r' := by
  apply hs.mono
  · rw [hin]
    exact UInt64.le_refl _
  · rw [hout]
    exact UInt64.le_refl _

/-- Work other than storing balances needs no backing. -/
theorem defer {work : Settlement}
    (hwork : ∀ balanceIn balanceOut, work ≠ .balances balanceIn balanceOut)
    (hs : Backed setup entries store works r) :
    Backed setup entries store (work :: works) r := by
  intro balanceIn balanceOut hmem
  rcases List.mem_cons.mp hmem with heq | hmem
  · exact absurd heq.symm (hwork balanceIn balanceOut)
  · exact hs balanceIn balanceOut hmem

/-- A pair that is read again is the same pair. -/
theorem load {balanceIn balanceOut : UInt64} (hs : Backed setup entries store works r)
    (hin : held? setup.program.id entries store setup.query.assetIn = some balanceIn)
    (hout : held? setup.program.id entries store setup.query.assetOut = some balanceOut) :
    Backed setup entries store (.balances balanceIn balanceOut :: works)
      (r.setBalances balanceIn balanceOut) := by
  have hnew : Captured setup entries store (r.setBalances balanceIn balanceOut) balanceIn
      balanceOut := ⟨hin, hout, Nat.le_refl _, Nat.le_refl _⟩
  intro oldIn oldOut hmem
  rcases List.mem_cons.mp hmem with heq | hmem
  · injection heq with heqIn heqOut
    rw [heqIn, heqOut]
    exact hnew
  · have hcaptured := hs oldIn oldOut hmem
    have heqIn := Option.some.inj (hcaptured.input.symm.trans hin)
    have heqOut := Option.some.inj (hcaptured.output.symm.trans hout)
    rw [heqIn, heqOut]
    exact hnew

theorem opening {op : Opcode} {leg : Leg} {rate : UInt64} {recipient : Option Address}
    {s s' : State} (h : Opening setup op leg rate recipient s s')
    (hs : Backed setup entries store s.settlements s.registers) :
    Backed setup entries store s'.settlements s'.registers := by
  cases h with
  | charged hleg hfixed hnet hfee =>
      exact Backed.defer nofun (hs.of_balances_eq rfl rfl)
  | raised hleg hfixed hgross =>
      exact Backed.defer nofun (hs.of_balances_eq rfl rfl)
  | postponed hleg => exact hs.defer nofun

end Backed

/-!
# What was stored
-/

/-- A journal over `store` holds the balances of the store, or it replaced the
pair that was read by one with no smaller product. -/
inductive Kept (setup : Setup) (entries : Entries) (store : Order.Store) (j : Order.Journal) :
    Prop where
  | untouched
      (h : ∀ asset, j.balance? setup.program.id asset = store.balance? setup.program.id asset)
  | replaced {balanceIn balanceOut newIn newOut : UInt64}
      (hin : held? setup.program.id entries store setup.query.assetIn = some balanceIn)
      (hout : held? setup.program.id entries store setup.query.assetOut = some balanceOut)
      (hnewIn : j.balance? setup.program.id setup.query.assetIn = some newIn)
      (hnewOut : j.balance? setup.program.id setup.query.assetOut = some newOut)
      (hproduct : balanceIn.toNat * balanceOut.toNat ≤ newIn.toNat * newOut.toNat)
      (hother : ∀ asset, asset ≠ setup.query.assetIn → asset ≠ setup.query.assetOut →
        j.balance? setup.program.id asset = store.balance? setup.program.id asset)

theorem Kept.other {setup : Setup} {entries : Entries} {store : Order.Store} {j : Order.Journal}
    (h : Kept setup entries store j) {asset : AssetId} (hin : asset ≠ setup.query.assetIn)
    (hout : asset ≠ setup.query.assetOut) :
    j.balance? setup.program.id asset = store.balance? setup.program.id asset := by
  cases h with
  | untouched hsame => exact hsame asset
  | replaced _ _ _ _ _ hother => exact hother asset hin hout

theorem Kept.of_balances_eq {setup : Setup} {entries : Entries} {store : Order.Store}
    {j j' : Order.Journal} (hj : Kept setup entries store j)
    (h : ∀ asset, j'.balance? setup.program.id asset = j.balance? setup.program.id asset) :
    Kept setup entries store j' := by
  cases hj with
  | untouched hsame => exact .untouched fun asset => (h asset).trans (hsame asset)
  | replaced hin hout hnewIn hnewOut hproduct hother =>
      rw [← h] at hnewIn hnewOut
      refine .replaced hin hout hnewIn hnewOut hproduct ?_
      intro asset hneIn hneOut
      rw [h]
      exact hother asset hneIn hneOut

/-- A trade that is fair at the priced balances is fair at any pair that the
priced ones favour the maker over. -/
theorem product_le_of_favoured {readIn readOut balanceIn balanceOut amountIn amountOut : Nat}
    (hin : readIn ≤ balanceIn) (hout : balanceOut ≤ readOut) (hle : amountOut ≤ balanceOut)
    (h : balanceIn * balanceOut ≤ (balanceIn + amountIn) * (balanceOut - amountOut)) :
    readIn * readOut ≤ (readIn + amountIn) * (readOut - amountOut) := by
  rcases Nat.exists_eq_add_of_le hle with ⟨kept, rfl⟩
  rcases Nat.exists_eq_add_of_le hout with ⟨spare, rfl⟩
  rw [Nat.add_sub_cancel_left] at h
  rw [Nat.add_assoc, Nat.add_sub_cancel_left]
  have hpaid : readIn * amountOut ≤ balanceIn * amountOut := Nat.mul_le_mul_right amountOut hin
  simp only [Nat.add_mul, Nat.mul_add] at h ⊢
  omega

/-- Where a trade covers more than itself, it covers itself. -/
theorem Covered.product_le {r : Registers} {feesIn feesOut : Nat} (h : Covered r feesIn feesOut) :
    r.balanceIn.toNat * r.balanceOut.toNat ≤
      (r.balanceIn.toNat + r.amountIn.toNat) * (r.balanceOut.toNat - r.amountOut.toNat) := by
  refine Nat.le_trans h.product (Nat.mul_le_mul ?_ ?_)
  · exact Nat.sub_le _ _
  · exact Nat.sub_le _ _

namespace Captured

variable {setup : Setup} {entries : Entries} {store : Order.Store} {r : Registers}
  {balanceIn balanceOut newIn newOut : UInt64} {feesIn feesOut : Nat}

/-- A captured pair gains by the trade that is settled. -/
theorem product_le (h : Captured setup entries store r balanceIn balanceOut)
    (hcovered : Covered r feesIn feesOut)
    (hin : newIn.toNat = balanceIn.toNat + r.amountIn.toNat)
    (hout : newOut.toNat + r.amountOut.toNat = balanceOut.toNat) :
    balanceIn.toNat * balanceOut.toNat ≤ newIn.toNat * newOut.toNat := by
  have hlt := hcovered.output
  have hle : r.amountOut.toNat ≤ r.balanceOut.toNat := by omega
  have hproduct :=
    product_le_of_favoured h.input_le h.le_output hle hcovered.product_le
  have hleft : balanceOut.toNat - r.amountOut.toNat = newOut.toNat := by omega
  rw [hin, ← hleft]
  exact hproduct

/-- Storing a captured pair keeps the product. -/
theorem kept (h : Captured setup entries store r balanceIn balanceOut)
    (hdistinct : setup.query.assetIn ≠ setup.query.assetOut)
    (hcovered : Covered r feesIn feesOut)
    (hin : newIn.toNat = balanceIn.toNat + r.amountIn.toNat)
    (hout : newOut.toNat + r.amountOut.toNat = balanceOut.toNat) {j : Order.Journal}
    (hj : Kept setup entries store j) :
    Kept setup entries store
      ((j.setBalance setup.program.id setup.query.assetIn newIn).setBalance setup.program.id
        setup.query.assetOut newOut) := by
  apply Kept.replaced h.input h.output
  · rw [Order.Journal.balance?_setBalance_of_ne _ _ hdistinct]
    exact Order.Journal.balance?_setBalance_self _ _ _ _
  · exact Order.Journal.balance?_setBalance_self _ _ _ _
  · exact h.product_le hcovered hin hout
  · intro asset hneIn hneOut
    rw [Order.Journal.balance?_setBalance_of_ne _ _ hneOut,
      Order.Journal.balance?_setBalance_of_ne _ _ hneIn]
    exact hj.other hneIn hneOut

end Captured

/-!
# The invariant
-/

/-- Between records: a solved trade is covered, what waits to be stored is
captured, and no balance has been written. -/
structure Trading (setup : Setup) (entries : Entries) (store : Order.Store) (s : State) :
    Prop where
  sound : Sound setup s
  backed : Backed setup entries store s.settlements s.registers
  unwritten : ∀ asset,
    s.journal.balance? setup.program.id asset = store.balance? setup.program.id asset

/-- Between settlements: the trade is covered, what still waits to be stored is
captured, and what has been stored has no smaller product. -/
structure Storing (setup : Setup) (entries : Entries) (store : Order.Store)
    (works : List Settlement) (s : State) : Prop where
  settling : Settling setup works s
  backed : Backed setup entries store works s.registers
  kept : Kept setup entries store s.journal

namespace Trading

variable {setup : Setup} {entries : Entries} {store : Order.Store} {s s' : State}

theorem initial (store : Order.Store) :
    Trading setup entries store (State.initial setup.query store) where
  sound := Sound.initial store
  backed _ _ hmem := nomatch hmem
  unwritten _ := rfl

theorem opening {op : Opcode} {leg : Leg} {rate : UInt64} {recipient : Option Address}
    (hsolved : s.solved = false) (h : Opening setup op leg rate recipient s s')
    (hs : Trading setup entries store s) : Trading setup entries store s' := by
  have hsound := hs.sound.opening hsolved h
  have hbacked := hs.backed.opening h
  cases h with
  | charged hleg hfixed hnet hfee => exact ⟨hsound, hbacked, hs.unwritten⟩
  | raised hleg hfixed hgross => exact ⟨hsound, hbacked, hs.unwritten⟩
  | postponed hleg => exact ⟨hsound, hbacked, hs.unwritten⟩

theorem change {i : Instruction} (hi : i.tradesStored = true)
    (hentries : ∀ listed, i.initial? = some listed → listed = entries) (h : Change setup i s s')
    (hs : Trading setup entries store s) : Trading setup entries store s' := by
  rcases Operation.opcode_ne_of_tradesStored hi with ⟨hgas, hexternal⟩
  have hsound := hs.sound.change hexternal hgas h
  cases h with
  | idle hidle => exact ⟨hsound, hs.backed, hs.unwritten⟩
  | moved hjump next => exact ⟨hsound, hs.backed, hs.unwritten⟩
  | repriced hsets hsolved =>
      cases i <;> first | (cases hi; done) | cases hsets
  | loaded hsolved hin hout =>
      refine ⟨hsound, ?_, hs.unwritten⟩
      rw [hs.unwritten, hentries _ rfl] at hin hout
      exact hs.backed.load hin hout
  | faded hsolved hin hout =>
      refine ⟨hsound, ?_, hs.unwritten⟩
      exact (hs.backed.mono hin hout).defer nofun
  | offered hsolved => cases hi
  | opened hfee hsolved hopening => exact hs.opening hsolved hopening
  | held hsolved => exact ⟨hsound, hs.backed, hs.unwritten⟩
  | solvedOutput hsolved hfixed hquote =>
      exact ⟨hsound, hs.backed.of_balances_eq rfl rfl, hs.unwritten⟩
  | solvedInput hsolved hfixed hquote =>
      exact ⟨hsound, hs.backed.of_balances_eq rfl rfl, hs.unwritten⟩
  | lowered hsolved hfixed hle => exact ⟨hsound, hs.backed.of_balances_eq rfl rfl, hs.unwritten⟩
  | lifted hsolved hfixed hle => exact ⟨hsound, hs.backed.of_balances_eq rfl rfl, hs.unwritten⟩
  | compensated hsolved => cases hi
  | marked hclear =>
      refine ⟨hsound, ?_, ?_⟩
      · rw [State.settlements_write, State.registers_write]
        exact hs.backed
      · intro asset
        rw [← hs.unwritten asset]
        cases setup.query.mode <;> rfl
  | capped => exact ⟨hsound, hs.backed.defer nofun, hs.unwritten⟩
  | answered => cases hi

theorem finish (hsolved : s.solved = true) (hs : Trading setup entries store s) :
    Storing setup entries store s.settlements { s with settlements := [] } :=
  ⟨hs.sound.finish hsolved, hs.backed, .untouched hs.unwritten⟩

end Trading

namespace Storing

variable {setup : Setup} {entries : Entries} {store : Order.Store} {s s' : State}

theorem write {work : Settlement} {rest : List Settlement} {mode : ExecutionMode}
    {change : Order.Journal → Order.Journal}
    (hsettling : Settling setup rest (s.write mode change))
    (hkept : Kept setup entries store (change s.journal))
    (hs : Storing setup entries store (work :: rest) s) :
    Storing setup entries store rest (s.write mode change) := by
  refine ⟨hsettling, ?_, ?_⟩
  · rw [State.registers_write]
    intro balanceIn balanceOut hmem
    exact hs.backed balanceIn balanceOut (List.mem_cons_of_mem work hmem)
  · cases mode with
    | simulate => exact hs.kept
    | commit => exact hkept

theorem settle {work : Settlement} {rest : List Settlement}
    (hdistinct : setup.query.assetIn ≠ setup.query.assetOut) (h : Settled setup work s s')
    (hs : Storing setup entries store (work :: rest) s) : Storing setup entries store rest s' := by
  have hsettling := hs.settling.settle hdistinct h
  cases h with
  | stored hin hout =>
      have hcaptured := hs.backed _ _ List.mem_cons_self
      exact hs.write hsettling
        (hcaptured.kept hdistinct hs.settling.covered hin hout hs.kept)
  | shifted => exact hs.write hsettling (hs.kept.of_balances_eq fun _ => rfl)
  | sold => exact hs.write hsettling (hs.kept.of_balances_eq fun _ => rfl)
  | charged hfee =>
      refine ⟨hsettling, ?_, hs.kept⟩
      rename_i op leg rate fee amount carried recipient
      have hbacked : Backed setup entries store rest s.registers := by
        intro balanceIn balanceOut hmem
        exact hs.backed balanceIn balanceOut (List.mem_cons_of_mem _ hmem)
      cases leg with
      | input => exact hbacked.of_balances_eq rfl rfl
      | output => exact hbacked.of_balances_eq rfl rfl
  | filled hcap => exact hs.write hsettling (hs.kept.of_balances_eq fun _ => rfl)

end Storing

theorem tradingInvariant {setup : Setup} {entries : Entries}
    (hdistinct : setup.query.assetIn ≠ setup.query.assetOut)
    (htrades : ∀ r ∈ setup.program.records, r.instruction.tradesStored = true)
    (hentries : ∀ r ∈ setup.program.records, ∀ listed, r.instruction.initial? = some listed →
      listed = entries) (store : Order.Store) :
    Invariant setup (Trading setup entries store) (Storing setup entries store) where
  advance _ _ hs :=
    ⟨⟨hs.sound.restores, hs.sound.covered, hs.sound.unowed⟩, hs.backed, hs.unwritten⟩
  release hs := ⟨⟨hs.sound.restores, hs.sound.covered, hs.sound.unowed⟩, hs.backed, hs.unwritten⟩
  opening hsolved h hs := hs.opening hsolved h
  change hr h hs := hs.change (htrades _ hr) (hentries _ hr) h
  finish hsolved hs := hs.finish hsolved
  settle h hs := hs.settle hdistinct h

/-- A swap that succeeds keeps the balances, up to a pair with no smaller product. -/
theorem kept_of_swap {program : Program} {entries : Entries}
    (htrades : ∀ r ∈ program.records, r.instruction.tradesStored = true)
    (hentries : ∀ r ∈ program.records, ∀ listed, r.instruction.initial? = some listed →
      listed = entries) {query : Query} {environment : Environment} {external : ExternalLogic}
    {limit : UInt32} {store : Order.Store} {s : State} (haccepted : Accepted query .commit)
    (hrun : run ⟨program, query, environment, external⟩ limit store = .ok s) :
    Kept ⟨program, query, environment, external⟩ entries store s.journal :=
  ((tradingInvariant haccepted.distinct htrades hentries store).run hrun
    (Trading.initial store)).kept

/-!
# The product over all listed assets
-/

/-- The balance of a listed asset: the stored one, or else the listed one. -/
def effective (program : ProgramId) (store : Order.Store) (entry : AssetId × UInt64) : UInt64 :=
  (store.balance? program entry.1).getD entry.2

def depth (program : ProgramId) (entries : Entries) (store : Order.Store) : Nat :=
  (entries.map fun entry => (effective program store entry).toNat).prod

theorem prod_le_of_pair {α : Type} [DecidableEq α] {l : List α} {a b : α} {f g : α → Nat}
    (hnodup : l.Nodup) (ha : a ∈ l) (hb : b ∈ l) (hne : b ≠ a)
    (hpair : f a * f b ≤ g a * g b) (hother : ∀ c ∈ l, c ≠ a → c ≠ b → g c = f c) :
    (l.map f).prod ≤ (l.map g).prod := by
  have hb : b ∈ l.erase a := (List.mem_erase_of_ne hne).mpr hb
  have hrest : ((l.erase a).erase b).map g = ((l.erase a).erase b).map f := by
    apply List.map_congr_left
    intro c hc
    rcases (hnodup.erase a).mem_erase_iff.mp hc with ⟨hcb, hc⟩
    rcases hnodup.mem_erase_iff.mp hc with ⟨hca, hc⟩
    exact hother c hc hca hcb
  calc (l.map f).prod
      = f a * f b * (((l.erase a).erase b).map f).prod := by
        rw [← List.prod_map_erase f ha, ← List.prod_map_erase f hb, Nat.mul_assoc]
    _ ≤ g a * g b * (((l.erase a).erase b).map f).prod := Nat.mul_le_mul_right _ hpair
    _ = (l.map g).prod := by
        rw [← List.prod_map_erase g ha, ← List.prod_map_erase g hb, Nat.mul_assoc, hrest]

theorem prod_lt_of_exists {α : Type} [DecidableEq α] {l : List α} {f g : α → Nat}
    (hpos : ∀ a ∈ l, 0 < g a) (hle : ∀ a ∈ l, f a ≤ g a) (hlt : ∃ a ∈ l, f a < g a) :
    (l.map f).prod < (l.map g).prod := by
  rcases hlt with ⟨a, ha, hlt⟩
  have hrest : ((l.erase a).map f).prod ≤ ((l.erase a).map g).prod := by
    apply List.prod_map_le_prod_map₀
    · intro b hb
      exact Nat.zero_le _
    · intro b hb
      exact hle b (List.mem_of_mem_erase hb)
  have hrestPos : 0 < ((l.erase a).map g).prod := by
    apply List.prod_pos
    intro n hn
    rcases List.mem_map.mp hn with ⟨b, hb, rfl⟩
    exact hpos b (List.mem_of_mem_erase hb)
  calc (l.map f).prod
      = f a * ((l.erase a).map f).prod := (List.prod_map_erase f ha).symm
    _ ≤ f a * ((l.erase a).map g).prod := Nat.mul_le_mul_left _ hrest
    _ < g a * ((l.erase a).map g).prod := Nat.mul_lt_mul_of_pos_right hlt hrestPos
    _ = (l.map g).prod := List.prod_map_erase g ha

theorem mem_of_listed? {entries : Entries} {asset : AssetId} {amount : UInt64}
    (h : listed? entries asset = some amount) : (asset, amount) ∈ entries := by
  unfold listed? at h
  rcases Option.map_eq_some_iff.mp h with ⟨entry, hfind, hamount⟩
  have hasset : entry.1 = asset := by simpa using List.find?_some hfind
  have hentry : entry = (asset, amount) := by rw [← hasset, ← hamount]
  exact hentry ▸ List.mem_of_find?_eq_some hfind

def StoresListed (program : ProgramId) (entries : Entries) (store : Order.Store) : Prop :=
  ∀ asset balance, store.balance? program asset = some balance → asset ∈ entries.map Prod.fst

theorem exists_entry_of_held? {program : ProgramId} {entries : Entries} {store : Order.Store}
    (hstored : StoresListed program entries store) {asset : AssetId} {balance : UInt64}
    (h : held? program entries store asset = some balance) :
    ∃ entry ∈ entries, entry.1 = asset ∧ effective program store entry = balance := by
  unfold held? at h
  cases hbalance : store.balance? program asset with
  | none =>
      rw [hbalance, Option.none_or] at h
      refine ⟨(asset, balance), mem_of_listed? h, rfl, ?_⟩
      simp [effective, hbalance]
  | some stored =>
      rw [hbalance, Option.some_or, Option.some.injEq] at h
      rcases List.mem_map.mp (hstored asset stored hbalance) with ⟨entry, hentry, hasset⟩
      refine ⟨entry, hentry, hasset, ?_⟩
      simp [effective, hasset, hbalance, h]

namespace Kept

variable {setup : Setup} {entries : Entries} {store : Order.Store} {j : Order.Journal}

theorem storesListed (h : Kept setup entries store j)
    (hstored : StoresListed setup.program.id entries store) :
    StoresListed setup.program.id entries j.commit := by
  intro asset balance hbalance
  rw [Order.Journal.balance?_commit] at hbalance
  cases h with
  | untouched hsame => exact hstored asset balance ((hsame asset).symm.trans hbalance)
  | replaced hin hout hnewIn hnewOut hproduct hother =>
      by_cases hassetIn : asset = setup.query.assetIn
      · rcases exists_entry_of_held? hstored hin with ⟨entry, hentry, hasset, -⟩
        rw [hassetIn, ← hasset]
        exact List.mem_map_of_mem hentry
      · by_cases hassetOut : asset = setup.query.assetOut
        · rcases exists_entry_of_held? hstored hout with ⟨entry, hentry, hasset, -⟩
          rw [hassetOut, ← hasset]
          exact List.mem_map_of_mem hentry
        · exact hstored asset balance ((hother asset hassetIn hassetOut).symm.trans hbalance)

theorem depth_le (h : Kept setup entries store j) (hnodup : (entries.map Prod.fst).Nodup)
    (hdistinct : setup.query.assetIn ≠ setup.query.assetOut)
    (hstored : StoresListed setup.program.id entries store) :
    depth setup.program.id entries store ≤ depth setup.program.id entries j.commit := by
  have hinj := List.inj_on_of_nodup_map hnodup
  cases h with
  | untouched hsame =>
      apply Nat.le_of_eq
      unfold depth effective
      simp only [Order.Journal.balance?_commit, hsame]
  | replaced hin hout hnewIn hnewOut hproduct hother =>
      rcases exists_entry_of_held? hstored hin with ⟨entryIn, hmemIn, hassetIn, hheldIn⟩
      rcases exists_entry_of_held? hstored hout with ⟨entryOut, hmemOut, hassetOut, hheldOut⟩
      apply prod_le_of_pair hnodup.of_map hmemIn hmemOut
      · intro heq
        rw [heq, hassetIn] at hassetOut
        exact hdistinct hassetOut
      · rw [hheldIn, hheldOut]
        simpa only [effective, Order.Journal.balance?_commit, hassetIn, hassetOut, hnewIn, hnewOut,
          Option.getD_some] using hproduct
      · intro entry hmem hneIn hneOut
        have hother := hother entry.1
          (fun hasset => hneIn (hinj hmem hmemIn (hasset.trans hassetIn.symm)))
          (fun hasset => hneOut (hinj hmem hmemOut (hasset.trans hassetOut.symm)))
        simp only [effective, Order.Journal.balance?_commit, hother]

end Kept

/-!
# Sequences of swaps
-/

/-- A swap that somebody attempts: the query, and the host and the limit on
steps that it meets. -/
structure Attempt where
  query : Query
  environment : Environment
  external : ExternalLogic
  limit : UInt32

/-- The store after an attempt, which may have failed. -/
def attempt (program : Program) (store : Order.Store) (a : Attempt) : Order.Store :=
  (swap program a.query a.environment a.external a.limit store).2

def attemptAll (program : Program) (store : Order.Store) (attempts : List Attempt) : Order.Store :=
  attempts.foldl (attempt program) store

section Attempts

variable {program : Program} {entries : Entries}

/-- The program falls back on the same entries wherever it loads balances. -/
theorem initial?_eq_of_filterMap {r : Record}
    (hone : program.records.toList.filterMap (fun r => r.instruction.initial?) = [entries])
    (hr : r ∈ program.records) {listed : Entries} (h : r.instruction.initial? = some listed) :
    listed = entries := by
  have hmem : listed ∈ program.records.toList.filterMap (fun r => r.instruction.initial?) :=
    List.mem_filterMap.mpr ⟨r, Array.mem_toList_iff.mpr hr, h⟩
  rw [hone] at hmem
  exact List.mem_singleton.mp hmem

theorem attempt_keeps (hnodup : (entries.map Prod.fst).Nodup)
    (hone : program.records.toList.filterMap (fun r => r.instruction.initial?) = [entries])
    (htrades : ∀ r ∈ program.records, r.instruction.tradesStored = true) {store : Order.Store}
    (hstored : StoresListed program.id entries store) (a : Attempt) :
    StoresListed program.id entries (attempt program store a) ∧
      depth program.id entries store ≤ depth program.id entries (attempt program store a) := by
  unfold attempt
  rcases swap_cases program a.query a.environment a.external a.limit store with
    ⟨s, haccepted, hrun, hswap⟩ | ⟨e, hswap⟩
  · have hkept := kept_of_swap htrades
      (fun r hr listed h => initial?_eq_of_filterMap hone hr h) haccepted hrun
    rw [hswap]
    exact ⟨hkept.storesListed hstored, hkept.depth_le hnodup haccepted.distinct hstored⟩
  · rw [hswap]
    exact ⟨hstored, Nat.le_refl _⟩

theorem attemptAll_keeps (hnodup : (entries.map Prod.fst).Nodup)
    (hone : program.records.toList.filterMap (fun r => r.instruction.initial?) = [entries])
    (htrades : ∀ r ∈ program.records, r.instruction.tradesStored = true) {store : Order.Store}
    (hstored : StoresListed program.id entries store) (attempts : List Attempt) :
    StoresListed program.id entries (attemptAll program store attempts) ∧
      depth program.id entries store ≤
        depth program.id entries (attemptAll program store attempts) := by
  induction attempts generalizing store with
  | nil => exact ⟨hstored, Nat.le_refl _⟩
  | cons a rest ih =>
      rcases attempt_keeps hnodup hone htrades hstored a with ⟨hafter, hle⟩
      rcases ih hafter with ⟨hfinal, hrest⟩
      exact ⟨hfinal, Nat.le_trans hle hrest⟩

theorem balance?_eq_none_of_isEmpty {store : Order.Store}
    (hempty : (store.ofProgram program.id).isEmpty = true) (asset : AssetId) :
    store.balance? program.id asset = none := by
  have hbalances : (store.balances.filter fun key => key.program = program.id).isEmpty = true := by
    simp only [Order.Store.isEmpty, Bool.and_eq_true] at hempty
    exact hempty.1.2
  exact Table.find?_eq_none_of_isEmpty_filter hbalances (decide_eq_true rfl)

/-- However a program that trades stored balances is used, the product of the
balances of all its assets never decreases.  So no sequence of swaps takes
something from a maker who started with some of every asset and gives nothing
for it. -/
theorem depth_le_of_attempts (hnodup : (entries.map Prod.fst).Nodup)
    (hone : program.records.toList.filterMap (fun r => r.instruction.initial?) = [entries])
    (htrades : ∀ r ∈ program.records, r.instruction.tradesStored = true) {store : Order.Store}
    (hempty : (store.ofProgram program.id).isEmpty = true) :
    (∀ before after : List Attempt,
      depth program.id entries (attemptAll program store before) ≤
        depth program.id entries (attemptAll program store (before ++ after))) ∧
    ((∀ entry ∈ entries, entry.2 ≠ 0) → ∀ attempts : List Attempt,
      ¬ ((∀ entry ∈ entries,
            effective program.id (attemptAll program store attempts) entry ≤ entry.2) ∧
          ∃ entry ∈ entries,
            effective program.id (attemptAll program store attempts) entry < entry.2)) := by
  have hnone := balance?_eq_none_of_isEmpty hempty
  have hstored : StoresListed program.id entries store := by
    intro asset balance hbalance
    rw [hnone asset] at hbalance
    cases hbalance
  constructor
  · intro before after
    unfold attemptAll
    rw [List.foldl_append]
    have hbefore := (attemptAll_keeps hnodup hone htrades hstored before).1
    exact (attemptAll_keeps hnodup hone htrades hbefore after).2
  · rintro hpos attempts ⟨hle, entry, hentry, hlt⟩
    have hdepth := (attemptAll_keeps hnodup hone htrades hstored attempts).2
    refine Nat.not_lt_of_le hdepth (prod_lt_of_exists ?_ ?_ ?_)
    · intro entry hentry
      simp only [effective, hnone, Option.getD_none]
      exact Nat.pos_of_ne_zero fun hzero => hpos entry hentry (UInt64.toNat_inj.mp hzero)
    · intro entry hentry
      simp only [hnone, effective, Option.getD_none]
      exact UInt64.le_iff_toNat_le.mp (hle entry hentry)
    · refine ⟨entry, hentry, ?_⟩
      simp only [hnone, effective, Option.getD_none]
      exact UInt64.lt_iff_toNat_lt.mp hlt

end Attempts

/-- A pool of stored balances, which decay, behind a fee. -/
def storedPool : Program where
  id := .single 80
  bytes := #[]
  records := #[⟨0, .flatFee .input 30⟩, ⟨4, .dynamicBalances [(.single 65, 1000000),
    (.single 66, 2000000)]⟩, ⟨87, .decay 60⟩, ⟨93, .solve⟩]

def forth : Attempt :=
  ⟨(Query.simulated .input (.single 65) (.single 66) 1000).committing,
    (Observations.atTime 100).environment, .absent, 16⟩

def back : Attempt :=
  ⟨(Query.simulated .output (.single 66) (.single 65) 900).committing,
    (Observations.atTime 130).environment, .absent, 16⟩

theorem depth_le_of_forth_and_back :
    (attemptAll storedPool .empty [forth]).balance? storedPool.id (.single 65) = some 1000997 ∧
    (attemptAll storedPool .empty [forth, back]).balance? storedPool.id (.single 65) =
      some 1000097 ∧
    depth storedPool.id [(.single 65, 1000000), (.single 66, 2000000)]
        (attemptAll storedPool .empty [forth]) ≤
      depth storedPool.id [(.single 65, 1000000), (.single 66, 2000000)]
        (attemptAll storedPool .empty [forth, back]) := by
  have hempty : (Order.Store.empty.ofProgram storedPool.id).isEmpty = true := rfl
  have hforth : (attemptAll storedPool .empty [forth]).balance? storedPool.id (.single 65) =
      some 1000997 := rfl
  have hback : (attemptAll storedPool .empty [forth, back]).balance? storedPool.id (.single 65) =
      some 1000097 := rfl
  exact ⟨hforth, hback,
    (depth_le_of_attempts (by decide) rfl (by decide) hempty).1 [forth] [back]⟩

end Machine
end SwapPricing
