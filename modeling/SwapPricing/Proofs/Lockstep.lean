import SwapPricing.Proofs.Decoding
import SwapPricing.Proofs.Reshaping
import SwapPricing.Proofs.StraightLine

/-!
# Two quotes side by side

A quote at a fixed input is run beside one at a fixed output.  Every fee takes
an amount of the one and an amount of the other through the two halves of a
Galois connection, whether it acts before the trade or after it.
-/

namespace SwapPricing

open Arithmetic (bps deductRate grossUp quoteExactIn quoteExactOut)

/-- What the same taker asks for at another amount. -/
def Query.asking (q : Query) (fixed : Leg) (amount : UInt64) : Query :=
  { q with fixed := fixed, amount := amount, mode := .simulate }

namespace Operation

/-- Whether an instruction is a fee at a rate that no trade changes. -/
def chargesRate : Instruction → Bool
  | flatFee _ _ => true
  | protocolFee _ _ _ => true
  | _ => false

theorem isStraight_of_setsBalances {i : Instruction} (h : i.setsBalances = true) :
    i.isStraight = true := by
  cases i <;> first | rfl | cases h

theorem isStraight_of_chargesRate {i : Instruction} (h : i.chargesRate = true) :
    i.isStraight = true := by
  cases i <;> first | rfl | cases h

end Operation

namespace Machine

/-- The setup of a quote for another amount. -/
def Setup.asking (setup : Setup) (fixed : Leg) (amount : UInt64) : Setup :=
  setup.reasked (setup.query.asking fixed amount) setup.external

/-!
# Amounts on both sides of fees
-/

/-- The most that fees of the given rates leave of `offered`. -/
def MostOf (rates : List UInt64) (offered amount : UInt64) : Prop :=
  ∀ target, target ≤ amount ↔
    ∃ gross, afterFees .input rates target = .ok gross ∧ gross ≤ offered

theorem MostOf.charge {rates : List UInt64} {rate offered amount net : UInt64}
    (hrate : rate.toNat < bps) (hnet : deductRate amount rate = .ok net)
    (h : MostOf rates offered amount) : MostOf (rate :: rates) offered net := by
  intro target
  rw [Arithmetic.le_deductRate_iff hrate hnet]
  constructor
  · rintro ⟨raised, hraised, hle⟩
    rcases (h raised).mp hle with ⟨gross, hgross, hoffered⟩
    exact ⟨gross, afterFees_cons.mpr ⟨raised, hraised, hgross⟩, hoffered⟩
  · rintro ⟨gross, hgross, hoffered⟩
    rcases afterFees_cons.mp hgross with ⟨raised, hraised, hrest⟩
    exact ⟨raised, hraised, (h raised).mpr ⟨gross, hrest, hoffered⟩⟩

/-- Fees of the given rates leave an output of at least `wanted` exactly of the
amounts that satisfy `Enough`. -/
def LeavesFor (rates : List UInt64) (wanted : UInt64) (Enough : UInt64 → Prop) : Prop :=
  ∀ amount, ∃ left, afterFees .output rates amount = .ok left ∧ (wanted ≤ left ↔ Enough amount)

theorem LeavesFor.charge {rates : List UInt64} {rate wanted : UInt64}
    {Enough Enough' : UInt64 → Prop} (hrate : rate.toNat < bps)
    (henough : ∀ amount net, deductRate amount rate = .ok net → (Enough' amount ↔ Enough net))
    (h : LeavesFor rates wanted Enough) : LeavesFor (rate :: rates) wanted Enough' := by
  intro amount
  rcases Arithmetic.exists_deductRate amount (Nat.le_of_lt hrate) with ⟨net, hnet⟩
  rcases h net with ⟨left, hleft, hwanted⟩
  refine ⟨left, afterFees_cons.mpr ⟨net, hnet, hleft⟩, ?_⟩
  rw [hwanted, henough amount net hnet]

theorem LeavesFor.congr {rates : List UInt64} {wanted : UInt64} {Enough Enough' : UInt64 → Prop}
    (henough : ∀ amount, Enough' amount ↔ Enough amount)
    (h : LeavesFor rates wanted Enough) : LeavesFor rates wanted Enough' := by
  intro amount
  rcases h amount with ⟨left, hleft, hwanted⟩
  exact ⟨left, hleft, hwanted.trans (henough amount).symm⟩

/-- The run succeeds and asks the pool for at most `amount`. -/
def AsksAtMost (b : Run State) (amount : UInt64) : Prop :=
  ∃ t, b = .ok t ∧ t.registers.amountOut ≤ amount

/-!
# One quote between records
-/

/-- A quote that has met nothing but fees so far, at the balances of `c`. -/
structure Charging (setup : Setup) (c s : State) : Prop where
  reference : c.solved = false
  unsolved : s.solved = false
  balanceIn : s.registers.balanceIn = c.registers.balanceIn
  balanceOut : s.registers.balanceOut = c.registers.balanceOut
  rates : ∀ fee ∈ s.pending, fee.rate.toNat < bps
  fees : ∀ work ∈ s.settlements, work.isFee = true
  restores : Restores setup s.settlements s

/-- The state `s` at the balances of `t`. -/
def State.adopt (s t : State) : State :=
  { s with
    registers := s.registers.setBalances t.registers.balanceIn t.registers.balanceOut
    solved := t.solved }

theorem keepsBalances_adopt (s : State) : KeepsBalances s.adopt :=
  ⟨fun _ => rfl, fun _ => rfl, fun _ => rfl, fun _ _ _ => rfl⟩

namespace Charging

variable {setup : Setup} {c s s' : State}

theorem initial (fixed : Leg) (amount : UInt64) (store : Order.Store) :
    Charging (setup.asking fixed amount) (State.initial setup.query store)
      (State.initial (setup.asking fixed amount).query store) := by
  have hbalance (leg : Leg) : (Registers.seeded (setup.asking fixed amount).query).balance leg =
      (Registers.seeded setup.query).balance leg := by
    unfold Registers.seeded
    rw [Registers.balance_setAmount, Registers.balance_setAmount]
  exact ⟨rfl, rfl, hbalance .input, hbalance .output, List.forall_mem_nil _,
    List.forall_mem_nil _, .initial store⟩

theorem adopt_eq (hs : Charging setup c s) : s.adopt c = s := by
  unfold State.adopt
  rw [← hs.balanceIn, ← hs.balanceOut, hs.reference, ← hs.unsolved]
  rfl

theorem opening {op : Opcode} {leg : Leg} {rate : UInt64} {recipient : Option Address}
    (h : Opening setup op leg rate recipient s s') (hs : Charging setup c s) :
    Charging setup c s' := by
  have hrestores := hs.restores.opening h
  cases h <;>
    exact ⟨hs.reference, hs.unsolved, hs.balanceIn, hs.balanceOut, hs.rates,
      List.forall_mem_cons.mpr ⟨rfl, hs.fees⟩, hrestores⟩

theorem relabel {waiting : List PendingFee} {next steps : Nat}
    (hrates : ∀ fee ∈ waiting, fee.rate.toNat < bps) (hs : Charging setup c s) :
    Charging setup c { s with pending := waiting, next := next, steps := steps } :=
  ⟨hs.reference, hs.unsolved, hs.balanceIn, hs.balanceOut, hrates, hs.fees, hs.restores⟩

/-- An instruction that sets the balances of `c` sets the same ones here. -/
theorem reprice {query : Query} {external : ExternalLogic} {offset : Nat} {i : Instruction}
    {c' : State} (hi : i.setsBalances = true) (hc : execute setup offset i c = .ok c')
    (hs : Charging (setup.reasked query external) c s) :
    execute (setup.reasked query external) offset i s = .ok (s.adopt c') ∧
      Charging (setup.reasked query external) c' (s.adopt c') := by
  constructor
  · have hsame : execute (setup.reasked query external) offset i (s.adopt c) =
        (execute setup offset i c).map s.adopt := (keepsBalances_adopt s).execute hi
    rw [hs.adopt_eq, hc] at hsame
    exact hsame
  · rcases setsBalances_eq_ok hi hc with ⟨hunsolved, balanceIn, balanceOut, rfl⟩
    refine ⟨hunsolved, hunsolved, rfl, rfl, hs.rates, hs.fees, ?_⟩
    exact hs.restores.of_amount_eq (Registers.amount_setBalances _ _ _ _)

end Charging

/-!
# Both quotes between records
-/

/-- States whose waiting and opened fees have the same rates. -/
structure SameFees (a t : State) : Prop where
  pending : t.pending = a.pending
  rates : ∀ leg, feeRates leg t.settlements = feeRates leg a.settlements

section Opening

variable {setup : Setup} {op : Opcode} {leg : Leg} {rate : UInt64} {recipient : Option Address}
  {s s' : State}

theorem pending_opening (h : Opening setup op leg rate recipient s s') :
    s'.pending = s.pending := by
  cases h <;> rfl

theorem feeRates_opening (h : Opening setup op leg rate recipient s s') (on : Leg) :
    feeRates on s'.settlements =
      feeRates on (.fee op leg rate none recipient :: s.settlements) := by
  cases h with
  | charged hleg hfixed hnet hfee =>
      subst hleg
      rfl
  | raised hleg hfixed hgross =>
      subst hleg
      rfl
  | postponed hleg => rfl

theorem SameFees.opening {setup' : Setup} {t t' : State}
    (hs : Opening setup op leg rate recipient s s') (ht : Opening setup' op leg rate recipient t t')
    (h : SameFees s t) : SameFees s' t' := by
  constructor
  · rw [pending_opening hs, pending_opening ht, h.pending]
  · intro on
    rw [feeRates_opening hs, feeRates_opening ht]
    by_cases hon : leg = on
    · rw [hon, feeRates_cons_self, feeRates_cons_self, h.rates]
    · rw [feeRates_cons_of_ne hon, feeRates_cons_of_ne hon, h.rates]

end Opening

/-- The state `a` of a quote that offers `x`, and the run `b` so far of a quote
that wants `w`, where the balances alone have led to `c`. -/
structure Matched (setup : Setup) (x w : UInt64) (c a : State) (b : Run State) : Prop where
  input : Charging (setup.asking .input x) c a
  paid : MostOf (feeRates .input a.settlements) x a.registers.amountIn
  received : LeavesFor (feeRates .output a.settlements) w (AsksAtMost b)
  output : ∀ t, b = .ok t → Charging (setup.asking .output w) c t
  same : ∀ t, b = .ok t → SameFees a t
  raised : ∀ t, b = .ok t → w ≤ t.registers.amountOut

namespace Matched

variable {setup : Setup} {x w : UInt64} {c a : State} {b : Run State}

theorem initial (store : Order.Store) :
    Matched setup x w (State.initial setup.query store)
      (State.initial (setup.asking .input x).query store)
      (.ok (State.initial (setup.asking .output w).query store)) := by
  constructor
  · exact .initial .input x store
  · intro target
    show target ≤ x ↔ ∃ gross, Except.ok target = Except.ok gross ∧ gross ≤ x
    simp only [Except.ok.injEq, exists_eq_left']
  · intro amount
    refine ⟨amount, rfl, ?_⟩
    constructor
    · intro hle
      exact ⟨_, rfl, hle⟩
    · rintro ⟨t, ht, hle⟩
      cases ht
      exact hle
  · intro t ht
    cases ht
    exact .initial .output w store
  · intro t ht
    cases ht
    exact ⟨rfl, fun _ => rfl⟩
  · intro t ht
    cases ht
    exact UInt64.le_refl w

/-- What keeps the amounts and the opened fees of both quotes keeps them matched. -/
theorem mapped {c' a' : State} {k : State → State} (h : Matched setup x w c a b)
    (hinput : Charging (setup.asking .input x) c' a') (hfees : a'.settlements = a.settlements)
    (hamount : a'.registers.amountIn = a.registers.amountIn)
    (hkept : ∀ t, b = .ok t → Charging (setup.asking .output w) c' (k t) ∧
      (k t).pending = a'.pending ∧ (k t).settlements = t.settlements ∧
      (k t).registers.amountOut = t.registers.amountOut) :
    Matched setup x w c' a' (b.map k) := by
  constructor
  · exact hinput
  · rw [hfees, hamount]
    exact h.paid
  · rw [hfees]
    apply h.received.congr
    intro amount
    constructor
    · rintro ⟨t', ht', hle⟩
      rcases map_eq_ok_iff.mp ht' with ⟨t, ht, rfl⟩
      rw [(hkept t ht).2.2.2] at hle
      exact ⟨t, ht, hle⟩
    · rintro ⟨t, ht, hle⟩
      rw [← (hkept t ht).2.2.2] at hle
      exact ⟨k t, map_eq_ok_iff.mpr ⟨t, ht, rfl⟩, hle⟩
  · intro t' ht'
    rcases map_eq_ok_iff.mp ht' with ⟨t, ht, rfl⟩
    exact (hkept t ht).1
  · intro t' ht'
    rcases map_eq_ok_iff.mp ht' with ⟨t, ht, rfl⟩
    refine ⟨(hkept t ht).2.1, ?_⟩
    intro leg
    rw [(hkept t ht).2.2.1, hfees]
    exact (h.same t ht).rates leg
  · intro t' ht'
    rcases map_eq_ok_iff.mp ht' with ⟨t, ht, rfl⟩
    rw [(hkept t ht).2.2.2]
    exact h.raised t ht

/-!
# Opening a fee in both quotes
-/

variable {op : Opcode} {leg : Leg} {rate : UInt64} {recipient : Option Address}

theorem exists_opening {t' : State}
    (ht : (b >>= openFee (setup.asking .output w) op leg rate recipient) = .ok t') :
    ∃ t, b = .ok t ∧ Opening (setup.asking .output w) op leg rate recipient t t' := by
  rw [bind_eq_ok_iff] at ht
  rcases ht with ⟨t, hb, hopen⟩
  exact ⟨t, hb, (openFee_eq_ok hopen).2⟩

theorem opening {a' : State} (h : Matched setup x w c a b)
    (ha : Opening (setup.asking .input x) op leg rate recipient a a')
    (hpaid : MostOf (feeRates .input a'.settlements) x a'.registers.amountIn)
    (hreceived : LeavesFor (feeRates .output a'.settlements) w
      (AsksAtMost (b >>= openFee (setup.asking .output w) op leg rate recipient))) :
    Matched setup x w c a' (b >>= openFee (setup.asking .output w) op leg rate recipient) where
  input := h.input.opening ha
  paid := hpaid
  received := hreceived
  output := by
    intro t' ht'
    rcases exists_opening ht' with ⟨t, ht, hopening⟩
    exact (h.output t ht).opening hopening
  same := by
    intro t' ht'
    rcases exists_opening ht' with ⟨t, ht, hopening⟩
    exact (h.same t ht).opening ha hopening
  raised := by
    intro t' ht'
    rcases exists_opening ht' with ⟨t, ht, hopening⟩
    have hle := h.raised t ht
    cases hopening with
    | charged hleg hfixed hnet hfee => cases hfixed
    | raised hleg hfixed hgross => exact UInt64.le_trans hle (Arithmetic.le_grossUp hgross)
    | postponed hleg => exact hle

/-- A fee on the input asks for no other output. -/
theorem asksAtMost_input (h : Matched setup x w c a b) (amount : UInt64) :
    AsksAtMost (b >>= openFee (setup.asking .output w) op .input rate recipient) amount ↔
      AsksAtMost b amount := by
  constructor
  · rintro ⟨t', ht', hle⟩
    rcases exists_opening ht' with ⟨t, ht, hopening⟩
    refine ⟨t, ht, ?_⟩
    cases hopening with
    | charged hleg hfixed hnet hfee => cases hfixed
    | raised hleg hfixed hgross => cases hleg
    | postponed hleg => exact hle
  · rintro ⟨t, ht, hle⟩
    have hopening : Opening (setup.asking .output w) op .input rate recipient t _ :=
      .postponed Leg.noConfusion
    have hopen := openFee_of_opening (h.output t ht).unsolved hopening
    exact ⟨_, bind_eq_ok_iff.mpr ⟨t, ht, hopen⟩, hle⟩

/-- A fee on the output asks for what it grosses up to. -/
theorem asksAtMost_output (hrate : rate.toNat < bps) (h : Matched setup x w c a b)
    {amount net : UInt64} (hnet : deductRate amount rate = .ok net) :
    AsksAtMost (b >>= openFee (setup.asking .output w) op .output rate recipient) amount ↔
      AsksAtMost b net := by
  constructor
  · rintro ⟨t', ht', hle⟩
    rcases exists_opening ht' with ⟨t, ht, hopening⟩
    refine ⟨t, ht, ?_⟩
    cases hopening with
    | charged hleg hfixed hnet hfee => cases hleg
    | raised hleg hfixed hgross =>
        exact (Arithmetic.le_deductRate_iff hrate hnet).mpr ⟨_, hgross, hle⟩
    | postponed hleg => exact absurd rfl hleg
  · rintro ⟨t, ht, hle⟩
    rcases (Arithmetic.le_deductRate_iff hrate hnet).mp hle with ⟨gross, hgross, hamount⟩
    have hopening : Opening (setup.asking .output w) op .output rate recipient t _ :=
      .raised rfl rfl hgross
    have hopen := openFee_of_opening (h.output t ht).unsolved hopening
    exact ⟨_, bind_eq_ok_iff.mpr ⟨t, ht, hopen⟩, hamount⟩

theorem openFee (hrate : rate.toNat < bps) (h : Matched setup x w c a b) :
    ∃ a', Machine.openFee (setup.asking .input x) op leg rate recipient a = .ok a' ∧
      Matched setup x w c a'
        (b >>= Machine.openFee (setup.asking .output w) op leg rate recipient) := by
  cases leg with
  | input =>
      rcases Arithmetic.exists_deductRate a.registers.amountIn (Nat.le_of_lt hrate) with
        ⟨net, hnet⟩
      have hsum : net.toNat + (a.registers.amountIn - net).toNat = a.registers.amountIn.toNat := by
        rw [Nat.add_comm]
        exact Arithmetic.toNat_sub_add (Arithmetic.deductRate_le hnet)
      have hopening : Opening (setup.asking .input x) op .input rate recipient a _ :=
        .charged rfl rfl hnet hsum
      refine ⟨_, openFee_of_opening h.input.unsolved hopening, h.opening hopening ?_ ?_⟩
      · rw [feeRates_opening hopening, feeRates_cons_self]
        exact h.paid.charge hrate hnet
      · rw [feeRates_opening hopening, feeRates_cons_of_ne (by decide)]
        exact h.received.congr h.asksAtMost_input
  | output =>
      have hopening : Opening (setup.asking .input x) op .output rate recipient a _ :=
        .postponed Leg.noConfusion
      refine ⟨_, openFee_of_opening h.input.unsolved hopening, h.opening hopening ?_ ?_⟩
      · rw [feeRates_opening hopening, feeRates_cons_of_ne (by decide)]
        exact h.paid
      · rw [feeRates_opening hopening, feeRates_cons_self]
        exact h.received.charge hrate fun amount net hnet => h.asksAtMost_output hrate hnet

/-!
# Waiting fees in both quotes
-/

/-- Which fees wait, and where both quotes stand, is no part of the balances and
amounts. -/
theorem relabel {waiting : List PendingFee} {next steps : Nat} {waiting' : State → List PendingFee}
    {next' steps' : State → Nat} (hrates : ∀ fee ∈ waiting, fee.rate.toNat < bps)
    (hwaiting : ∀ t, b = .ok t → waiting' t = waiting) (h : Matched setup x w c a b) :
    Matched setup x w c { a with pending := waiting, next := next, steps := steps }
      (b.map fun t =>
        { t with pending := waiting' t, next := next' t, steps := steps' t }) := by
  refine h.mapped (h.input.relabel hrates) rfl rfl ?_
  intro t ht
  rw [hwaiting t ht]
  exact ⟨(h.output t ht).relabel hrates, rfl, rfl, rfl⟩

theorem openAll {fees : List PendingFee} (hrates : ∀ fee ∈ fees, fee.rate.toNat < bps)
    (h : Matched setup x w c a b) :
    ∃ a', fees.foldlM (fun s fee => Machine.openFee (setup.asking .input x) (.protocolFee .input)
        .input fee.rate.toUInt64 (some fee.recipient) s) a = .ok a' ∧
      Matched setup x w c a' (b >>= fun t => fees.foldlM (fun s fee =>
        Machine.openFee (setup.asking .output w) (.protocolFee .input) .input fee.rate.toUInt64
          (some fee.recipient) s) t) := by
  induction fees generalizing a b with
  | nil =>
      refine ⟨a, rfl, ?_⟩
      simp only [List.foldlM_nil, bind_pure]
      exact h
  | cons fee rest ih =>
      have hrate : fee.rate.toUInt64.toNat < bps := hrates fee List.mem_cons_self
      rcases h.openFee hrate with ⟨opened, hopen, hmatched⟩
      rcases ih (fun later hmem => hrates later (List.mem_cons_of_mem fee hmem)) hmatched with
        ⟨a', hrest, hresult⟩
      refine ⟨a', ?_, ?_⟩
      · rw [List.foldlM_cons, hopen]
        exact hrest
      · simp only [List.foldlM_cons]
        rw [bind_assoc] at hresult
        exact hresult

theorem release (h : Matched setup x w c a b) :
    ∃ a', Machine.release (setup.asking .input x) a = .ok a' ∧
      Matched setup x w c a' (b >>= Machine.release (setup.asking .output w)) := by
  have hcleared : Matched setup x w c { a with pending := [] }
      (b.map fun t => { t with pending := [] }) :=
    h.relabel (List.forall_mem_nil _) fun _ _ => rfl
  rcases hcleared.openAll h.input.rates with ⟨a', hopen, hmatched⟩
  refine ⟨a', hopen, ?_⟩
  have hsame : (b >>= Machine.release (setup.asking .output w)) =
      (b.map fun t => { t with pending := [] }) >>= fun t => a.pending.foldlM (fun s fee =>
        Machine.openFee (setup.asking .output w) (.protocolFee .input) .input fee.rate.toUInt64
          (some fee.recipient) s) t := by
    cases hb : b with
    | error e => rfl
    | ok t =>
        show Machine.release (setup.asking .output w) t = _
        unfold Machine.release
        rw [(h.same t hb).pending]
        rfl
  rw [hsame]
  exact hmatched

theorem enter (r : Record) (h : Matched setup x w c a b) :
    ∃ a', Machine.enter (setup.asking .input x) r a = .ok a' ∧
      Matched setup x w c a' (b >>= Machine.enter (setup.asking .output w) r) := by
  have hnext : Matched setup x w c { a with next := a.next + 1, steps := a.steps + 1 }
      (b.map fun t => { t with next := t.next + 1, steps := t.steps + 1 }) :=
    h.relabel h.input.rates fun t ht => (h.same t ht).pending
  have hsame (f : State → Run State) :
      (b.map fun t => { t with next := t.next + 1, steps := t.steps + 1 }) >>= f =
        b >>= fun t => f { t with next := t.next + 1, steps := t.steps + 1 } := by
    cases b <;> rfl
  unfold Machine.enter releaseBefore
  cases keepsWaiting r.opcode with
  | true =>
      refine ⟨_, rfl, ?_⟩
      have hmatched := hnext
      rw [← bind_pure (Except.map _ b), hsame] at hmatched
      exact hmatched
  | false =>
      rcases hnext.release with ⟨a', hrelease, hmatched⟩
      refine ⟨a', hrelease, ?_⟩
      rw [hsame] at hmatched
      exact hmatched

theorem pending_enter {r : Record} {s s' : State} (hr : keepsWaiting r.opcode = false)
    (h : Machine.enter setup r s = .ok s') : s'.pending = [] := by
  unfold Machine.enter releaseBefore at h
  rw [hr] at h
  have hreleasing : Releasing setup fun t => t.pending = [] := by
    constructor
    · intro t _
      rfl
    · intro op leg rate recipient t t' _ hopening ht
      rw [pending_opening hopening, ht]
  exact hreleasing.openAll h rfl

/-!
# Records in both quotes
-/

theorem hold {rate : UInt16} {recipient : Address} (hrate : rate.toNat < bps)
    (h : Matched setup x w c a b) :
    ∃ a', protocolFee (setup.asking .input x) .input rate recipient a = .ok a' ∧
      Matched setup x w c a'
        (b >>= protocolFee (setup.asking .output w) .input rate recipient) := by
  refine ⟨_, protocolFee_of_unsolved _ rate recipient h.input.unsolved, ?_⟩
  have hrates : ∀ fee ∈ a.pending ++ [⟨rate, recipient⟩], fee.rate.toNat < bps := by
    intro fee hmem
    rcases List.mem_append.mp hmem with hmem | hmem
    · exact h.input.rates fee hmem
    · rw [List.mem_singleton.mp hmem]
      exact hrate
  have hmatched : Matched setup x w c { a with pending := a.pending ++ [⟨rate, recipient⟩] }
      (b.map fun t => { t with pending := t.pending ++ [⟨rate, recipient⟩] }) :=
    h.relabel hrates fun t ht => by rw [(h.same t ht).pending]
  have hsame : (b >>= protocolFee (setup.asking .output w) .input rate recipient) =
      b.map fun t => { t with pending := t.pending ++ [⟨rate, recipient⟩] } := by
    cases hb : b with
    | error e => rfl
    | ok t =>
        exact protocolFee_of_unsolved (setup.asking .output w) rate recipient
          (h.output t hb).unsolved
  rw [hsame]
  exact hmatched

theorem charge {offset : Nat} {i : Instruction} (hi : i.chargesRate = true) (hrange : i.InRange)
    (h : Matched setup x w c a b) :
    ∃ a', execute (setup.asking .input x) offset i a = .ok a' ∧
      Matched setup x w c a' (b >>= execute (setup.asking .output w) offset i) := by
  cases i with
  | flatFee leg rate =>
      have hrate : rate.toUInt64.toNat < bps := hrange
      exact h.openFee hrate
  | protocolFee leg rate recipient =>
      cases leg with
      | input => exact h.hold hrange
      | output =>
          have hrate : rate.toUInt64.toNat < bps := hrange
          show ∃ a', Machine.openFee (setup.asking .input x) (.protocolFee .output) .output
              rate.toUInt64 (some recipient) a = .ok a' ∧
            Matched setup x w c a' (b >>= Machine.openFee (setup.asking .output w)
              (.protocolFee .output) .output rate.toUInt64 (some recipient))
          exact h.openFee hrate
  | _ => cases hi

theorem reprice {offset : Nat} {i : Instruction} {c' : State} (hi : i.setsBalances = true)
    (hc : execute setup offset i c = .ok c') (h : Matched setup x w c a b) :
    ∃ a', execute (setup.asking .input x) offset i a = .ok a' ∧
      Matched setup x w c' a' (b >>= execute (setup.asking .output w) offset i) := by
  rcases h.input.reprice hi hc with ⟨hinput, hcharging⟩
  have hsame : (b >>= execute (setup.asking .output w) offset i) =
      b.map fun t => t.adopt c' := by
    cases hb : b with
    | error e => rfl
    | ok t => exact ((h.output t hb).reprice hi hc).1
  refine ⟨a.adopt c', hinput, ?_⟩
  rw [hsame]
  refine h.mapped hcharging rfl rfl ?_
  intro t ht
  exact ⟨((h.output t ht).reprice hi hc).2, (h.same t ht).pending, rfl, rfl⟩

end Matched

/-- The balances that the records of a program lead to, its fees left out. -/
def priced (setup : Setup) (records : List Record) (s : State) : Run State :=
  (records.filter fun r => r.instruction.setsBalances).foldlM
    (fun s r => execute setup r.offset r.instruction s) s

namespace Matched

variable {setup : Setup} {x w : UInt64} {c a : State} {b : Run State}

/-- If the balances can be priced, then no record fails at a fixed input, and at
a fixed output none fails but for the amount it asks for. -/
theorem steps {records : List Record} {c' : State}
    (hrecords : ∀ r ∈ records,
      r.instruction.setsBalances = true ∨ r.instruction.chargesRate = true)
    (hrange : ∀ r ∈ records, r.instruction.InRange) (hc : priced setup records c = .ok c')
    (h : Matched setup x w c a b) :
    ∃ a', records.foldlM (fun s r => step (setup.asking .input x) r s) a = .ok a' ∧
      Matched setup x w c' a'
        (b >>= fun t => records.foldlM (fun s r => step (setup.asking .output w) r s) t) := by
  induction records generalizing c a b with
  | nil =>
      cases hc
      refine ⟨a, rfl, ?_⟩
      simp only [List.foldlM_nil, bind_pure]
      exact h
  | cons r rest ih =>
      have hstep : ∃ middle c₁, priced setup rest c₁ = .ok c' ∧
          step (setup.asking .input x) r a = .ok middle ∧
          Matched setup x w c₁ middle (b >>= step (setup.asking .output w) r) := by
        rcases h.enter r with ⟨entered, henter, hentered⟩
        unfold step
        simp only [← bind_assoc, henter, ok_bind]
        rw [priced, List.filter_cons] at hc
        -- Only a record that sets balances moves the run of the balances alone.
        cases hsets : r.instruction.setsBalances with
        | true =>
            rw [hsets, if_pos rfl, List.foldlM_cons, bind_eq_ok_iff] at hc
            rcases hc with ⟨c₁, hexecute, hrest⟩
            rcases hentered.reprice hsets hexecute with ⟨middle, hmiddle, hmatched⟩
            exact ⟨middle, c₁, hrest, hmiddle, hmatched⟩
        | false =>
            rw [hsets, if_neg Bool.false_ne_true] at hc
            have hfee : r.instruction.chargesRate = true := by
              rcases hrecords r List.mem_cons_self with hsets' | hfee
              · rw [hsets] at hsets'
                cases hsets'
              · exact hfee
            rcases hentered.charge hfee (hrange r List.mem_cons_self) with
              ⟨middle, hmiddle, hmatched⟩
            exact ⟨middle, c, hc, hmiddle, hmatched⟩
      rcases hstep with ⟨middle, c₁, hpriced, hmiddle, hmatched⟩
      rcases ih (fun later hmem => hrecords later (List.mem_cons_of_mem r hmem))
        (fun later hmem => hrange later (List.mem_cons_of_mem r hmem)) hpriced hmatched with
        ⟨a', hrest, hresult⟩
      refine ⟨a', ?_, ?_⟩
      · rw [List.foldlM_cons, hmiddle]
        exact hrest
      · simp only [List.foldlM_cons]
        rw [bind_assoc] at hresult
        exact hresult

end Matched

end Machine
end SwapPricing
