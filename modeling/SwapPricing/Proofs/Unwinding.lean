import SwapPricing.Proofs.Runs

/-!
# The fixed side of a trade

The taker fixes one amount.  Fees on that leg change it before the trade is
solved, and their settlements, the last first, lead back to what was asked.  On
the way back a fixed input only grows and a fixed output only shrinks.
-/

namespace SwapPricing
namespace Machine

/-- Whether work is the settlement of a fee. -/
def Settlement.isFee : Settlement → Bool
  | .fee _ _ _ _ _ => true
  | _ => false

/-- `Unwinds fixed asked works amount` says that settling `works` leads the
amount of the leg `fixed` from `amount` back to `asked`. -/
inductive Unwinds (fixed : Leg) (asked : UInt64) : List Settlement → UInt64 → Prop where
  | done : Unwinds fixed asked [] asked
  | input {op : Opcode} {rate fee amount outer : UInt64} {recipient : Option Address}
      {rest : List Settlement} (hfixed : fixed = .input)
      (hsum : outer.toNat = amount.toNat + fee.toNat) (h : Unwinds fixed asked rest outer) :
      Unwinds fixed asked (.fee op .input rate (some fee) recipient :: rest) amount
  | output {op : Opcode} {rate requested amount : UInt64} {recipient : Option Address}
      {rest : List Settlement} (hfixed : fixed = .output) (hle : requested ≤ amount)
      (h : Unwinds fixed asked rest requested) :
      Unwinds fixed asked (.fee op .output rate (some requested) recipient :: rest) amount
  | other {op : Opcode} {leg : Leg} {rate amount : UInt64} {recipient : Option Address}
      {rest : List Settlement} (hleg : leg ≠ fixed) (h : Unwinds fixed asked rest amount) :
      Unwinds fixed asked (.fee op leg rate none recipient :: rest) amount
  | skip {work : Settlement} {amount : UInt64} {rest : List Settlement}
      (hwork : work.isFee = false) (h : Unwinds fixed asked rest amount) :
      Unwinds fixed asked (work :: rest) amount

theorem requested_le_of_unwinds {fixed : Leg} {asked amount requested rate : UInt64} {op : Opcode}
    {leg : Leg} {carried : Option UInt64} {recipient : Option Address} {rest : List Settlement}
    (h : Unwinds fixed asked (.fee op leg rate carried recipient :: rest) amount)
    (hleg : leg = .output) (hcarried : carried = some requested) :
    fixed = .output ∧ requested ≤ amount := by
  cases h with
  | input hfixed hsum hrest => cases hleg
  | output hfixed hle hrest =>
      cases hcarried
      exact ⟨hfixed, hle⟩
  | other hne hrest => cases hcarried
  | skip hwork hrest => cases hwork

/-- The fixed amount of `s` leads back to the amount of the query. -/
def Restores (setup : Setup) (works : List Settlement) (s : State) : Prop :=
  Unwinds setup.query.fixed setup.query.amount works (s.registers.amount setup.query.fixed)

namespace Restores

variable {setup : Setup} {s s' : State}

theorem initial (store : Order.Store) :
    Restores setup [] (State.initial setup.query store) := by
  have hseed : (Registers.seeded setup.query).amount setup.query.fixed = setup.query.amount :=
    Registers.amount_setAmount _ _ _
  unfold Restores State.initial
  rw [hseed]
  exact .done

/-- Once all is settled, the fixed amount is the amount of the query. -/
theorem amount_eq (hs : Restores setup [] s) :
    s.registers.amount setup.query.fixed = setup.query.amount := by
  unfold Restores at hs
  generalize s.registers.amount setup.query.fixed = amount at hs
  cases hs
  rfl

theorem of_amount_eq {works : List Settlement} (hs : Restores setup works s)
    (h : s'.registers.amount setup.query.fixed = s.registers.amount setup.query.fixed) :
    Restores setup works s' := by
  unfold Restores
  rw [h]
  exact hs

theorem setBalances {works : List Settlement} {balanceIn balanceOut : UInt64}
    (hs : Restores setup works s) : Restores setup works (s.setBalances balanceIn balanceOut) :=
  hs.of_amount_eq (Registers.amount_setBalances _ _ _ _)

theorem setAmount {works : List Settlement} {leg : Leg} {amount : UInt64}
    (hleg : leg ≠ setup.query.fixed) (hs : Restores setup works s) :
    Restores setup works (s.setAmount leg amount) :=
  hs.of_amount_eq (Registers.amount_setAmount_of_ne _ hleg.symm _)

theorem write {works : List Settlement} {mode : ExecutionMode}
    {change : Order.Journal → Order.Journal} (hs : Restores setup works s) :
    Restores setup works (s.write mode change) :=
  hs.of_amount_eq (by rw [State.registers_write])

theorem opening {op : Opcode} {leg : Leg} {rate : UInt64} {recipient : Option Address}
    (h : Opening setup op leg rate recipient s s') (hs : Restores setup s.settlements s) :
    Restores setup s'.settlements s' := by
  cases h with
  | charged hleg hfixed hnet hfee =>
      unfold Restores at hs ⊢
      rw [hfixed] at hs ⊢
      exact .input rfl hfee.symm hs
  | raised hleg hfixed hgross =>
      unfold Restores at hs ⊢
      rw [hfixed] at hs ⊢
      exact .output rfl (Arithmetic.le_grossUp hgross) hs
  | postponed hleg => exact .other hleg hs

theorem change {i : Instruction} (hi : i.opcode ≠ .extruction) (h : Change setup i s s')
    (hs : Restores setup s.settlements s) : Restores setup s'.settlements s' := by
  cases h with
  | idle hidle => exact hs
  | moved hjump next => exact hs
  | repriced hi hsolved => exact hs.setBalances
  | loaded hsolved hin hout => exact .skip rfl hs.setBalances
  | faded hsolved hin hout => exact .skip rfl hs.setBalances
  | offered hsolved => exact .skip rfl hs.setBalances
  | opened hi hsolved hopening => exact hs.opening hopening
  | held hsolved => exact hs
  | solvedOutput hsolved hfixed hquote => exact hs.setAmount (by simp [hfixed])
  | solvedInput hsolved hfixed hquote => exact hs.setAmount (by simp [hfixed])
  | lowered hsolved hfixed hle => exact hs.setAmount (by simp [hfixed])
  | lifted hsolved hfixed hle => exact hs.setAmount (by simp [hfixed])
  | compensated hsolved => exact hs.setAmount setup.query.unknown_ne_fixed
  | marked hclear =>
      rw [State.settlements_write]
      exact hs.write
  | capped => exact .skip rfl hs
  | answered => exact absurd rfl hi

/-- A fixed output is not below what a fee on it was asked to leave. -/
theorem requested_le {op : Opcode} {leg : Leg} {rate requested : UInt64}
    {carried : Option UInt64} {recipient : Option Address} {rest : List Settlement}
    (hs : Restores setup (.fee op leg rate carried recipient :: rest) s) (hleg : leg = .output)
    (hcarried : carried = some requested) : requested ≤ s.registers.amount leg := by
  rcases requested_le_of_unwinds hs hleg hcarried with ⟨hfixed, hle⟩
  rw [hleg, ← hfixed]
  exact hle

theorem settle {work : Settlement} {rest : List Settlement} (h : Settled setup work s s')
    (hs : Restores setup (work :: rest) s) : Restores setup rest s' := by
  cases hs with
  | input hfixed hsum hrest =>
      rename_i op rate fee outer recipient
      cases h with
      | charged hfee =>
          simp only [settledFee, bind_eq_ok_iff, Arithmetic.gain_eq_ok_iff, pure_eq_ok_iff,
            Prod.mk.injEq] at hfee
          rcases hfee with ⟨gross, hgross, rfl, rfl⟩
          rw [hfixed] at hsum
          have houter : gross = outer := UInt64.toNat_inj.mp (hgross.trans hsum.symm)
          unfold Restores
          rw [hfixed] at hrest ⊢
          rw [houter]
          exact hrest
  | output hfixed hle hrest =>
      cases h with
      | charged hfee =>
          simp only [settledFee, pure_eq_ok_iff, Prod.mk.injEq] at hfee
          rcases hfee with ⟨-, rfl⟩
          unfold Restores
          rw [hfixed] at hrest ⊢
          exact hrest
  | other hleg hrest =>
      cases h with
      | charged hfee =>
          have hs : Restores setup rest s := hrest
          exact hs.setAmount hleg
  | skip hwork hrest =>
      have hs : Restores setup rest s := hrest
      cases h with
      | stored hin hout => exact hs.write
      | shifted => exact hs.write
      | sold => exact hs.write
      | charged hfee => cases hwork
      | filled hcap => exact hs.write

/-- Without external logic, every run restores the amount that it was asked for. -/
theorem invariant (hexternal : ∀ r ∈ setup.program.records, r.opcode ≠ .extruction) :
    Invariant setup (fun s => Restores setup s.settlements s) (Restores setup) where
  advance _ _ hs := hs
  release hs := hs
  opening _ h hs := hs.opening h
  change hr h hs := hs.change (hexternal _ hr) h
  finish _ hs := hs
  settle h hs := hs.settle h

end Restores
end Machine
end SwapPricing
