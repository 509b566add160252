import SwapPricing.Proofs.ConstantProduct
import SwapPricing.Proofs.Executed

/-!
# Reported fees

The taker fixes one amount and gets exactly that, whatever fees are taken on the
way.  A protocol fee is reported when it is settled, and settlements come in the
reverse order of the records.  A fee that waits is opened before any record that
could overtake it, so every executed protocol fee is reported once at most, and
the reports stand in the reverse order of the records as well.
-/

namespace SwapPricing
namespace Machine

/-!
# Fees still to be reported
-/

def PendingFee.levy (fee : PendingFee) : Leg × Address :=
  (.input, fee.recipient)

def Settlement.levy? : Settlement → Option (Leg × Address)
  | .fee _ leg _ _ recipient => recipient.map (leg, ·)
  | _ => none

/-- The protocol fees that a state has left to report, the newest first.  Those
that wait are newer than those whose settlement has been deferred. -/
def levies (s : State) : List (Leg × Address) :=
  (s.pending.map PendingFee.levy).reverse ++ s.settlements.filterMap Settlement.levy?

section Levies

variable {setup : Setup} {s s' : State}

theorem levies_opening {op : Opcode} {leg : Leg} {rate : UInt64} {recipient : Option Address}
    (h : Opening setup op leg rate recipient s s') :
    s'.pending = s.pending ∧
      s'.settlements.filterMap Settlement.levy? =
        (recipient.map (leg, ·)).toList ++ s.settlements.filterMap Settlement.levy? := by
  cases h with
  | charged hleg =>
      subst hleg
      cases recipient <;> exact ⟨rfl, rfl⟩
  | raised hleg =>
      subst hleg
      cases recipient <;> exact ⟨rfl, rfl⟩
  | postponed hleg => cases recipient <;> exact ⟨rfl, rfl⟩

theorem levies_openAll {fees : List PendingFee}
    (h : fees.foldlM (fun s fee =>
      openFee setup (.protocolFee .input) .input fee.rate.toUInt64 (some fee.recipient) s) s =
        .ok s') :
    s'.pending = s.pending ∧
      s'.settlements.filterMap Settlement.levy? =
        (fees.map PendingFee.levy).reverse ++ s.settlements.filterMap Settlement.levy? := by
  induction fees generalizing s with
  | nil =>
      rw [List.foldlM_nil, pure_eq_ok_iff] at h
      exact h ▸ ⟨rfl, rfl⟩
  | cons fee rest ih =>
      rw [List.foldlM_cons, bind_eq_ok_iff] at h
      rcases h with ⟨t, hopen, hrest⟩
      rcases levies_opening (openFee_eq_ok hopen).2 with ⟨hpending, hfirst⟩
      rcases ih hrest with ⟨hstill, hlevies⟩
      refine ⟨hstill.trans hpending, ?_⟩
      rw [hlevies, hfirst, List.map_cons, List.reverse_cons, List.append_assoc]
      rfl

theorem levies_release (h : release setup s = .ok s') : s'.pending = [] ∧ levies s' = levies s := by
  rcases levies_openAll h with ⟨hpending, hlevies⟩
  have hnone : s'.pending = [] := hpending
  refine ⟨hnone, ?_⟩
  unfold levies
  rw [hnone, hlevies]
  rfl

theorem levies_enter {r : Record} (h : enter setup r s = .ok s') :
    levies s' = levies s ∧ (keepsWaiting r.opcode = false → s'.pending = []) := by
  unfold enter releaseBefore at h
  split at h
  · rename_i hwaits
    injection h with h
    exact h ▸ ⟨rfl, fun hnot => absurd hwaits (by rw [hnot]; decide)⟩
  · rcases levies_release h with ⟨hpending, hlevies⟩
    exact ⟨hlevies, fun _ => hpending⟩

/-- A protocol fee is the newest one to report, since none waits where one on the
output is opened. -/
theorem levies_execute {offset : Nat} {i : Instruction}
    (hwaiting : keepsWaiting i.opcode = false → s.pending = [])
    (h : execute setup offset i s = .ok s') : levies s' = i.levy?.toList ++ levies s := by
  have hchange := execute_eq_ok h
  cases hlevy : i.levy? with
  | none =>
      cases hchange with
      | opened hfee hsolved hopening hsame =>
          rcases levies_opening hopening with ⟨hpending, hlevies⟩
          unfold levies
          rw [hpending, hlevies, hsame, hlevy]
          rfl
      | held => cases hlevy
      | marked hclear => cases hmode : setup.query.mode <;> rfl
      | _ => rfl
  | some levy =>
      cases i with
      | protocolFee leg rate recipient =>
          cases hlevy
          cases hchange with
          | idle hi => cases hi
          | moved hi => cases hi
          | repriced hi => cases hi
          | held hsolved =>
              unfold levies
              rw [List.map_append, List.reverse_append, List.append_assoc]
              rfl
          | opened hfee hsolved hopening hsame =>
              rcases levies_opening hopening with ⟨hpending, hlevies⟩
              have hleg : leg = .output := of_decide_eq_true hfee
              have hnone : s.pending = [] := hwaiting (by rw [hleg]; rfl)
              unfold levies
              rw [hpending, hlevies, hsame, hnone]
              rfl
      | _ => cases hlevy

theorem levies_step {r : Record} (h : step setup r s = .ok s') :
    levies s' = r.instruction.levy?.toList ++ levies s := by
  rcases step_eq_ok h with ⟨t, henter, hexecute⟩
  rcases levies_enter henter with ⟨hlevies, hwaiting⟩
  rw [levies_execute hwaiting hexecute, hlevies]

theorem levies_ran {left : Nat} (h : Ran setup left s s') :
    levies s' = ((executedFrom setup left s).filterMap Operation.levy?).reverse ++ levies s := by
  induction h with
  | finished hend =>
      rw [executedFrom_none _ hend]
      rfl
  | stepped hr hstep hrest ih =>
      rename_i left r s t s'
      rw [ih, levies_step hstep, executedFrom_step hr hstep, ← List.append_assoc]
      congr 1
      cases hlevy : r.instruction.levy? with
      | none => simp [hlevy]
      | some levy => simp [hlevy]

/-- Where the records of a run are finished, the settlements report the executed
protocol fees, the last first. -/
theorem levies_of_finished {limit : UInt32} {store : Order.Store} {stepped : State}
    (hsteps : runSteps setup limit limit.toNat (State.initial setup.query store) = .ok stepped)
    (hfinish : finishSteps setup stepped = .ok s) :
    s.settlements.filterMap Settlement.levy? =
      ((executed setup limit store).filterMap Operation.levy?).reverse := by
  rcases levies_release (finishSteps_eq_ok hfinish).1 with ⟨hpending, hlevies⟩
  have hall : levies s = _ := hlevies.trans (levies_ran (ran_of_runSteps hsteps))
  unfold levies at hall
  rw [hpending] at hall
  rw [executed_eq]
  exact hall.trans (List.append_nil _)

end Levies

/-!
# Reports
-/

/-- The asset and the recipient of a reported fee. -/
def ProtocolFee.entry (fee : ProtocolFee) : AssetId × Address :=
  (fee.asset, fee.recipient)

/-- What a protocol fee is reported as, if it is: a fee in the asset of its leg. -/
def Setup.due (setup : Setup) (levy : Leg × Address) : AssetId × Address :=
  (setup.query.asset levy.1, levy.2)

theorem entries_owing (setup : Setup) (leg : Leg) (recipient : Option Address) (fee : UInt64) :
    ((owing setup leg recipient fee).map ProtocolFee.entry).Sublist
      ((recipient.map (leg, ·)).toList.map setup.due) := by
  cases recipient with
  | none => exact .refl _
  | some recipient =>
      simp only [owing]
      split
      · exact List.nil_sublist _
      · exact .refl _

/-- Between settlements: what is reported on the input is part of it, and what is
reported so far together with what is left to report is among `due`. -/
structure Reporting (setup : Setup) (due : List (AssetId × Address)) (works : List Settlement)
    (s : State) : Prop where
  restores : Restores setup works s
  covered : owed s.protocolFees setup.query.assetIn ≤ s.registers.amountIn.toNat
  entries : (s.protocolFees.map ProtocolFee.entry ++
    (works.filterMap Settlement.levy?).map setup.due).Sublist due

namespace Reporting

variable {setup : Setup} {due : List (AssetId × Address)} {s s' : State} {rest : List Settlement}

theorem write {work : Settlement} {mode : ExecutionMode} {change : Order.Journal → Order.Journal}
    (hlevy : work.levy? = none) (hrestores : Restores setup rest (s.write mode change))
    (hs : Reporting setup due (work :: rest) s) : Reporting setup due rest (s.write mode change) := by
  have hentries := hs.entries
  rw [List.filterMap_cons_none hlevy] at hentries
  constructor
  · exact hrestores
  · rw [State.protocolFees_write, State.registers_write]
    exact hs.covered
  · rw [State.protocolFees_write]
    exact hentries

theorem covered_fee {op : Opcode} {leg : Leg} {rate fee amount : UInt64} {carried : Option UInt64}
    {recipient : Option Address} (hdistinct : setup.query.assetIn ≠ setup.query.assetOut)
    (hfee : settledFee leg rate carried (s.registers.amount leg) = .ok (fee, amount))
    (hs : Reporting setup due (.fee op leg rate carried recipient :: rest) s) :
    owed (s.protocolFees ++ owing setup leg recipient fee) setup.query.assetIn ≤
      (s.setAmount leg amount).registers.amountIn.toNat := by
  have hsettled := Settling.fee_le (fun requested => hs.restores.requested_le) hfee
  have hcovered := hs.covered
  rw [owed_append]
  cases leg with
  | input =>
      have hraised : amount.toNat = s.registers.amountIn.toNat + fee.toNat := hsettled
      have howed := owed_owing_le setup .input recipient fee setup.query.assetIn
      show _ ≤ amount.toNat
      omega
  | output =>
      have hne : setup.query.asset .output ≠ setup.query.assetIn := hdistinct.symm
      have hother : owed (owing setup .output recipient fee) setup.query.assetIn = 0 :=
        owed_owing_of_ne hne recipient fee
      show _ ≤ s.registers.amountIn.toNat
      omega

theorem settle {work : Settlement} (hdistinct : setup.query.assetIn ≠ setup.query.assetOut)
    (h : Settled setup work s s') (hs : Reporting setup due (work :: rest) s) :
    Reporting setup due rest s' := by
  have hrestores := hs.restores.settle h
  cases h with
  | charged hfee =>
      rename_i op leg rate fee amount carried recipient
      refine ⟨hrestores, hs.covered_fee hdistinct hfee, ?_⟩
      have hsplit : (Settlement.fee op leg rate carried recipient :: rest).filterMap
          Settlement.levy? =
        (recipient.map (leg, ·)).toList ++ rest.filterMap Settlement.levy? := by
        cases recipient <;> rfl
      have hentries := hs.entries
      rw [hsplit, List.map_append] at hentries
      refine List.Sublist.trans ?_ hentries
      show (List.map _ (s.protocolFees ++ owing setup leg recipient fee) ++ _).Sublist _
      rw [List.map_append, List.append_assoc]
      exact (List.Sublist.refl _).append ((entries_owing setup leg recipient fee).append (.refl _))
  | _ => exact hs.write rfl hrestores

end Reporting

/-!
# What the taker fixed
-/

/-- Before anything is settled, the fixed amount is restored by the settlements,
and nothing has been reported. -/
theorem unreportedInvariant {setup : Setup}
    (hexternal : ∀ r ∈ setup.program.records, r.opcode ≠ .extruction) :
    Invariant setup (fun s => Restores setup s.settlements s ∧ s.protocolFees = [])
      fun _ _ => True where
  advance _ _ hs := hs
  release hs := hs
  opening _ h hs := by
    refine ⟨hs.1.opening h, ?_⟩
    cases h <;> exact hs.2
  change {r s s'} hr h hs := by
    refine ⟨hs.1.change (hexternal r hr) h, ?_⟩
    generalize r.instruction = i at h
    cases h with
    | opened _ _ hopening => cases hopening <;> exact hs.2
    | marked hclear => exact (State.protocolFees_write _ _ _).trans hs.2
    | _ => exact hs.2
  finish _ _ := trivial
  settle _ _ := trivial

theorem reporting_of_run {setup : Setup}
    (hexternal : ∀ r ∈ setup.program.records, r.opcode ≠ .extruction)
    (hdistinct : setup.query.assetIn ≠ setup.query.assetOut) {limit : UInt32}
    {store : Order.Store} {s' : State} (h : run setup limit store = .ok s') :
    Reporting setup (((executed setup limit store).filterMap Operation.levy?).reverse.map setup.due)
      [] s' := by
  rcases run_eq_ok h with ⟨stepped, s, hsteps, hfinish, hsettle⟩
  have hinv := unreportedInvariant hexternal
  rcases (hinv.finishSteps hfinish (hinv.runSteps hsteps ⟨Restores.initial store, rfl⟩)).2 with
    ⟨hrestores, hnone⟩
  refine settleAll_keeps (fun h hs => hs.settle hdistinct h) hsettle ⟨hrestores, ?_, ?_⟩
  · show owed s.protocolFees _ ≤ _
    rw [hnone]
    exact Nat.zero_le _
  · show (s.protocolFees.map _ ++ _).Sublist _
    rw [hnone, levies_of_finished hsteps hfinish]
    exact .refl _

/-- The trade has the amount that the taker fixed, and its protocol fees are those
of executed records: at most one for each, in the asset of its leg. -/
structure Honours (setup : Setup) (limit : UInt32) (store : Order.Store) (o : Outcome) : Prop where
  input : setup.query.fixed = .input → o.amountIn = setup.query.amount
  output : setup.query.fixed = .output → o.amountOut = setup.query.amount
  owed_le : owed o.protocolFees setup.query.assetIn ≤ o.amountIn.toNat
  entries : (o.protocolFees.map ProtocolFee.entry).Sublist
    (((executed setup limit store).filterMap Operation.levy?).reverse.map setup.due)

theorem honours_of_run {setup : Setup}
    (hexternal : ∀ r ∈ setup.program.records, r.opcode ≠ .extruction)
    (hdistinct : setup.query.assetIn ≠ setup.query.assetOut) {limit : UInt32}
    {store : Order.Store} {s : State} (h : run setup limit store = .ok s) :
    Honours setup limit store (.ofState s) := by
  have hreporting := reporting_of_run hexternal hdistinct h
  have hfixed := hreporting.restores.amount_eq
  constructor
  · intro hinput
    rw [hinput] at hfixed
    exact hfixed
  · intro houtput
    rw [houtput] at hfixed
    exact hfixed
  · exact hreporting.covered
  · have hentries := hreporting.entries
    rw [List.filterMap_nil, List.map_nil, List.append_nil] at hentries
    exact hentries

/-- Whatever a program does to the amounts on the way, a quote and a swap have the
amount that the taker fixed, and report each protocol fee once at most. -/
theorem fixed_amount_honoured {program : Program}
    (hexternal : ∀ r ∈ program.records, r.opcode ≠ .extruction) (query : Query)
    (environment : Environment) (external : ExternalLogic) (limit : UInt32) (store : Order.Store) :
    (∀ o, quote program query environment limit store = .ok o →
      Honours ⟨program, query, environment, environment.quoteExternal⟩ limit store o) ∧
    ∀ o, (swap program query environment external limit store).1 = .ok o →
      Honours ⟨program, query, environment, external⟩ limit store o := by
  constructor
  · intro o hquote
    rcases quote_eq_ok_iff.mp hquote with ⟨haccepted, s, hrun, rfl⟩
    exact honours_of_run hexternal haccepted.distinct hrun
  · intro o hswap
    rcases swap_eq_ok hswap with ⟨haccepted, s, hrun, rfl⟩
    exact honours_of_run hexternal haccepted.distinct hrun

/-- A trade for exactly 1000 of the output. -/
def taxedTrade : Setup where
  program := taxedPool
  query := .simulated .output (.single 65) (.single 66) 1000
  environment := (Observations.atTime 0).environment
  external := .absent

theorem fixed_amount_honoured_by_taxed_pool :
    quote taxedPool taxedTrade.query taxedTrade.environment 16 .empty =
      .ok ⟨⟨1000000, 2000000, 512, 1000⟩,
        [⟨.single 82, .single 66, 6⟩, ⟨.single 82, .single 65, 6⟩], 5⟩ ∧
    Honours taxedTrade 16 .empty ⟨⟨1000000, 2000000, 512, 1000⟩,
      [⟨.single 82, .single 66, 6⟩, ⟨.single 82, .single 65, 6⟩], 5⟩ := by
  have hquote : quote taxedPool taxedTrade.query taxedTrade.environment 16 .empty =
    .ok ⟨⟨1000000, 2000000, 512, 1000⟩,
      [⟨.single 82, .single 66, 6⟩, ⟨.single 82, .single 65, 6⟩], 5⟩ := rfl
  exact ⟨hquote, (fixed_amount_honoured (by decide) taxedTrade.query taxedTrade.environment .absent
    16 .empty).1 _ hquote⟩

end Machine
end SwapPricing
