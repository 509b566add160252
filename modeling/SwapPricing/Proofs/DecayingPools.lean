import Mathlib
import SwapPricing.Machine.Trace
import SwapPricing.Proofs.Charges
import SwapPricing.Proofs.Offsets

/-!
# Pools with decaying offsets

A pool takes its balances from a source that trades do not change, moves them by
what is left of the offsets of both sides, and trades behind fees.  When all else
is settled, the trade is added to the offsets of the opposite trade.
-/

namespace SwapPricing

/-- What is left of the offset of a side. -/
def Order.Store.offsetLeft (store : Order.Store) (program : ProgramId) (period : UInt32)
    (now : UInt64) (side : Side) : Nat :=
  remainingOf (store.offset? program side) now period

def Order.Store.HasNoOffsets (store : Order.Store) (program : ProgramId) : Prop :=
  ∀ side, store.offset? program side = none

theorem Order.Store.HasNoOffsets.offsetLeft_eq {store : Order.Store} {program : ProgramId}
    (h : store.HasNoOffsets program) (period : UInt32) (now : UInt64) (side : Side) :
    store.offsetLeft program period now side = 0 := by
  unfold offsetLeft
  rw [h side]
  rfl

/-- Whether an instruction takes the balances from where trades leave no trace. -/
def Operation.isSource : Instruction → Bool
  | staticBalances _ => true
  | externalBalances => true
  | _ => false

/-- The program takes balances from `source`, lets offsets decay over `period`,
charges fees and solves the trade. -/
structure Program.IsDecayingPool (program : Program) (source : Instruction) (period : UInt32)
    (fees : List Instruction) : Prop where
  isSource : source.isSource = true
  chargesRate : ∀ i ∈ fees, i.chargesRate = true
  instructions : program.records.toList.map Record.instruction =
    source :: .decay period :: (fees ++ [.solve])

/-- The records of a decaying pool, those of its fees and the last one apart. -/
structure Program.DecayingRecords (program : Program) (source : Instruction) (period : UInt32)
    (fees : List Record) (last : Record) : Prop where
  isSource : source.isSource = true
  chargesRate : ∀ r ∈ fees, r.instruction.chargesRate = true
  inRange : ∀ r ∈ fees, r.instruction.InRange
  period_ne_zero : period ≠ 0
  last_eq : last.instruction = .solve
  toList_records : ∃ first second, program.records.toList =
    [⟨first, source⟩, ⟨second, .decay period⟩] ++ (fees ++ [last])

theorem Program.IsDecayingPool.exists_records {program : Program} {source : Instruction}
    {period : UInt32} {fees : List Instruction} (h : program.IsDecayingPool source period fees)
    (hrange : ∀ r ∈ program.records, r.instruction.InRange) :
    ∃ charges last, program.DecayingRecords source period charges last := by
  rcases List.map_eq_cons_iff.mp h.instructions with ⟨⟨first, i⟩, rest, hrecords, hi, hrest⟩
  rcases List.map_eq_cons_iff.mp hrest with ⟨⟨second, j⟩, more, hmore, hj, htail⟩
  rcases List.map_eq_append_iff.mp htail with ⟨charges, ending, hsplit, hcharges, hending⟩
  rcases List.map_eq_singleton_iff.mp hending with ⟨last, rfl, hlast⟩
  cases hi
  cases hj
  rw [hmore, hsplit] at hrecords
  have hinRange : ∀ r ∈ program.records.toList, r.instruction.InRange :=
    fun r hr => hrange r (Array.mem_toList_iff.mp hr)
  rw [hrecords] at hinRange
  simp only [List.forall_mem_cons, List.forall_mem_append] at hinRange
  rcases hinRange with ⟨-, hperiod, hchargesRange, -⟩
  refine ⟨charges, last, h.isSource, ?_, hchargesRange, hperiod, hlast, first, second, hrecords⟩
  intro r hr
  apply h.chargesRate
  rw [← hcharges]
  exact List.mem_map_of_mem hr

theorem Program.DecayingRecords.isStraight {program : Program} {source : Instruction}
    {period : UInt32} {fees : List Record} {last : Record}
    (h : program.DecayingRecords source period fees last) :
    ∀ r ∈ program.records, r.instruction.isStraight = true := by
  rcases h.toList_records with ⟨first, second, hrecords⟩
  intro r hr
  rw [← Array.mem_toList_iff, hrecords] at hr
  simp only [List.mem_append, List.mem_cons, List.not_mem_nil, or_false] at hr
  rcases hr with (rfl | rfl) | hfee | rfl
  · have hsource := h.isSource
    cases source <;> first | rfl | cases hsource
  · rfl
  · exact Operation.isStraight_of_chargesRate (h.chargesRate r hfee)
  · rw [h.last_eq]
    rfl

namespace Machine

/-!
# Sources
-/

/-- The balance of an asset at a source. -/
def held (source : Instruction) (environment : Environment) (program : ProgramId)
    (asset : AssetId) : Option UInt64 :=
  match source with
  | .staticBalances balances => listed? balances asset
  | .externalBalances => environment.reserve? program asset
  | _ => none

theorem execute_source_iff {setup : Setup} {source : Instruction} (hsource : source.isSource = true)
    {offset : Nat} {s s' : State} (hs : s.solved = false) :
    execute setup offset source s = .ok s' ↔
      ∃ balanceIn balanceOut,
        held source setup.environment setup.program.id setup.query.assetIn = some balanceIn ∧
        held source setup.environment setup.program.id setup.query.assetOut = some balanceOut ∧
        s.setBalances balanceIn balanceOut = s' := by
  have hunsolved (op : Opcode) : s.requireUnsolved op = .ok () := requireUnsolved_eq_ok_iff.mpr hs
  cases source with
  | staticBalances balances =>
      simp only [execute, staticBalances, hunsolved, ok_bind, bind_eq_ok_iff, demand_eq_ok_iff,
        pure_eq_ok_iff]
      constructor
      · rintro ⟨balanceIn, hin, balanceOut, hout, hs'⟩
        exact ⟨balanceIn, balanceOut, hin, hout, hs'⟩
      · rintro ⟨balanceIn, balanceOut, hin, hout, hs'⟩
        exact ⟨balanceIn, hin, balanceOut, hout, hs'⟩
  | externalBalances =>
      simp only [execute, externalBalances, hunsolved, ok_bind, bind_eq_ok_iff, demand_eq_ok_iff,
        pure_eq_ok_iff]
      constructor
      · rintro ⟨balanceIn, hin, balanceOut, hout, hs'⟩
        exact ⟨balanceIn, balanceOut, hin, hout, hs'⟩
      · rintro ⟨balanceIn, balanceOut, hin, hout, hs'⟩
        exact ⟨balanceIn, hin, balanceOut, hout, hs'⟩
  | _ => cases hsource

/-!
# Decayed balances
-/

/-- The balances that a trade is made at: those of the source, moved by what is left of
the offsets of its sides. -/
structure Decayed (setup : Setup) (source : Instruction) (period : UInt32) (store : Order.Store)
    (balanceIn balanceOut : UInt64) : Prop where
  input : ∃ balance, held source setup.environment setup.program.id setup.query.assetIn =
      some balance ∧
    balanceIn.toNat = balance.toNat + store.offsetLeft setup.program.id period
      setup.environment.now ⟨setup.query.assetIn, .input⟩
  output : ∃ balance, held source setup.environment setup.program.id setup.query.assetOut =
      some balance ∧
    balanceOut.toNat + store.offsetLeft setup.program.id period setup.environment.now
      ⟨setup.query.assetOut, .output⟩ = balance.toNat

/-- The state in front of the fees, at the given balances. -/
def offered (query : Query) (balanceIn balanceOut : UInt64) : State :=
  { State.initial query .empty with
    registers := (Registers.seeded query).setBalances balanceIn balanceOut
    next := 2
    steps := 2 }

/-- Smaller offsets leave balances that are better for the taker. -/
theorem Decayed.le {setup setup' : Setup} {source : Instruction} {period : UInt32}
    {store store' : Order.Store} {balanceIn balanceOut betterIn betterOut : UInt64}
    (hprogram : setup'.program = setup.program) (hquery : setup'.query = setup.query)
    (hheld : ∀ asset, held source setup'.environment setup.program.id asset =
      held source setup.environment setup.program.id asset)
    (hleft : ∀ side, store'.offsetLeft setup.program.id period setup'.environment.now side ≤
      store.offsetLeft setup.program.id period setup.environment.now side)
    (h : Decayed setup source period store balanceIn balanceOut)
    (h' : Decayed setup' source period store' betterIn betterOut) :
    betterIn ≤ balanceIn ∧ balanceOut ≤ betterOut := by
  constructor
  · rcases h.input with ⟨loaded, hloaded, hbalance⟩
    rcases h'.input with ⟨loaded', hloaded', hbetter⟩
    rw [hprogram, hquery, hheld, hloaded] at hloaded'
    cases hloaded'
    rw [hprogram, hquery] at hbetter
    rw [UInt64.le_iff_toNat_le, hbalance, hbetter]
    exact Nat.add_le_add_left (hleft _) _
  · rcases h.output with ⟨loaded, hloaded, hbalance⟩
    rcases h'.output with ⟨loaded', hloaded', hbetter⟩
    rw [hprogram, hquery, hheld, hloaded] at hloaded'
    cases hloaded'
    rw [hprogram, hquery] at hbetter
    have hless := hleft ⟨setup.query.assetOut, .output⟩
    rw [UInt64.le_iff_toNat_le]
    omega

section Front

variable {setup : Setup} {source : Instruction} {period : UInt32} {store : Order.Store}
  {s s' : State}

theorem decay_iff (hs : s.solved = false) (hjournal : s.journal = .opened store) :
    decay setup period s = .ok s' ↔
      ∃ balanceIn balanceOut : UInt64,
        balanceIn.toNat = s.registers.balanceIn.toNat + store.offsetLeft setup.program.id period
          setup.environment.now ⟨setup.query.assetIn, .input⟩ ∧
        balanceOut.toNat + store.offsetLeft setup.program.id period setup.environment.now
          ⟨setup.query.assetOut, .output⟩ = s.registers.balanceOut.toNat ∧
        (s.setBalances balanceIn balanceOut).defer (.decay period) = s' := by
  rcases exists_offsetNow setup period ⟨setup.query.assetIn, .input⟩ s with
    ⟨restored, hrestored, hrestoredNat⟩
  rcases exists_offsetNow setup period ⟨setup.query.assetOut, .output⟩ s with
    ⟨locked, hlocked, hlockedNat⟩
  have hread (side : Side) : s.journal.offset? setup.program.id side =
      store.offset? setup.program.id side := by
    rw [hjournal]
    rfl
  rw [hread] at hrestoredNat hlockedNat
  have hunsolved : s.requireUnsolved .decay = .ok () := requireUnsolved_eq_ok_iff.mpr hs
  unfold decay Order.Store.offsetLeft
  rw [hunsolved, ok_bind, hrestored, ok_bind, hlocked, ok_bind, ← hrestoredNat, ← hlockedNat]
  simp only [bind_eq_ok_iff, calculate_eq_ok_iff, Arithmetic.gain_eq_ok_iff,
    Arithmetic.drain_eq_ok_iff, pure_eq_ok_iff]
  constructor
  · rintro ⟨balanceIn, hin, balanceOut, ⟨hle, rfl⟩, hs'⟩
    exact ⟨balanceIn, _, hin, Arithmetic.toNat_sub_add hle, hs'⟩
  · rintro ⟨balanceIn, balanceOut, hin, hout, hs'⟩
    have hle : locked ≤ s.registers.balanceOut := by
      rw [UInt64.le_iff_toNat_le, ← hout]
      exact Nat.le_add_left _ _
    refine ⟨balanceIn, hin, balanceOut, ⟨hle, ?_⟩, hs'⟩
    apply UInt64.toNat_inj.mp
    have hsum := Arithmetic.toNat_sub_add hle
    omega

/-- Source and decay lead to the fees, with the offsets to be settled below them. -/
theorem front_iff (hsource : source.isSource = true) {first second : Nat} :
    ([⟨first, source⟩, ⟨second, .decay period⟩] : List Record).foldlM
        (fun s r => step setup r s) (State.initial setup.query store) = .ok s' ↔
      ∃ balanceIn balanceOut, Decayed setup source period store balanceIn balanceOut ∧
        (offered setup.query balanceIn balanceOut).above (.opened store) [.decay period] = s' := by
  simp only [List.foldlM_cons, List.foldlM_nil, bind_pure, step, bind_eq_ok_iff]
  constructor
  · rintro ⟨sourced, ⟨entered, henter, hload⟩, entered', henter', hdecay⟩
    rw [enter_of_pending_nil rfl] at henter
    cases henter
    rcases (execute_source_iff hsource rfl).mp hload with ⟨loadedIn, loadedOut, hin, hout, rfl⟩
    rw [enter_of_pending_nil rfl] at henter'
    cases henter'
    rcases (decay_iff rfl rfl).mp hdecay with ⟨balanceIn, balanceOut, hdecayIn, hdecayOut, rfl⟩
    exact ⟨balanceIn, balanceOut, ⟨⟨loadedIn, hin, hdecayIn⟩, ⟨loadedOut, hout, hdecayOut⟩⟩, rfl⟩
  · rintro ⟨balanceIn, balanceOut, hdecayed, rfl⟩
    rcases hdecayed.input with ⟨loadedIn, hin, hdecayIn⟩
    rcases hdecayed.output with ⟨loadedOut, hout, hdecayOut⟩
    refine ⟨_, ⟨_, enter_of_pending_nil rfl, (execute_source_iff hsource rfl).mpr
      ⟨loadedIn, loadedOut, hin, hout, rfl⟩⟩, _, enter_of_pending_nil rfl, ?_⟩
    exact (decay_iff rfl rfl).mpr ⟨balanceIn, balanceOut, hdecayIn, hdecayOut, rfl⟩

theorem charging_offered (setup : Setup) (balanceIn balanceOut : UInt64) :
    Charging setup (offered setup.query balanceIn balanceOut)
      (offered setup.query balanceIn balanceOut) where
  reference := rfl
  unsolved := rfl
  balanceIn := rfl
  balanceOut := rfl
  rates := List.forall_mem_nil _
  fees := List.forall_mem_nil _
  restores := (Restores.initial .empty).of_amount_eq (Registers.amount_setBalances _ _ _ _)

end Front

/-!
# Traces of settlements
-/

section Traces

variable {setup : Setup} {s : State}

theorem settleEvents_append {works rest : List Settlement} {t : State}
    (h : settleAll setup works s = .ok t) :
    settleEvents setup (works ++ rest) s =
      settleEvents setup works s ++ settleEvents setup rest t := by
  induction works generalizing s with
  | nil =>
      cases h
      rfl
  | cons work more ih =>
      rcases bind_eq_ok_iff.mp h with ⟨u, hsettle, hmore⟩
      simp only [List.cons_append, settleEvents, hsettle, ih hmore]

theorem mem_of_settling_mem_settleEvents {work : Settlement} {r : Registers}
    {works : List Settlement} (h : Event.settling work r ∈ settleEvents setup works s) :
    work ∈ works := by
  induction works generalizing s with
  | nil => cases h
  | cons first rest ih =>
      unfold settleEvents at h
      rcases List.mem_cons.mp h with heq | hrest
      · cases heq
        exact List.mem_cons_self
      · cases hsettle : settle setup first s with
        | error e =>
            rw [hsettle] at hrest
            cases hrest
        | ok t =>
            rw [hsettle] at hrest
            exact List.mem_cons_of_mem _ (ih hrest)

theorem settling_not_mem_callEvents {work : Settlement} {r : Registers} {target : Address}
    {input : List UInt8} : Event.settling work r ∉ callEvents setup target input s := by
  unfold callEvents
  simp only
  split
  · simp
  · simp

theorem settling_not_mem_stepEvents {work : Settlement} {r : Registers} {record : Record} :
    Event.settling work r ∉ stepEvents setup record s := by
  unfold stepEvents
  intro h
  split at h
  · cases h
  · rcases List.mem_cons.mp h with heq | hcall
    · cases heq
    · split at hcall
      · exact settling_not_mem_callEvents hcall
      · cases hcall

/-- Nothing is settled while records run. -/
theorem settling_not_mem_runEvents {work : Settlement} {r : Registers} {left : Nat} :
    Event.settling work r ∉ runEvents setup left s := by
  induction left generalizing s with
  | zero =>
      unfold runEvents
      cases setup.program.records[s.next]? <;> exact List.not_mem_nil
  | succ left ih =>
      unfold runEvents
      cases setup.program.records[s.next]? with
      | none => exact List.not_mem_nil
      | some record =>
          intro h
          rcases List.mem_append.mp h with hstep | hrest
          · exact settling_not_mem_stepEvents hstep
          · cases hstep : step setup record s with
            | error e =>
                rw [hstep] at hrest
                cases hrest
            | ok t =>
                rw [hstep] at hrest
                exact ih hrest

/-- Recording a trade as offsets leaves its outcome as it is. -/
theorem ofState_settleDecay {period : UInt32} {s' : State}
    (h : settleDecay setup period s = .ok s') : Outcome.ofState s' = .ofState s := by
  rcases settleDecay_cases setup period s with ⟨locked, restored, -, -, hsettle⟩ | ⟨-, hsettle⟩
  · cases hsettle.symm.trans h
    cases setup.query.mode <;> rfl
  · cases hsettle.symm.trans h

end Traces

/-!
# Runs
-/

section Runs

variable {setup : Setup} {source : Instruction} {period : UInt32} {fees : List Record}
  {last : Record} {limit : UInt32} {store : Order.Store} {s : State}
  (hpool : setup.program.DecayingRecords source period fees last)

include hpool

/-- With enough steps, the records lead behind the trade. -/
theorem runSteps_decaying_iff (hlimit : setup.program.records.size ≤ limit.toNat) :
    runSteps setup limit limit.toNat (State.initial setup.query store) = .ok s ↔
      ∃ balanceIn balanceOut v, Decayed setup source period store balanceIn balanceOut ∧
        solvedTrade setup fees last (offered setup.query balanceIn balanceOut) = .ok v ∧
        v.above (.opened store) [.decay period] = s := by
  rcases hpool.toList_records with ⟨first, second, hrecords⟩
  have htail (t : State) : (fees ++ [last]).foldlM (fun s r => step setup r s) t =
      solvedTrade setup fees last t := by
    unfold solvedTrade
    rw [List.foldlM_append]
    simp only [List.foldlM_cons, List.foldlM_nil, bind_pure, step, hpool.last_eq, bind_assoc]
    rfl
  have hsteps : runSteps setup limit limit.toNat (State.initial setup.query store) =
      setup.program.records.toList.foldlM (fun s r => step setup r s)
        (State.initial setup.query store) :=
    runSteps_eq_foldlM rfl (fun r hr => hpool.isStraight r (Array.mem_toList_iff.mp hr)) hlimit
  rw [hsteps, hrecords, List.foldlM_append, bind_eq_ok_iff]
  simp only [htail, front_iff hpool.isSource]
  constructor
  · rintro ⟨_, ⟨balanceIn, balanceOut, hdecayed, rfl⟩, hsolved⟩
    rw [solvedTrade_above hpool.chargesRate] at hsolved
    rcases map_eq_ok_iff.mp hsolved with ⟨v, hv, rfl⟩
    exact ⟨balanceIn, balanceOut, v, hdecayed, hv, rfl⟩
  · rintro ⟨balanceIn, balanceOut, v, hdecayed, hv, rfl⟩
    refine ⟨_, ⟨balanceIn, balanceOut, hdecayed, rfl⟩, ?_⟩
    rw [solvedTrade_above hpool.chargesRate, hv]
    rfl

/-- A run moves the balances by what is left of the offsets, makes the trade behind
its fees, and in the end adds it to the offsets of the opposite trade. -/
theorem run_decaying_iff :
    run setup limit store = .ok s ↔
      setup.program.records.size ≤ limit.toNat ∧
        ∃ balanceIn balanceOut t, Decayed setup source period store balanceIn balanceOut ∧
          chargedTrade setup fees last (offered setup.query balanceIn balanceOut) = .ok t ∧
          settleDecay setup period (t.withJournal fun _ => .opened store) = .ok s := by
  have hclosed {balanceIn balanceOut : UInt64} {v : State}
      (hv : solvedTrade setup fees last (offered setup.query balanceIn balanceOut) = .ok v) :
      close setup (v.above (.opened store) [.decay period]) =
        close setup v >>= fun t =>
          settleDecay setup period (t.withJournal fun _ => .opened store) := by
    rcases solved_of_solvedTrade hpool.chargesRate hpool.last_eq hpool.inRange hv
      (charging_offered setup balanceIn balanceOut) with ⟨hsolved, hpending, hfees⟩
    rw [close_above hsolved hpending hfees]
    exact bind_congr_of_ok fun t _ => bind_pure _
  have hrun (hlimit : setup.program.records.size ≤ limit.toNat) :
      run setup limit store = .ok s ↔
        ∃ balanceIn balanceOut t, Decayed setup source period store balanceIn balanceOut ∧
          chargedTrade setup fees last (offered setup.query balanceIn balanceOut) = .ok t ∧
          settleDecay setup period (t.withJournal fun _ => .opened store) = .ok s := by
    show runSteps setup limit limit.toNat (State.initial setup.query store) >>= close setup = _ ↔ _
    simp only [bind_eq_ok_iff, runSteps_decaying_iff hpool hlimit, chargedTrade]
    constructor
    · rintro ⟨_, ⟨balanceIn, balanceOut, v, hdecayed, hv, rfl⟩, hclose⟩
      rw [hclosed hv, bind_eq_ok_iff] at hclose
      rcases hclose with ⟨t, ht, hsettle⟩
      exact ⟨balanceIn, balanceOut, t, hdecayed, ⟨v, hv, ht⟩, hsettle⟩
    · rintro ⟨balanceIn, balanceOut, t, hdecayed, ⟨v, hv, ht⟩, hsettle⟩
      refine ⟨_, ⟨balanceIn, balanceOut, v, hdecayed, hv, rfl⟩, ?_⟩
      rw [hclosed hv, bind_eq_ok_iff]
      exact ⟨t, ht, hsettle⟩
  constructor
  · intro h
    have hlimit := size_le_of_run hpool.isStraight h
    exact ⟨hlimit, (hrun hlimit).mp h⟩
  · rintro ⟨hlimit, h⟩
    exact (hrun hlimit).mpr h

/-!
# What the offsets are raised by
-/

/-- What is settled last are the offsets, and before them there are nothing but fees. -/
theorem exists_events_eq (h : run setup limit store = .ok s) :
    ∃ works start, (∀ work ∈ works, work.isFee = true) ∧
      events setup limit store = runEvents setup limit.toNat (State.initial setup.query store) ++
        (settleEvents setup works start ++ [.settling (.decay period) s.registers]) := by
  rcases (run_decaying_iff hpool).mp h with ⟨hlimit, balanceIn, balanceOut, t, hdecayed, htrade,
    hsettle⟩
  rcases bind_eq_ok_iff.mp htrade with ⟨v, hv, hclose⟩
  have hsteps := (runSteps_decaying_iff hpool hlimit).mpr
    ⟨balanceIn, balanceOut, v, hdecayed, hv, rfl⟩
  rcases solved_of_solvedTrade hpool.chargesRate hpool.last_eq hpool.inRange hv
    (charging_offered setup balanceIn balanceOut) with ⟨hsolved, hpending, hfees⟩
  have hfinish : finishSteps setup (v.above (.opened store) [.decay period]) = .ok _ :=
    finishSteps_of_solved hsolved hpending
  have hunwound : settleAll setup v.settlements
      (State.withJournal (fun _ => .opened store) { v with settlements := [] }) =
        .ok (t.withJournal fun _ => .opened store) := by
    unfold close at hclose
    rw [finishSteps_of_solved hsolved hpending, ok_bind] at hclose
    rw [settleAll_fees_withJournal hfees, hclose]
    rfl
  have hlast : settleEvents setup [.decay period] (t.withJournal fun _ => .opened store) =
      [.settling (.decay period) s.registers] := by
    have hdecay : settle setup (.decay period) (t.withJournal fun _ => .opened store) = .ok s :=
      hsettle
    have hregisters : s.registers = t.registers :=
      congrArg Outcome.registers (ofState_settleDecay hsettle)
    unfold settleEvents
    rw [hdecay, hregisters]
    rfl
  refine ⟨v.settlements, State.withJournal (fun _ => .opened store) { v with settlements := [] },
    hfees, ?_⟩
  unfold events
  simp only [hsteps, ok_bind, hfinish]
  rw [← hlast, ← settleEvents_append hunwound]
  rfl

/-- The offsets are settled once, and what they see are the final amounts. -/
theorem settling_decay_mem_events_iff (h : run setup limit store = .ok s) {duration : UInt32}
    {r : Registers} :
    Event.settling (.decay duration) r ∈ events setup limit store ↔
      duration = period ∧ r = s.registers := by
  rcases exists_events_eq hpool h with ⟨works, start, hfees, hevents⟩
  rw [hevents, List.mem_append, List.mem_append, List.mem_singleton]
  constructor
  · rintro (hrun | hfee | hdecay)
    · exact absurd hrun settling_not_mem_runEvents
    · have hisFee := hfees _ (mem_of_settling_mem_settleEvents hfee)
      cases hisFee
    · cases hdecay
      exact ⟨rfl, rfl⟩
  · rintro ⟨rfl, rfl⟩
    exact Or.inr (Or.inr rfl)

/-- The offsets behind a trade: those of the opposite trade are raised by what was
traded, and the others are as before. -/
structure Shifted (setup : Setup) (period : UInt32) (before after : Order.Store) (r : Registers) :
    Prop where
  locked : ∃ amount : UInt64,
    after.offset? setup.program.id setup.lockedSide = some ⟨amount, setup.environment.now⟩ ∧
      amount.toNat = before.offsetLeft setup.program.id period setup.environment.now
        setup.lockedSide + r.amountIn.toNat
  restored : ∃ amount : UInt64,
    after.offset? setup.program.id setup.restoredSide = some ⟨amount, setup.environment.now⟩ ∧
      amount.toNat = before.offsetLeft setup.program.id period setup.environment.now
        setup.restoredSide + r.amountOut.toNat
  other : ∀ side, side ≠ setup.lockedSide → side ≠ setup.restoredSide →
    after.offset? setup.program.id side = before.offset? setup.program.id side

theorem shifted_of_run (hmode : setup.query.mode = .commit) (h : run setup limit store = .ok s) :
    Shifted setup period store s.journal.commit s.registers := by
  rcases (run_decaying_iff hpool).mp h with ⟨-, balanceIn, balanceOut, t, -, -, hsettle⟩
  have hregisters : s.registers = t.registers :=
    congrArg Outcome.registers (ofState_settleDecay hsettle)
  have hlegs : setup.lockedSide ≠ setup.restoredSide := by
    intro heq
    exact Leg.noConfusion (congrArg Side.leg heq)
  rcases settleDecay_cases setup period (t.withJournal fun _ => .opened store) with
    ⟨locked, restored, hlocked, hrestored, hok⟩ | ⟨-, herror⟩
  · cases hok.symm.trans hsettle
    have hjournal : (State.write (t.withJournal fun _ => .opened store) setup.query.mode
        (shiftedTo setup locked restored)).journal =
          shiftedTo setup locked restored (.opened store) := by
      rw [hmode]
      rfl
    rw [hregisters, hjournal]
    unfold shiftedTo
    constructor
    · refine ⟨locked, ?_, hlocked⟩
      rw [Order.Journal.offset?_commit, Order.Journal.offset?_setOffset_of_ne _ _ hlegs,
        Order.Journal.offset?_setOffset_self]
    · refine ⟨restored, ?_, hrestored⟩
      rw [Order.Journal.offset?_commit, Order.Journal.offset?_setOffset_self]
    · intro side hneLocked hneRestored
      rw [Order.Journal.offset?_commit, Order.Journal.offset?_setOffset_of_ne _ _ hneRestored,
        Order.Journal.offset?_setOffset_of_ne _ _ hneLocked]
      rfl
  · cases herror.symm.trans hsettle

/-!
# Trades over other offsets
-/

/-- A trade over a store without offsets succeeds as soon as it can be made. -/
theorem exists_run_of_no_offsets (hstore : store.HasNoOffsets setup.program.id)
    (hlimit : setup.program.records.size ≤ limit.toNat) {balanceIn balanceOut : UInt64} {t : State}
    (hdecayed : Decayed setup source period store balanceIn balanceOut)
    (htrade : chargedTrade setup fees last (offered setup.query balanceIn balanceOut) = .ok t) :
    ∃ s, run setup limit store = .ok s ∧ Outcome.ofState s = .ofState t := by
  have hraised (side : Side) (amount : UInt64) :
      ¬ UInt64.size ≤ raisedTo setup (.opened store) period side amount := by
    have hnone : (Order.Journal.opened store).offset? setup.program.id side = none := hstore side
    unfold raisedTo
    rw [hnone]
    show ¬ UInt64.size ≤ 0 + amount.toNat
    rw [Nat.zero_add]
    exact Nat.not_le_of_lt amount.toNat_lt
  rcases settleDecay_cases setup period (t.withJournal fun _ => .opened store) with
    ⟨locked, restored, -, -, hok⟩ | ⟨hover | hover, -⟩
  · refine ⟨_, (run_decaying_iff hpool).mpr ⟨hlimit, balanceIn, balanceOut, t, hdecayed, htrade,
      hok⟩, ?_⟩
    have houtcome := ofState_settleDecay hok
    exact houtcome
  · exact absurd hover (hraised _ _)
  · exact absurd hover (hraised _ _)

/-- Where nothing is left of the offsets that a trade comes to, they make no
difference to it. -/
theorem exists_run_eq_of_nothing_left {fresh : Order.Store}
    (hfresh : fresh.HasNoOffsets setup.program.id)
    (hin : store.offsetLeft setup.program.id period setup.environment.now
      ⟨setup.query.assetIn, .input⟩ = 0)
    (hout : store.offsetLeft setup.program.id period setup.environment.now
      ⟨setup.query.assetOut, .output⟩ = 0)
    (h : run setup limit store = .ok s) :
    ∃ s', run setup limit fresh = .ok s' ∧ Outcome.ofState s' = .ofState s := by
  rcases (run_decaying_iff hpool).mp h with ⟨hlimit, balanceIn, balanceOut, t, hdecayed, htrade,
    hsettle⟩
  have hsame : Decayed setup source period fresh balanceIn balanceOut := by
    constructor
    · rw [hfresh.offsetLeft_eq, ← hin]
      exact hdecayed.input
    · rw [hfresh.offsetLeft_eq, ← hout]
      exact hdecayed.output
  rcases exists_run_of_no_offsets hpool hfresh hlimit hsame htrade with ⟨s', hs', houtcome⟩
  exact ⟨s', hs', houtcome.trans (ofState_settleDecay hsettle).symm⟩

/-- A trade comes to some input, of the source or of an offset, and its source holds some
of the output. -/
theorem balances_of_run (h : run setup limit store = .ok s) :
    (held source setup.environment setup.program.id setup.query.assetIn = some 0 →
      store.offsetLeft setup.program.id period setup.environment.now
        ⟨setup.query.assetIn, .input⟩ ≠ 0) ∧
      held source setup.environment setup.program.id setup.query.assetOut ≠ some 0 := by
  rcases (run_decaying_iff hpool).mp h with ⟨-, balanceIn, balanceOut, t, hdecayed, htrade, -⟩
  rcases balances_ne_zero_of_chargedTrade hpool.chargesRate hpool.last_eq hpool.inRange htrade
    (charging_offered setup balanceIn balanceOut) with ⟨hin, hout⟩
  constructor
  · intro hempty hzero
    rcases hdecayed.input with ⟨loaded, hloaded, hbalance⟩
    cases hloaded.symm.trans hempty
    rw [hzero] at hbalance
    exact hin (UInt64.toNat_inj.mp hbalance)
  · intro hempty
    rcases hdecayed.output with ⟨loaded, hloaded, hbalance⟩
    cases hloaded.symm.trans hempty
    exact hout (UInt64.toNat_inj.mp (Nat.le_zero.mp (Nat.le.intro hbalance)))

/-- Where the source holds some of the input, a trade at a fixed input could be made over
a store without offsets. -/
theorem exists_run_of_held {fresh : Order.Store} (hfresh : fresh.HasNoOffsets setup.program.id)
    (hfixed : setup.query.fixed = .input)
    (hheld : held source setup.environment setup.program.id setup.query.assetIn ≠ some 0)
    (h : run setup limit store = .ok s) : ∃ s', run setup limit fresh = .ok s' := by
  rcases (run_decaying_iff hpool).mp h with ⟨hlimit, balanceIn, balanceOut, t, hdecayed, htrade, -⟩
  rcases hdecayed.input with ⟨loadedIn, hloadedIn, -⟩
  rcases hdecayed.output with ⟨loadedOut, hloadedOut, -⟩
  have hpos : loadedIn ≠ 0 := by
    rintro rfl
    exact hheld hloadedIn
  have hloaded : Decayed setup source period fresh loadedIn loadedOut := by
    constructor
    · exact ⟨loadedIn, hloadedIn, by rw [hfresh.offsetLeft_eq, Nat.add_zero]⟩
    · exact ⟨loadedOut, hloadedOut, by rw [hfresh.offsetLeft_eq, Nat.add_zero]⟩
  have hleft (side : Side) :
      fresh.offsetLeft setup.program.id period setup.environment.now side ≤
        store.offsetLeft setup.program.id period setup.environment.now side := by
    rw [hfresh.offsetLeft_eq]
    exact Nat.zero_le _
  rcases hdecayed.le rfl rfl (fun _ => rfl) hleft hloaded with ⟨hin, hout⟩
  rcases exists_chargedTrade_of_le hpool.chargesRate hpool.last_eq rfl hpool.inRange hfixed
    (charging_offered setup balanceIn balanceOut) (charging_offered setup loadedIn loadedOut) hpos
    hin hout htrade with ⟨t', htrade', -⟩
  rcases exists_run_of_no_offsets hpool hfresh hlimit hloaded htrade' with ⟨s', hs', -⟩
  exact ⟨s', hs'⟩

/-- Of two trades that differ in the host and the store alone, at the same balances of
the source, the one that comes to smaller offsets pays no less. -/
theorem amountOut_le_of_offsetLeft_le {setup' : Setup} {limit' : UInt32} {store' : Order.Store}
    {s' : State} (hprogram : setup'.program = setup.program) (hquery : setup'.query = setup.query)
    (hheld : ∀ asset, held source setup'.environment setup.program.id asset =
      held source setup.environment setup.program.id asset)
    (hleft : ∀ side, store'.offsetLeft setup.program.id period setup'.environment.now side ≤
      store.offsetLeft setup.program.id period setup.environment.now side)
    (hfixed : setup.query.fixed = .input) (h : run setup limit store = .ok s)
    (h' : run setup' limit' store' = .ok s') :
    (Outcome.ofState s).amountOut ≤ (Outcome.ofState s').amountOut := by
  rcases (run_decaying_iff hpool).mp h with ⟨-, balanceIn, balanceOut, t, hdecayed, htrade,
    hsettle⟩
  have hpool' : setup'.program.DecayingRecords source period fees last := hprogram ▸ hpool
  rcases (run_decaying_iff hpool').mp h' with ⟨-, betterIn, betterOut, t', hdecayed', htrade',
    hsettle'⟩
  rcases hdecayed.le hprogram hquery hheld hleft hdecayed' with ⟨hin, hout⟩
  have hpos := (balances_ne_zero_of_chargedTrade hpool.chargesRate hpool.last_eq hpool.inRange
    htrade' (charging_offered setup' betterIn betterOut)).1
  have hoffered : (offered setup.query balanceIn balanceOut).setBalances betterIn betterOut =
      offered setup'.query betterIn betterOut := by
    rw [hquery]
    rfl
  have hcharging := charging_offered setup' betterIn betterOut
  rw [← hoffered] at hcharging htrade'
  rcases exists_chargedTrade_of_le hpool.chargesRate hpool.last_eq hquery hpool.inRange hfixed
    (charging_offered setup balanceIn balanceOut) hcharging hpos hin hout htrade with
    ⟨better, hbetter, hle⟩
  cases htrade'.symm.trans hbetter
  rw [ofState_settleDecay hsettle, ofState_settleDecay hsettle']
  exact hle

end Runs

end Machine
end SwapPricing
