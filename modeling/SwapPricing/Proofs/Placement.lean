import Mathlib
import SwapPricing.Proofs.FeeBlocks
import SwapPricing.Proofs.Quoting

/-!
# Placement of input fees

Where an input fee stands in its block makes no difference: the maker's fees come
before the fees of third parties on a fixed input, and behind them where the
output is fixed.
-/

namespace SwapPricing
namespace Machine

/-!
# Runs of both programs
-/

theorem toOption_bind_congr {ε α β : Type} {x y : Except ε α} {f g : α → Except ε β}
    (h : x.toOption = y.toOption) (hrest : ∀ a, (f a).toOption = (g a).toOption) :
    (x >>= f).toOption = (y >>= g).toOption := by
  cases x with
  | error e =>
      cases y with
      | error e' => rfl
      | ok b => cases h
  | ok a =>
      cases y with
      | error e => cases h
      | ok b =>
          cases h
          exact hrest a

/-- Programs under which the same trades succeed, with the same outcomes and the
same order state. -/
def TradeAlike (p p' : Program) : Prop :=
  ∀ (query : Query) (environment : Environment) (external : ExternalLogic) (limit : UInt32)
    (store : Order.Store),
    (quote p' query environment limit store).toOption =
        (quote p query environment limit store).toOption ∧
      (swap p' query environment external limit store).1.toOption =
        (swap p query environment external limit store).1.toOption ∧
      (swap p' query environment external limit store).2 =
        (swap p query environment external limit store).2

theorem tradeAlike_of_run {p p' : Program}
    (h : ∀ (setup : Setup) (limit : UInt32) (store : Order.Store), setup.program = p →
      (run (setup.onto p') limit store).toOption = (run setup limit store).toOption) :
    TradeAlike p p' := by
  intro query environment external limit store
  have hquote := h ⟨p, query, environment, environment.quoteExternal⟩ limit store rfl
  have hswap := h ⟨p, query, environment, external⟩ limit store rfl
  have hswap : (accept query .commit >>= fun _ =>
        run ⟨p', query, environment, external⟩ limit store).toOption =
      (accept query .commit >>= fun _ =>
        run ⟨p, query, environment, external⟩ limit store).toOption :=
    toOption_bind_congr rfl fun _ => hswap
  refine ⟨?_, ?_, ?_⟩
  · refine toOption_bind_congr rfl fun _ => ?_
    exact toOption_bind_congr hquote fun _ => rfl
  · rw [fst_swap, fst_swap]
    exact toOption_bind_congr hswap fun _ => rfl
  · unfold swap
    simp only
    revert hswap
    generalize (accept query .commit >>= fun _ =>
      run ⟨p', query, environment, external⟩ limit store) = x
    generalize (accept query .commit >>= fun _ =>
      run ⟨p, query, environment, external⟩ limit store) = y
    intro hswap
    cases x with
    | error e =>
        cases y with
        | error e' => rfl
        | ok t => cases hswap
    | ok s =>
        cases y with
        | error e => cases hswap
        | ok t =>
            cases hswap
            rfl

theorem Alternatives.tradeAlike {p p' : Program} {before block block' after : List Instruction}
    (h : Alternatives p p' before block block' after) : TradeAlike p p' := by
  refine tradeAlike_of_run ?_
  rintro setup limit store rfl
  have hstart : Outside before block (State.initial setup.query store).next :=
    Or.inl (Nat.zero_le _)
  refine toOption_bind_congr (h.runSteps_toOption hstart) fun stepped => ?_
  refine toOption_bind_congr rfl fun finished => ?_
  rw [settleAll_onto h.id_eq]

/-!
# The rearranged program
-/

/-- A rearranged block makes a program again. -/
theorem encodes_rearranged {set : InstructionSet} {bytes : List UInt8}
    {before block block' after : List Instruction} {p : Program}
    (h : Encodes set (before ++ block ++ after) bytes) (hp : p.Holds (before ++ block ++ after))
    (hrearranged : Rearranged block block')
    (haims : ∀ i ∈ before ++ block ++ after, ∀ destination, i.target? = some destination →
      ∀ k, p.indexOf destination.toNat = .ok k → Outside before block k) :
    ∃ bytes', Encodes set (before ++ block' ++ after) bytes' := by
  have hperm : (before ++ block' ++ after).Perm (before ++ block ++ after) :=
    (hrearranged.perm.append_left before).append_right after
  have hwired : ∀ i ∈ before ++ block' ++ after, set.contains i.opcode = true := fun i hi =>
    InstructionSet.contains_of_encode? h.encode?_eq i (hperm.mem_iff.mp hi)
  rcases InstructionSet.exists_encode? hwired with ⟨bytes', hbytes'⟩
  refine ⟨bytes', .of_lands (fun i hi => h.recordable i (hperm.mem_iff.mp hi)) hbytes' ?_⟩
  intro k i hk destination htarget
  -- A fee does not jump, so the record stands outside the block.
  have houtside : k < before.length ∨ before.length + block.length ≤ k := by
    rcases Nat.lt_or_ge k before.length with hlt | hge
    · exact Or.inl hlt
    · rcases Nat.lt_or_ge k (before.length + block.length) with hinside | hbehind
      · rw [List.append_assoc, List.getElem?_append_right hge,
          List.getElem?_append_left (by rw [hrearranged.length_eq]; omega)] at hk
        have hwaits := hrearranged.waits' i (List.mem_of_getElem? hk)
        cases i with
        | jump destination => cases hwaits
        | jumpIfAsset leg asset destination => cases hwaits
        | _ => cases htarget
      · exact Or.inr hbehind
  rw [getElem?_append hrearranged after houtside] at hk
  have hmem := List.mem_of_getElem? hk
  rcases hp.lands i hmem destination htarget with ⟨j, hj, hextent⟩
  have haim := haims i hmem destination htarget j (hp.indexOf_eq_ok_iff.mpr ⟨hj, hextent⟩)
  refine ⟨⟨j, ?_, ?_⟩, ?_⟩
  · rw [hperm.length_eq]
    exact hj
  · rw [extent_perm (perm_take hrearranged after haim)]
    exact hextent
  · intro hconditional
    rw [extent_perm (perm_take hrearranged after (houtside.imp Nat.le_of_lt id))]
    exact (h.aims _ (Record.mem_placed_iff.mpr ⟨k, i, hk, rfl⟩) destination htarget).2 hconditional

/-!
# The order within a block
-/

/-- The instruction that left a fee to be settled, and who is to get the fee. -/
def Settlement.source? : Settlement → Option (Opcode × Option Address)
  | .fee op _ _ _ recipient => some (op, recipient)
  | _ => none

/-- From `s` to `u`, the maker's fees of a block are opened in front of the
others, and settled behind them. -/
structure MakersFirst (setup : Setup) (block : List Instruction) (s u : State) : Prop where
  /-- On a fixed input, opening a fee takes it off the amount. -/
  opened : ∃ w, (openMakers setup (makerFees block) s >>= openHeld setup (heldFees block)) =
    .ok w ∧ u.registers = w.registers
  /-- Where the output is fixed, settling a fee adds it to the amount. -/
  settled : ∃ levied kept,
    levied.map Settlement.source? =
      ((heldFees block).map fun fee => some (.protocolFee .input, some fee.recipient)).reverse ∧
    kept.map Settlement.source? =
      ((makerFees block).map fun i => some (i.opcode, none)).reverse ∧
    ∀ v, settleAll setup u.settlements v =
      settleAll setup levied v >>= fun v =>
        settleAll setup kept v >>= settleAll setup s.settlements

theorem settleAll_append (setup : Setup) (works rest : List Settlement) (s : State) :
    settleAll setup (works ++ rest) s = settleAll setup works s >>= settleAll setup rest := by
  induction works generalizing s with
  | nil => rfl
  | cons work more ih =>
      rw [List.cons_append]
      unfold settleAll
      rw [bind_assoc]
      exact bind_congr_of_ok fun t _ => ih t

section Order

variable {s : State}

theorem exists_openFee_input (setup : Setup) (op : Opcode) {rate : UInt64}
    (recipient : Option Address) (hrate : rate.toNat < Arithmetic.bps) (hs : s.solved = false) :
    ∃ t carried, openFee setup op .input rate recipient s = .ok t ∧ t.solved = false ∧
      t.pending = s.pending ∧ t.settlements = .fee op .input rate carried recipient ::
        s.settlements := by
  cases hfixed : setup.query.fixed with
  | input =>
      rcases Arithmetic.exists_deductRate s.registers.amountIn (Nat.le_of_lt hrate) with
        ⟨net, hnet⟩
      have hle := Arithmetic.deductRate_le hnet
      have hfee : net.toNat + (s.registers.amountIn - net).toNat = s.registers.amountIn.toNat := by
        rw [Nat.add_comm]
        exact Arithmetic.toNat_sub_add hle
      exact ⟨_, _, openFee_of_opening hs (.charged rfl hfixed hnet hfee), hs, rfl, rfl⟩
  | output =>
      have hleg : Leg.input ≠ setup.query.fixed := by
        rw [hfixed]
        decide
      exact ⟨_, _, openFee_of_opening hs (.postponed hleg), hs, rfl, rfl⟩

theorem exists_maker (setup : Setup) {i : Instruction} (hwaits : keepsWaiting i.opcode = true)
    (hmaker : i.heldFee? = none) (hrange : i.InRange) (hs : s.solved = false) :
    ∃ t work, execute setup 0 i s = .ok t ∧ t.solved = false ∧ t.pending = s.pending ∧
      t.settlements = work :: s.settlements ∧ work.source? = some (i.opcode, none) := by
  rcases maker_cases hwaits hmaker with ⟨rate, rfl⟩ | ⟨terms, rfl⟩
  · have hrate : rate.toUInt64.toNat < Arithmetic.bps := hrange
    rcases exists_openFee_input setup (.flatFee .input) none hrate hs with
      ⟨t, carried, ht, hsolved, hpending, hworks⟩
    exact ⟨t, _, ht, hsolved, hpending, hworks, rfl⟩
  · rcases Arithmetic.exists_progressiveRate terms.base.toUInt64 terms.slope.toUInt64
      terms.cap.toUInt64 (s.registers.amount setup.query.fixed)
      (s.registers.balance setup.query.fixed) with ⟨rate, hrate⟩
    have hle := Nat.lt_of_le_of_lt (Arithmetic.progressiveRate_le hrate) hrange.2
    rcases exists_openFee_input setup (.progressiveFee .input) none hle hs with
      ⟨t, carried, ht, hsolved, hpending, hworks⟩
    refine ⟨t, _, ?_, hsolved, hpending, hworks, rfl⟩
    show progressiveFee setup .input terms s = .ok t
    unfold progressiveFee
    simp only [hrate, calculate_eq_ok_iff.mpr rfl, ok_bind]
    exact ht

theorem exists_openMakers (setup : Setup) {makers : List Instruction}
    (hmakers : ∀ i ∈ makers, keepsWaiting i.opcode = true ∧ i.heldFee? = none)
    (hrange : ∀ i ∈ makers, i.InRange) (hs : s.solved = false) :
    ∃ t kept, openMakers setup makers s = .ok t ∧ t.solved = false ∧ t.pending = s.pending ∧
      t.settlements = kept ++ s.settlements ∧
      kept.map Settlement.source? = (makers.map fun i => some (i.opcode, none)).reverse := by
  induction makers generalizing s with
  | nil => exact ⟨s, [], rfl, hs, rfl, rfl, rfl⟩
  | cons i rest ih =>
      rcases List.forall_mem_cons.mp hmakers with ⟨⟨hwaits, hmaker⟩, hothers⟩
      rcases List.forall_mem_cons.mp hrange with ⟨hfirst, hlater⟩
      rcases exists_maker setup hwaits hmaker hfirst hs with
        ⟨t, work, ht, hsolved, hpending, hworks, hop⟩
      rcases ih hothers hlater hsolved with ⟨u, kept, hu, husolved, hupending, huworks, hkept⟩
      refine ⟨u, kept ++ [work], ?_, husolved, hupending.trans hpending, ?_, ?_⟩
      · unfold openMakers
        rw [List.foldlM_cons, ht]
        exact hu
      · rw [huworks, hworks, List.append_assoc]
        rfl
      · rw [List.map_append, hkept, List.map_singleton, hop, List.map_cons, List.reverse_cons]

theorem exists_openHeld (setup : Setup) {held : List PendingFee}
    (hrates : ∀ fee ∈ held, fee.rate.toNat < Arithmetic.bps) (hs : s.solved = false) :
    ∃ t levied, openHeld setup held s = .ok t ∧ t.solved = false ∧ t.pending = s.pending ∧
      t.settlements = levied ++ s.settlements ∧
      levied.map Settlement.source? =
        (held.map fun fee => some (.protocolFee .input, some fee.recipient)).reverse := by
  induction held generalizing s with
  | nil => exact ⟨s, [], rfl, hs, rfl, rfl, rfl⟩
  | cons fee rest ih =>
      rcases List.forall_mem_cons.mp hrates with ⟨hfirst, hothers⟩
      have hrate : fee.rate.toUInt64.toNat < Arithmetic.bps := hfirst
      rcases exists_openFee_input setup (.protocolFee .input) (some fee.recipient) hrate hs with
        ⟨t, carried, ht, hsolved, hpending, hworks⟩
      rcases ih hothers hsolved with ⟨u, levied, hu, husolved, hupending, huworks, hlevied⟩
      refine ⟨u, levied ++ [.fee (.protocolFee .input) .input fee.rate.toUInt64 carried
        (some fee.recipient)], ?_, husolved, hupending.trans hpending, ?_, ?_⟩
      · unfold openHeld
        rw [List.foldlM_cons, ht]
        exact hu
      · rw [huworks, hworks, List.append_assoc]
        rfl
      · rw [List.map_append, hlevied, List.map_singleton, List.map_cons, List.reverse_cons]
        rfl

/-- A run that comes to a block unsolved, with nothing waiting, goes through it
and opens the maker's fees first. -/
theorem makersFirst_of_holds {setup : Setup} {before block after : List Instruction}
    (h : setup.program.Holds (before ++ block ++ after))
    (hwaits : ∀ i ∈ block, keepsWaiting i.opcode = true) (hrange : ∀ i ∈ block, i.InRange)
    (limit : UInt32) (hnext : s.next = before.length) (hs : s.solved = false)
    (hpending : s.pending = []) :
    ∃ t u, t.next = before.length + block.length ∧
      (∀ left, runSteps setup limit (block.length + left) s = runSteps setup limit left t) ∧
      release setup t = .ok u ∧ MakersFirst setup block s u := by
  have hmakers := mem_makerFees hwaits
  have hmakersRange : ∀ i ∈ makerFees block, i.InRange := fun i hi =>
    hrange i (List.mem_of_mem_filter hi)
  have hrates : ∀ fee ∈ heldFees block, fee.rate.toNat < Arithmetic.bps := by
    intro fee hfee
    rcases List.mem_filterMap.mp hfee with ⟨i, hi, hheld⟩
    have hown := hrange i hi
    rw [eq_of_heldFee? hheld] at hown
    exact hown
  rcases exists_openMakers setup hmakers hmakersRange hs with
    ⟨mid, kept, hmid, hsolved, hmidPending, hmidWorks, hkept⟩
  rcases exists_openHeld setup hrates hsolved with ⟨w, levied, hw, -, -, hworks, hlevied⟩
  have hmap := Record.map_instruction_placed (extent before) block
  have hsize := Record.length_placed (extent before) block
  have hfold : (Record.placed (extent before) block).foldlM (fun s r => step setup r s) s =
      .ok (mid.resumed (· ++ heldFees block) (· + block.length) (· + block.length)) := by
    rw [foldlM_step_block (hmap.symm ▸ hwaits) hs, hmap, hsize, hmid]
    rfl
  have hheld : mid.pending ++ heldFees block = heldFees block := by
    rw [hmidPending, hpending, List.nil_append]
  refine ⟨mid.resumed (· ++ heldFees block) (· + block.length) (· + block.length),
    w.resumed (fun _ => []) (· + block.length) (· + block.length), ?_, ?_, ?_, ?_⟩
  · exact next_of_placed hwaits hnext hfold
  · intro left
    rw [runSteps_of_holds h hwaits hnext, hfold]
    rfl
  · have hopen : openHeld setup (heldFees block)
        (mid.resumed (fun _ => []) (· + block.length) (· + block.length)) =
          .ok (w.resumed (fun _ => []) (· + block.length) (· + block.length)) := by
      refine (openAll_resumed (heldFees block) mid).trans ?_
      exact congrArg (Except.map _) hw
    rw [release_eq_openHeld]
    show openHeld setup (mid.pending ++ heldFees block) _ = _
    rw [hheld]
    exact hopen
  · refine ⟨⟨w, ?_, rfl⟩, levied, kept, hlevied, hkept, ?_⟩
    · rw [hmid]
      exact hw
    · intro v
      show settleAll setup w.settlements v = _
      rw [hworks, hmidWorks, settleAll_append]
      exact bind_congr_of_ok fun v _ => settleAll_append setup kept s.settlements v

end Order

/-!
# Programs
-/

/-- The fees of a block may change places as long as the maker's keep their order
and the others keep theirs, and nothing jumps into the block.  The result is a
program again, and every program of these instructions trades alike.  Whichever
way it is arranged, the maker's fees act in front of the others on a fixed input,
and behind them in the settlements. -/
theorem input_fees_placed_alike {set : InstructionSet} {id : ProgramId} {bytes : List UInt8}
    {program : Program} (hdecode : Program.decode set id bytes = .ok program)
    (hexternal : ∀ r ∈ program.records, r.opcode ≠ .extruction)
    {before block block' after : List Instruction}
    (hsplit : program.records.toList.map Record.instruction = before ++ block ++ after)
    (hrearranged : Rearranged block block')
    (haims : ∀ r ∈ program.records, ∀ destination, r.instruction.target? = some destination →
      ∀ k, program.indexOf destination.toNat = .ok k →
        k ≤ before.length ∨ before.length + block.length ≤ k) :
    (∃ bytes' program', Program.decode set id bytes' = .ok program' ∧
      program'.records.toList.map Record.instruction = before ++ block' ++ after) ∧
    (∀ bytes' program', Program.decode set id bytes' = .ok program' →
      program'.records.toList.map Record.instruction = before ++ block' ++ after →
      TradeAlike program program') ∧
    ∀ (setup : Setup) (limit : UInt32) (s : State), setup.program = program →
      s.next = before.length → s.solved = false → s.pending = [] →
      ∃ t u, t.next = before.length + block.length ∧
        (∀ left, runSteps setup limit (block.length + left) s = runSteps setup limit left t) ∧
        release setup t = .ok u ∧ MakersFirst setup block s u := by
  rcases Program.exists_holds_of_decode hdecode with ⟨is, hencodes, hholds, hid⟩
  have his : is = before ++ block ++ after := hholds.map_instruction.symm.trans hsplit
  subst his
  have hrecord : ∀ i ∈ before ++ block ++ after, ∃ r ∈ program.records, r.instruction = i := by
    intro i hi
    rw [← hsplit] at hi
    rcases List.mem_map.mp hi with ⟨r, hr, hinstruction⟩
    exact ⟨r, Array.mem_toList_iff.mp hr, hinstruction⟩
  have hlands : ∀ i ∈ before ++ block ++ after, ∀ destination, i.target? = some destination →
      ∀ k, program.indexOf destination.toNat = .ok k → Outside before block k := by
    intro i hi
    rcases hrecord i hi with ⟨r, hr, rfl⟩
    exact haims r hr
  have hinternal : ∀ i ∈ before ++ block ++ after, i.opcode ≠ .extruction := by
    intro i hi
    rcases hrecord i hi with ⟨r, hr, rfl⟩
    exact hexternal r hr
  refine ⟨?_, ?_, ?_⟩
  · rcases encodes_rearranged hencodes hholds hrearranged hlands with ⟨bytes', hencodes'⟩
    refine ⟨bytes', _, Program.decode_eq_ok_iff.mpr ⟨_, hencodes', rfl⟩, ?_⟩
    exact Record.map_instruction_placed 0 _
  · intro bytes' program' hdecode' hsplit'
    rcases Program.exists_holds_of_decode hdecode' with ⟨is', -, hholds', hid'⟩
    have his' : is' = before ++ block' ++ after := hholds'.map_instruction.symm.trans hsplit'
    subst his'
    exact Alternatives.tradeAlike
      ⟨hholds, hholds', hid'.trans hid.symm, hrearranged, hlands, hinternal⟩
  · rintro setup limit s rfl hnext hs hpending
    refine makersFirst_of_holds hholds hrearranged.waits ?_ limit hnext hs hpending
    intro i hi
    refine (hencodes.recordable i ?_).inRange
    exact List.mem_append_left _ (List.mem_append_right _ hi)

/-- A pool that takes the fees of two third parties around its own. -/
def sandwichedBytes : List UInt8 :=
  Operation.recorded 21 (.protocolFee .input 100 (.single 82)) ++
    Operation.recorded 17 (.flatFee .input 300) ++
    Operation.recorded 21 (.protocolFee .input 200 (.single 83)) ++
    Operation.recorded 7 (.staticBalances [(.single 65, 10000), (.single 66, 10000)]) ++
    Operation.recorded 10 .solve

def sandwichedPool : Program where
  id := .single 80
  bytes := sandwichedBytes.toArray
  records := #[⟨0, .protocolFee .input 100 (.single 82)⟩, ⟨36, .flatFee .input 300⟩,
    ⟨40, .protocolFee .input 200 (.single 83)⟩,
    ⟨76, .staticBalances [(.single 65, 10000), (.single 66, 10000)]⟩, ⟨158, .solve⟩]

theorem placed_alike_in_sandwiched_pool :
    (quote sandwichedPool (.simulated .input (.single 65) (.single 66) 1000)
      (Observations.atTime 0).environment 16 .empty).toOption =
        some ⟨⟨10000, 10000, 1000, 859⟩, [⟨.single 83, .single 65, 20⟩,
          ⟨.single 82, .single 65, 10⟩], 5⟩ ∧
    ∃ bytes' program', Program.decode .full (.single 80) bytes' = .ok program' ∧
      program'.records.toList.map Record.instruction =
        [.flatFee .input 300, .protocolFee .input 100 (.single 82),
          .protocolFee .input 200 (.single 83),
          .staticBalances [(.single 65, 10000), (.single 66, 10000)], .solve] ∧
      (quote program' (.simulated .input (.single 65) (.single 66) 1000)
        (Observations.atTime 0).environment 16 .empty).toOption =
          some ⟨⟨10000, 10000, 1000, 859⟩, [⟨.single 83, .single 65, 20⟩,
            ⟨.single 82, .single 65, 10⟩], 5⟩ := by
  have hdecode : Program.decode .full (.single 80) sandwichedBytes = .ok sandwichedPool := by cbv
  have hsplit : sandwichedPool.records.toList.map Record.instruction =
    [] ++ [.protocolFee .input 100 (.single 82), .flatFee .input 300,
        .protocolFee .input 200 (.single 83)] ++
      [.staticBalances [(.single 65, 10000), (.single 66, 10000)], .solve] := rfl
  have hrearranged : Rearranged [.protocolFee .input 100 (.single 82), .flatFee .input 300,
      .protocolFee .input 200 (.single 83)]
    [.flatFee .input 300, .protocolFee .input 100 (.single 82),
      .protocolFee .input 200 (.single 83)] := ⟨by decide, by decide, rfl, rfl⟩
  have hstay : ∀ r ∈ sandwichedPool.records, r.instruction.target? = none := by decide
  have hquote : quote sandwichedPool (.simulated .input (.single 65) (.single 66) 1000)
      (Observations.atTime 0).environment 16 .empty =
    .ok ⟨⟨10000, 10000, 1000, 859⟩, [⟨.single 83, .single 65, 20⟩,
      ⟨.single 82, .single 65, 10⟩], 5⟩ := rfl
  rcases input_fees_placed_alike hdecode (by decide) hsplit hrearranged
    (fun r hr destination htarget => by rw [hstay r hr] at htarget; cases htarget) with
    ⟨⟨bytes', program', hdecode', hsplit'⟩, halike, -⟩
  refine ⟨congrArg Except.toOption hquote, bytes', program', hdecode', hsplit', ?_⟩
  rw [(halike bytes' program' hdecode' hsplit' _ _ .absent _ _).1, hquote]
  rfl

end Machine
end SwapPricing
