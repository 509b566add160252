import SwapPricing.Proofs.Layout
import SwapPricing.Proofs.Positions
import SwapPricing.Proofs.Refusals

/-!
# Blocks of input fees

Input fees that follow one another make up a block.  A run that goes through a
block opens the maker's fees as it meets them and holds the fees of third
parties back, so all that counts of a block is the order of the former and the
order of the latter.
-/

namespace SwapPricing

/-- The waiting fee that an instruction leaves. -/
def Operation.heldFee? : Instruction → Option Machine.PendingFee
  | protocolFee .input rate recipient => some ⟨rate, recipient⟩
  | _ => none

namespace Machine

/-- The fees of third parties in a block, in order. -/
def heldFees (block : List Instruction) : List PendingFee :=
  block.filterMap Operation.heldFee?

/-- The maker's fees in a block, in order. -/
def makerFees (block : List Instruction) : List Instruction :=
  block.filter fun i => i.heldFee?.isNone

/-- Opens fees of the maker, one after the other. -/
def openMakers (setup : Setup) (makers : List Instruction) (s : State) : Run State :=
  makers.foldlM (fun s i => execute setup 0 i s) s

/-- Opens fees of third parties, one after the other. -/
def openHeld (setup : Setup) (held : List PendingFee) (s : State) : Run State :=
  held.foldlM (fun s fee =>
    openFee setup (.protocolFee .input) .input fee.rate.toUInt64 (some fee.recipient) s) s

theorem release_eq_openHeld (setup : Setup) (s : State) :
    release setup s = openHeld setup s.pending { s with pending := [] } :=
  rfl

/-!
# Fees in a block
-/

theorem eq_of_heldFee? {i : Instruction} {fee : PendingFee} (h : i.heldFee? = some fee) :
    i = .protocolFee .input fee.rate fee.recipient := by
  cases i with
  | protocolFee leg rate recipient =>
      cases leg with
      | input =>
          cases h
          rfl
      | output => cases h
  | _ => cases h

theorem maker_cases {i : Instruction} (hwaits : keepsWaiting i.opcode = true)
    (hmaker : i.heldFee? = none) :
    (∃ rate, i = .flatFee .input rate) ∨ ∃ terms, i = .progressiveFee .input terms := by
  cases i with
  | flatFee leg rate =>
      cases leg with
      | input => exact Or.inl ⟨rate, rfl⟩
      | output => cases hwaits
  | progressiveFee leg terms =>
      cases leg with
      | input => exact Or.inr ⟨terms, rfl⟩
      | output => cases hwaits
  | protocolFee leg rate recipient =>
      cases leg with
      | input => cases hmaker
      | output => cases hwaits
  | _ => cases hwaits

theorem isStraight_of_keepsWaiting {i : Instruction} (hwaits : keepsWaiting i.opcode = true) :
    i.isStraight = true := by
  cases i with
  | jump destination => cases hwaits
  | jumpIfAsset leg asset destination => cases hwaits
  | extruction logic input => cases hwaits
  | _ => rfl

theorem offset_of_keepsWaiting {i : Instruction} (hwaits : keepsWaiting i.opcode = true) :
    i.opcode ≠ .twap := by
  intro htwap
  rw [htwap] at hwaits
  cases hwaits

section Cons

variable {i : Instruction} {fee : PendingFee} (rest : List Instruction)

theorem heldFees_cons_of_some (h : i.heldFee? = some fee) :
    heldFees (i :: rest) = fee :: heldFees rest :=
  List.filterMap_cons_some h

theorem heldFees_cons_of_none (h : i.heldFee? = none) : heldFees (i :: rest) = heldFees rest :=
  List.filterMap_cons_none h

theorem makerFees_cons_of_some (h : i.heldFee? = some fee) :
    makerFees (i :: rest) = makerFees rest :=
  List.filter_cons_of_neg (by simp [h])

theorem makerFees_cons_of_none (h : i.heldFee? = none) :
    makerFees (i :: rest) = i :: makerFees rest :=
  List.filter_cons_of_pos (by simp [h])

end Cons

section Blocks

variable {setup : Setup} {s t : State}

/-- A fee of the maker reads neither its place nor the fees that wait. -/
theorem execute_maker_resumed {i : Instruction} (hwaits : keepsWaiting i.opcode = true)
    (hmaker : i.heldFee? = none) (held : List PendingFee → List PendingFee)
    (next steps : Nat → Nat) (offset : Nat) :
    execute setup offset i (s.resumed held next steps) =
      (execute setup 0 i s).map (State.resumed held next steps) := by
  rcases maker_cases hwaits hmaker with ⟨rate, rfl⟩ | ⟨terms, rfl⟩
  · exact openFee_resumed
  · exact progressiveFee_resumed

theorem opening_of_maker {i : Instruction} (hwaits : keepsWaiting i.opcode = true)
    (hmaker : i.heldFee? = none) {offset : Nat} (h : execute setup offset i s = .ok t) :
    s.solved = false ∧ ∃ rate, Opening setup i.opcode .input rate none s t := by
  rcases maker_cases hwaits hmaker with ⟨rate, rfl⟩ | ⟨terms, rfl⟩
  · rcases openFee_eq_ok h with ⟨hsolved, hopening⟩
    exact ⟨hsolved, _, hopening⟩
  · have hfee : progressiveFee setup .input terms s = .ok t := h
    simp only [progressiveFee, bind_eq_ok_iff] at hfee
    rcases hfee with ⟨rate, -, hopen⟩
    rcases openFee_eq_ok hopen with ⟨hsolved, hopening⟩
    exact ⟨hsolved, rate, hopening⟩

theorem solved_maker {i : Instruction} (hwaits : keepsWaiting i.opcode = true)
    (hmaker : i.heldFee? = none) (h : execute setup 0 i s = .ok t) : t.solved = false := by
  rcases opening_of_maker hwaits hmaker h with ⟨hsolved, rate, hopening⟩
  cases hopening <;> exact hsolved

theorem openMakers_resumed {makers : List Instruction}
    (hmakers : ∀ i ∈ makers, keepsWaiting i.opcode = true ∧ i.heldFee? = none)
    (held : List PendingFee → List PendingFee) (next steps : Nat → Nat) :
    openMakers setup makers (s.resumed held next steps) =
      (openMakers setup makers s).map (State.resumed held next steps) := by
  induction makers generalizing s with
  | nil => rfl
  | cons i rest ih =>
      rcases List.forall_mem_cons.mp hmakers with ⟨⟨hwaits, hmaker⟩, hothers⟩
      unfold openMakers
      rw [List.foldlM_cons, List.foldlM_cons, execute_maker_resumed hwaits hmaker]
      exact map_bind_eq_map fun t _ => ih hothers

theorem mem_makerFees {block : List Instruction}
    (hwaits : ∀ i ∈ block, keepsWaiting i.opcode = true) :
    ∀ i ∈ makerFees block, keepsWaiting i.opcode = true ∧ i.heldFee? = none := by
  intro i hi
  rcases List.mem_filter.mp hi with ⟨hmem, hnone⟩
  exact ⟨hwaits i hmem, Option.isNone_iff_eq_none.mp hnone⟩

theorem step_of_keepsWaiting {r : Record} (hwaits : keepsWaiting r.opcode = true) :
    step setup r s = execute setup r.offset r.instruction (s.moved (· + 1) (· + 1)) := by
  unfold step enter releaseBefore
  rw [if_pos hwaits]
  rfl

/-- A fee of a third party waits behind those that wait already. -/
theorem step_of_held {r : Record} {fee : PendingFee} (hwaits : keepsWaiting r.opcode = true)
    (hheld : r.instruction.heldFee? = some fee) (hs : s.solved = false) :
    step setup r s = .ok (s.resumed (· ++ [fee]) (· + 1) (· + 1)) := by
  have hmoved : (s.moved (· + 1) (· + 1)).solved = false := hs
  rw [step_of_keepsWaiting hwaits, eq_of_heldFee? hheld]
  exact protocolFee_of_unsolved setup fee.rate fee.recipient hmoved

theorem step_of_maker {r : Record} (hwaits : keepsWaiting r.opcode = true)
    (hmaker : r.instruction.heldFee? = none) :
    step setup r s = (execute setup 0 r.instruction s).map (State.resumed id (· + 1) (· + 1)) := by
  rw [step_of_keepsWaiting hwaits, State.moved, execute_maker_resumed hwaits hmaker]

/-- Going through a block opens the maker's fees and holds the others back. -/
theorem foldlM_step_block {records : List Record}
    (hwaits : ∀ i ∈ records.map Record.instruction, keepsWaiting i.opcode = true)
    (hs : s.solved = false) :
    records.foldlM (fun s r => step setup r s) s =
      (openMakers setup (makerFees (records.map Record.instruction)) s).map
        (State.resumed (· ++ heldFees (records.map Record.instruction)) (· + records.length)
          (· + records.length)) := by
  -- A fee that is held back here is held back in front of those of the rest, and the
  -- maker's fees of the rest do not look at it.
  induction records generalizing s with
  | nil =>
      have hsame : s.resumed (· ++ []) (· + 0) (· + 0) = s := by
        simp only [State.resumed, List.append_nil, Nat.add_zero]
      exact congrArg Except.ok hsame.symm
  | cons r rest ih =>
      rw [List.map_cons] at hwaits
      rcases List.forall_mem_cons.mp hwaits with ⟨hfirst, hothers⟩
      have hmakers := mem_makerFees hothers
      rw [List.foldlM_cons, List.map_cons]
      cases hheld : r.instruction.heldFee? with
      | some fee =>
          have hnext : (s.resumed (· ++ [fee]) (· + 1) (· + 1)).solved = false := hs
          rw [step_of_held hfirst hheld hs, ok_bind, ih hothers hnext,
            openMakers_resumed hmakers, makerFees_cons_of_some _ hheld,
            heldFees_cons_of_some _ hheld]
          cases openMakers setup (makerFees (rest.map Record.instruction)) s with
          | error e => rfl
          | ok t =>
              apply congrArg Except.ok
              simp only [State.resumed, List.append_assoc, List.singleton_append,
                List.length_cons, Nat.add_assoc, Nat.add_comm 1]
      | none =>
          rw [step_of_maker hfirst hheld, makerFees_cons_of_none _ hheld,
            heldFees_cons_of_none _ hheld]
          unfold openMakers
          rw [List.foldlM_cons]
          apply map_bind_eq_map
          intro t ht
          have hsolved : t.solved = false := solved_maker hfirst hheld ht
          have hnext : (t.resumed id (· + 1) (· + 1)).solved = false := hsolved
          rw [ih hothers hnext, openMakers_resumed hmakers]
          show _ = (openMakers setup _ t).map _
          cases openMakers setup (makerFees (rest.map Record.instruction)) t with
          | error e => rfl
          | ok u =>
              apply congrArg Except.ok
              simp only [State.resumed, List.length_cons, Nat.add_assoc, Nat.add_comm 1, id]

/-!
# Records ahead
-/

theorem length_le_of_ran {left : Nat} {s' : State} (h : Ran setup left s s')
    {records : List Record} (hahead : records <+: setup.program.records.toList.drop s.next)
    (hstraight : ∀ r ∈ records, r.instruction.isStraight = true) : records.length ≤ left := by
  induction h generalizing records with
  | finished hend =>
      cases records with
      | nil => exact Nat.zero_le _
      | cons r rest =>
          have hnow := (cons_prefix_drop_iff.mp hahead).1
          rw [Array.getElem?_toList, hend] at hnow
          cases hnow
  | stepped hr hstep hrest ih =>
      cases records with
      | nil => exact Nat.zero_le _
      | cons first rest =>
          rcases cons_prefix_drop_iff.mp hahead with ⟨hnow, hothers⟩
          rw [Array.getElem?_toList, hr, Option.some.injEq] at hnow
          subst hnow
          rcases List.forall_mem_cons.mp hstraight with ⟨hfirst, hlater⟩
          refine Nat.succ_le_succ (ih ?_ hlater)
          rw [next_step hfirst hstep]
          exact hothers

theorem runSteps_toOption_of_short {records : List Record} {limit : UInt32} {left : Nat}
    (hahead : records <+: setup.program.records.toList.drop s.next)
    (hstraight : ∀ r ∈ records, r.instruction.isStraight = true) (hleft : left < records.length) :
    (runSteps setup limit left s).toOption = none := by
  cases h : runSteps setup limit left s with
  | error e => rfl
  | ok s' =>
      have hle := length_le_of_ran (ran_of_runSteps h) hahead hstraight
      exact absurd hle (Nat.not_le_of_lt hleft)

theorem foldlM_step_onto {program : Program} (hid : program.id = setup.program.id)
    {records : List Record} (hstraight : ∀ r ∈ records, r.instruction.isStraight = true) :
    records.foldlM (fun s r => step (setup.onto program) r s) s =
      records.foldlM (fun s r => step setup r s) s := by
  induction records generalizing s with
  | nil => rfl
  | cons r rest ih =>
      rcases List.forall_mem_cons.mp hstraight with ⟨hfirst, hothers⟩
      have hstep : step (setup.onto program) r s = step setup r s :=
        bind_congr_of_ok fun t _ => execute_onto hid hfirst _ _
      rw [List.foldlM_cons, List.foldlM_cons, hstep]
      exact bind_congr_of_ok fun t _ => ih hothers

/-- Once the amount is solved, no input fee goes through. -/
theorem exists_error_of_solved {records : List Record}
    (hwaits : ∀ i ∈ records.map Record.instruction, keepsWaiting i.opcode = true)
    (hne : records ≠ []) (hs : s.solved = true) :
    ∃ e, records.foldlM (fun s r => step setup r s) s = .error e := by
  cases records with
  | nil => exact absurd rfl hne
  | cons r rest =>
      have hfirst : keepsWaiting r.opcode = true := hwaits _ List.mem_cons_self
      rw [List.foldlM_cons, step_of_keepsWaiting hfirst]
      cases hstep : execute setup r.offset r.instruction (s.moved (· + 1) (· + 1)) with
      | error e => exact ⟨e, rfl⟩
      | ok t =>
          have hunsolved : (s.moved (· + 1) (· + 1)).solved = false := by
            cases hheld : r.instruction.heldFee? with
            | none => exact (opening_of_maker hfirst hheld hstep).1
            | some fee =>
                rw [eq_of_heldFee? hheld] at hstep
                simp only [execute, protocolFee, bind_eq_ok_iff, requireUnsolved_eq_ok_iff]
                  at hstep
                exact hstep.choose_spec.1
          exact absurd (hs.symm.trans hunsolved) (by decide)

end Blocks

/-!
# Rearranged blocks
-/

/-- The same fees, of which neither the maker's nor the others have changed
their order. -/
structure Rearranged (block block' : List Instruction) : Prop where
  waits : ∀ i ∈ block, keepsWaiting i.opcode = true
  waits' : ∀ i ∈ block', keepsWaiting i.opcode = true
  makers : makerFees block' = makerFees block
  held : heldFees block' = heldFees block

theorem filter_isSome_heldFee? (block : List Instruction) :
    block.filter (fun i => !i.heldFee?.isNone) =
      (heldFees block).map fun fee => .protocolFee .input fee.rate fee.recipient := by
  induction block with
  | nil => rfl
  | cons i rest ih =>
      cases hheld : i.heldFee? with
      | none =>
          rw [List.filter_cons_of_neg (by simp [hheld]), heldFees_cons_of_none _ hheld]
          exact ih
      | some fee =>
          rw [List.filter_cons_of_pos (by simp [hheld]), heldFees_cons_of_some _ hheld,
            List.map_cons, ih, ← eq_of_heldFee? hheld]

namespace Rearranged

variable {block block' : List Instruction}

theorem perm (h : Rearranged block block') : block'.Perm block := by
  have hsplit : ∀ is : List Instruction, is.Perm (makerFees is ++
      (heldFees is).map fun fee => .protocolFee .input fee.rate fee.recipient) := by
    intro is
    rw [← filter_isSome_heldFee?]
    exact (List.filter_append_perm (fun i => i.heldFee?.isNone) is).symm
  have hother := hsplit block'
  rw [h.makers, h.held] at hother
  exact hother.trans (hsplit block).symm

theorem length_eq (h : Rearranged block block') : block'.length = block.length :=
  h.perm.length_eq

/-- A block comes to the same whichever way it is arranged. -/
theorem foldlM_step {setup : Setup} {s : State} (h : Rearranged block block')
    {records records' : List Record} (hrecords : records.map Record.instruction = block)
    (hrecords' : records'.map Record.instruction = block') (hs : s.solved = false) :
    records'.foldlM (fun s r => step setup r s) s =
      records.foldlM (fun s r => step setup r s) s := by
  have hlength : records'.length = records.length := by
    rw [← List.length_map (f := Record.instruction), hrecords', h.length_eq, ← hrecords,
      List.length_map]
  rw [foldlM_step_block (hrecords' ▸ h.waits') hs, foldlM_step_block (hrecords ▸ h.waits) hs,
    hrecords, hrecords', h.makers, h.held, hlength]

end Rearranged

/-!
# Programs with a rearranged block
-/

theorem isStraight_of_placed {block : List Instruction}
    (hwaits : ∀ i ∈ block, keepsWaiting i.opcode = true) (offset : Nat) :
    ∀ r ∈ Record.placed offset block, r.instruction.isStraight = true := by
  intro r hr
  have hmem : r.instruction ∈ block := by
    rw [← Record.map_instruction_placed offset block]
    exact List.mem_map_of_mem hr
  exact isStraight_of_keepsWaiting (hwaits _ hmem)

theorem ahead_of_holds {p : Program} {before block after : List Instruction}
    (h : p.Holds (before ++ block ++ after)) :
    Record.placed (extent before) block <+: p.records.toList.drop before.length := by
  rw [h.records, Record.placed_append, Record.placed_append, List.append_assoc, Nat.zero_add]
  show _ <+: (Record.placed 0 before ++ _).drop before.length
  rw [← Record.length_placed 0 before, List.drop_left]
  exact List.prefix_append _ _

theorem placed_ne_nil {block : List Instruction} (hblock : block ≠ []) (offset : Nat) :
    Record.placed offset block ≠ [] := by
  rw [← List.length_pos_iff, Record.length_placed]
  exact List.length_pos_iff.mpr hblock

section AtBlock

/-! A run that has come to a block of the program. -/

variable {setup : Setup} {s s' : State} {before block after : List Instruction}

theorem runSteps_of_holds (h : setup.program.Holds (before ++ block ++ after))
    (hwaits : ∀ i ∈ block, keepsWaiting i.opcode = true) (hnext : s.next = before.length)
    (limit : UInt32) (left : Nat) :
    runSteps setup limit (block.length + left) s =
      (Record.placed (extent before) block).foldlM (fun s r => step setup r s) s >>=
        runSteps setup limit left := by
  have hahead : Record.placed (extent before) block <+:
      setup.program.records.toList.drop s.next := hnext ▸ ahead_of_holds h
  rw [← runSteps_ahead hahead (isStraight_of_placed hwaits _), Record.length_placed]

theorem runSteps_toOption_of_holds (h : setup.program.Holds (before ++ block ++ after))
    (hwaits : ∀ i ∈ block, keepsWaiting i.opcode = true) (hnext : s.next = before.length)
    (limit : UInt32) {left : Nat} (hleft : left < block.length) :
    (runSteps setup limit left s).toOption = none := by
  have hahead : Record.placed (extent before) block <+:
      setup.program.records.toList.drop s.next := hnext ▸ ahead_of_holds h
  refine runSteps_toOption_of_short hahead (isStraight_of_placed hwaits _) ?_
  rw [Record.length_placed]
  exact hleft

theorem next_of_placed (hwaits : ∀ i ∈ block, keepsWaiting i.opcode = true)
    (hnext : s.next = before.length)
    (hfold : (Record.placed (extent before) block).foldlM (fun s r => step setup r s) s = .ok s') :
    s'.next = before.length + block.length := by
  rw [next_foldlM_step (isStraight_of_placed hwaits _) hfold, hnext, Record.length_placed]

end AtBlock

/-- An index that does not lie inside the block. -/
def Outside (before block : List Instruction) (k : Nat) : Prop :=
  k ≤ before.length ∨ before.length + block.length ≤ k

/-- Programs that differ in how a block is arranged, into which nothing jumps. -/
structure Alternatives (p p' : Program) (before block block' after : List Instruction) :
    Prop where
  holds : p.Holds (before ++ block ++ after)
  holds' : p'.Holds (before ++ block' ++ after)
  id_eq : p'.id = p.id
  rearranged : Rearranged block block'
  aims : ∀ i ∈ before ++ block ++ after, ∀ destination, i.target? = some destination →
    ∀ k, p.indexOf destination.toNat = .ok k → Outside before block k
  internal : ∀ i ∈ before ++ block ++ after, i.opcode ≠ .extruction

theorem perm_take {before block block' : List Instruction} (h : Rearranged block block')
    (after : List Instruction) {k : Nat} (hk : Outside before block k) :
    ((before ++ block' ++ after).take k).Perm ((before ++ block ++ after).take k) := by
  rcases hk with hk | hk
  · rw [List.append_assoc, List.append_assoc, List.take_append_of_le_length hk,
      List.take_append_of_le_length hk]
  · rcases Nat.exists_eq_add_of_le hk with ⟨j, rfl⟩
    have hlength : (before ++ block).length = before.length + block.length := List.length_append
    have hlength' : (before ++ block').length = before.length + block.length := by
      rw [List.length_append, h.length_eq]
    nth_rewrite 1 [← hlength']
    rw [List.take_length_add_append, ← hlength, List.take_length_add_append]
    exact (h.perm.append_left before).append_right _

/-- In front of the block and behind it stand the same instructions. -/
theorem getElem?_append {before block block' : List Instruction} (h : Rearranged block block')
    (after : List Instruction) {k : Nat}
    (hk : k < before.length ∨ before.length + block.length ≤ k) :
    (before ++ block' ++ after)[k]? = (before ++ block ++ after)[k]? := by
  rcases hk with hk | hk
  · rw [List.append_assoc, List.append_assoc, List.getElem?_append_left hk,
      List.getElem?_append_left hk]
  · have hlength : (before ++ block).length ≤ k := by
      rw [List.length_append]
      exact hk
    have hlength' : (before ++ block').length ≤ k := by
      rw [List.length_append, h.length_eq]
      exact hk
    rw [List.getElem?_append_right hlength, List.getElem?_append_right hlength',
      List.length_append, List.length_append, h.length_eq]

namespace Alternatives

variable {p p' : Program} {before block block' after : List Instruction}

theorem indexOf_eq (h : Alternatives p p' before block block' after) {offset k : Nat}
    (hk : Outside before block k) (hindex : p.indexOf offset = .ok k) :
    p'.indexOf offset = .ok k := by
  rcases h.holds.indexOf_eq_ok_iff.mp hindex with ⟨hle, hextent⟩
  have hperm := perm_take h.rearranged after hk
  refine h.holds'.indexOf_eq_ok_iff.mpr ⟨?_, ?_⟩
  · simp only [List.length_append, h.rearranged.length_eq] at hle ⊢
    exact hle
  · rw [extent_perm hperm, hextent]

theorem getElem?_eq (h : Alternatives p p' before block block' after) {k : Nat}
    (hk : k < before.length ∨ before.length + block.length ≤ k) :
    p'.records[k]? = p.records[k]? := by
  rw [h.holds.getElem?_records, h.holds'.getElem?_records, getElem?_append h.rearranged after hk,
    extent_perm (perm_take h.rearranged after (hk.imp Nat.le_of_lt id))]

variable {setup : Setup} {s s' : State}

/-- A record outside the block does the same, and goes on outside the block. -/
theorem execute_eq (h : Alternatives setup.program p' before block block' after)
    {r : Record} (hr : r.instruction ∈ before ++ block ++ after) (offset : Nat) :
    execute (setup.onto p') offset r.instruction s = execute setup offset r.instruction s ∧
      ∀ s', execute setup offset r.instruction s = .ok s' →
        s'.next = s.next ∨ Outside before block s'.next := by
  have hinternal := h.internal _ hr
  have hjump : ∀ destination, r.instruction.target? = some destination →
      s.jump p' destination = s.jump setup.program destination ∧
        ∀ s', s.jump setup.program destination = .ok s' → Outside before block s'.next := by
    intro destination htarget
    rcases h.holds.lands _ hr destination htarget with ⟨k, hle, hextent⟩
    have hindex := h.holds.indexOf_eq_ok_iff.mpr ⟨hle, hextent⟩
    have hk := h.aims _ hr destination htarget k hindex
    unfold State.jump
    rw [hindex, h.indexOf_eq hk hindex]
    refine ⟨rfl, ?_⟩
    rintro s' ⟨⟩
    exact hk
  cases hstraight : r.instruction.isStraight with
  | true =>
      refine ⟨execute_onto h.id_eq hstraight _ _, ?_⟩
      intro s' hs'
      exact Or.inl (next_change hstraight (execute_eq_ok hs'))
  | false =>
      generalize r.instruction = i at *
      cases i with
      | jump destination =>
          rcases hjump destination rfl with ⟨heq, hnext⟩
          exact ⟨heq, fun s' hs' => Or.inr (hnext s' hs')⟩
      | jumpIfAsset leg asset destination =>
          rcases hjump destination rfl with ⟨heq, hnext⟩
          simp only [execute, jumpIfAsset]
          by_cases hasset : setup.query.asset leg = asset
          · simp only [hasset, if_true]
            refine ⟨?_, fun s' hs' => Or.inr (hnext s' hs')⟩
            exact (if_pos hasset).trans heq
          · simp only [hasset, if_false]
            refine ⟨if_neg hasset, ?_⟩
            rintro s' ⟨⟩
            exact Or.inl rfl
      | extruction logic input => exact absurd rfl hinternal
      | _ => cases hstraight

/-- Whichever way it is arranged, a run that is allowed enough steps comes out of
the block the same, or does not come out of it. -/
theorem runSteps_block (h : Alternatives setup.program p' before block block' after)
    (hblock : block ≠ []) (hs : s.next = before.length) (limit : UInt32) (left : Nat) :
    (∃ t rest, left = block.length + rest ∧ t.next = before.length + block.length ∧
        runSteps setup limit left s = runSteps setup limit rest t ∧
        runSteps (setup.onto p') limit left s = runSteps (setup.onto p') limit rest t) ∨
      (runSteps setup limit left s).toOption = none ∧
        (runSteps (setup.onto p') limit left s).toOption = none := by
  have hwaits := h.rearranged.waits
  have hwaits' := h.rearranged.waits'
  have hlength := h.rearranged.length_eq
  rcases Nat.lt_or_ge left block.length with hlt | hge
  · exact Or.inr ⟨runSteps_toOption_of_holds h.holds hwaits hs limit hlt,
      runSteps_toOption_of_holds h.holds' hwaits' hs limit (hlength.symm ▸ hlt)⟩
  rcases Nat.exists_eq_add_of_le hge with ⟨rest, rfl⟩
  have hrun' : runSteps (setup.onto p') limit (block.length + rest) s =
      (Record.placed (extent before) block').foldlM (fun s r => step setup r s) s >>=
        runSteps (setup.onto p') limit rest := by
    rw [← foldlM_step_onto h.id_eq (isStraight_of_placed hwaits' _), ← hlength]
    exact runSteps_of_holds h.holds' hwaits' hs limit rest
  have hmap := Record.map_instruction_placed (extent before) block
  have hmap' := Record.map_instruction_placed (extent before) block'
  rw [runSteps_of_holds h.holds hwaits hs limit rest, hrun']
  cases hsolved : s.solved with
  | false =>
      rw [h.rearranged.foldlM_step hmap hmap' hsolved]
      cases hfold : (Record.placed (extent before) block).foldlM
          (fun s r => step setup r s) s with
      | error e => exact Or.inr ⟨rfl, rfl⟩
      | ok t => exact Or.inl ⟨t, rest, rfl, next_of_placed hwaits hs hfold, rfl, rfl⟩
  | true =>
      have hblock' : block' ≠ [] := by
        rw [← List.length_pos_iff, hlength]
        exact List.length_pos_iff.mpr hblock
      rcases exists_error_of_solved (hmap.symm ▸ hwaits) (placed_ne_nil hblock _) hsolved with
        ⟨e, he⟩
      rcases exists_error_of_solved (hmap'.symm ▸ hwaits') (placed_ne_nil hblock' _) hsolved with
        ⟨e', he'⟩
      rw [he, he']
      exact Or.inr ⟨rfl, rfl⟩

theorem step_eq (h : Alternatives setup.program p' before block block' after) {r : Record}
    (hr : setup.program.records[s.next]? = some r) :
    step (setup.onto p') r s = step setup r s ∧
      ∀ t, step setup r s = .ok t → t.next = s.next + 1 ∨ Outside before block t.next := by
  have hmem := h.holds.mem_records (Array.mem_of_getElem? hr)
  constructor
  · exact bind_congr_of_ok fun t _ => (h.execute_eq hmem r.offset).1
  · intro t hstep
    rcases step_eq_ok hstep with ⟨entered, henter, hexecute⟩
    rw [← next_enter henter]
    exact (h.execute_eq hmem r.offset).2 t hexecute

theorem runSteps_toOption (h : Alternatives setup.program p' before block block' after)
    {limit : UInt32} {left : Nat} (hs : Outside before block s.next) :
    (runSteps (setup.onto p') limit left s).toOption =
      (runSteps setup limit left s).toOption := by
  -- A run that comes to the block goes through it as a whole, so it may lose several of
  -- the steps that are left at once.
  induction left using Nat.strong_induction_on generalizing s with
  | _ left ih =>
      by_cases hblock : s.next = before.length ∧ block ≠ []
      · rcases hblock with ⟨hnext, hne⟩
        have hpos := List.length_pos_iff.mpr hne
        rcases h.runSteps_block hne hnext limit left with
          ⟨t, rest, hleft, ht, hrun, hrun'⟩ | ⟨hnone, hnone'⟩
        · rw [hrun, hrun']
          exact ih rest (by omega) (Or.inr (Nat.le_of_eq ht.symm))
        · rw [hnone, hnone']
      · have hk : s.next < before.length ∨ before.length + block.length ≤ s.next := by
          rcases hs with hle | hge
          · rcases Nat.lt_or_eq_of_le hle with hlt | heq
            · exact Or.inl hlt
            · have hempty : block = [] := Classical.not_not.mp fun hne => hblock ⟨heq, hne⟩
              exact Or.inr (by rw [hempty, heq]; exact Nat.le_refl _)
          · exact Or.inr hge
        have hget : (setup.onto p').program.records[s.next]? = setup.program.records[s.next]? :=
          h.getElem?_eq hk
        unfold runSteps
        rw [hget]
        cases hr : setup.program.records[s.next]? with
        | none => rfl
        | some r =>
            cases left with
            | zero => rfl
            | succ left =>
                rcases h.step_eq hr with ⟨hstep, hnext⟩
                simp only [hstep]
                cases ht : step setup r s with
                | error e => rfl
                | ok t =>
                    refine ih left (Nat.lt_succ_self left) ?_
                    rcases hnext t ht with hone | houtside
                    · rw [hone]
                      exact hk.imp id fun hle => Nat.le_succ_of_le hle
                    · exact houtside

end Alternatives

end Machine
end SwapPricing
