import SwapPricing.Program
import SwapPricing.Proofs.Arguments

/-!
# Decoded programs

Decoding reads every record, whether or not a run ever reaches it.  It accepts
exactly the encodings of lists of instructions that are wired, fit their records,
have their arguments in range and aim their jumps at records or at the end.
-/

namespace SwapPricing

/-!
# Instruction sets
-/

namespace InstructionSet

variable (set : InstructionSet)

theorem length_opcodes_le : set.opcodes.length ≤ 34 :=
  (set.nodup.subperm fun op _ => Opcode.mem_all op).length_le

variable {set}

theorem opcode?_eq_some_iff {code : UInt8} {op : Opcode} :
    set.opcode? code = some op ↔ set.code? op = some code := by
  unfold opcode? code?
  constructor
  · intro h
    rcases List.getElem?_eq_some_iff.mp h with ⟨hlt, rfl⟩
    rw [if_pos (List.getElem_mem hlt), set.nodup.idxOf_getElem, UInt8.ofNat_toNat]
  · intro h
    split at h
    · rename_i hop
      have hlt : set.opcodes.idxOf op < 256 :=
        Nat.lt_of_lt_of_le (List.idxOf_lt_length_iff.mpr hop)
          (Nat.le_trans set.length_opcodes_le (by decide))
      injection h with h
      rw [← h, UInt8.toNat_ofNat_of_lt' hlt]
      exact List.getElem?_idxOf hop
    · cases h

end InstructionSet

namespace Operation

/-- The record of an instruction whose opcode is wired at `code`. -/
def recorded (code : UInt8) (i : Instruction) : List UInt8 :=
  code :: UInt8.ofNat i.arguments.length :: i.arguments

/-- The arguments are in range, and their number fits the length byte. -/
structure Recordable (i : Instruction) : Prop where
  inRange : i.InRange
  short : i.arguments.length ≤ 255

end Operation

namespace InstructionSet

variable {set : InstructionSet}

def record? (set : InstructionSet) (i : Instruction) : Option (List UInt8) :=
  (set.code? i.opcode).map fun code => Operation.recorded code i

/-- The records of instructions, one behind the other. -/
def encode? (set : InstructionSet) (is : List Instruction) : Option (List UInt8) :=
  (is.mapM set.record?).map List.flatten

theorem encode?_cons_eq_some_iff {i : Instruction} {rest : List Instruction}
    {bytes : List UInt8} :
    set.encode? (i :: rest) = some bytes ↔
      ∃ code more, set.code? i.opcode = some code ∧ set.encode? rest = some more ∧
        bytes = Operation.recorded code i ++ more := by
  have hrecord : set.record? i = (set.code? i.opcode).map fun code =>
      Operation.recorded code i := rfl
  unfold encode?
  rw [List.mapM_cons, hrecord]
  cases set.code? i.opcode with
  | none => simp
  | some code =>
      cases rest.mapM set.record? with
      | none => simp
      | some records => simp [eq_comm]

end InstructionSet

/-!
# Records
-/

namespace Record

/-- The records of instructions, the first of which stands at `offset`. -/
def placed (offset : Nat) : List Instruction → List Record
  | [] => []
  | i :: rest => ⟨offset, i⟩ :: placed (offset + headerSize + i.arguments.length) rest

theorem map_instruction_placed (offset : Nat) (is : List Instruction) :
    (placed offset is).map instruction = is := by
  induction is generalizing offset with
  | nil => rfl
  | cons i rest ih =>
      unfold placed
      rw [List.map_cons, ih]

theorem offset_le_of_mem_placed {offset : Nat} {is : List Instruction} {r : Record}
    (hr : r ∈ placed offset is) : offset ≤ r.offset := by
  induction is generalizing offset with
  | nil => cases hr
  | cons i rest ih =>
      rcases List.mem_cons.mp hr with rfl | hrest
      · exact Nat.le_refl _
      · have hle := ih hrest
        omega

theorem pairwise_placed (offset : Nat) (is : List Instruction) :
    (placed offset is).Pairwise fun r other => r.offset < other.offset := by
  induction is generalizing offset with
  | nil => exact .nil
  | cons i rest ih =>
      refine .cons ?_ (ih _)
      intro r hr
      have hle := offset_le_of_mem_placed hr
      have hpos : 0 < headerSize := by decide
      show offset < r.offset
      omega

variable {set : InstructionSet}

theorem decodeAll_nil (set : InstructionSet) (offset : Nat) :
    decodeAll set offset [] = .ok [] := by
  unfold decodeAll
  rfl

theorem decodeAll_recorded {code : UInt8} {i : Instruction} {offset : Nat} {more : List UInt8}
    (hcode : set.code? i.opcode = some code) (hi : i.Recordable) :
    decodeAll set offset (Operation.recorded code i ++ more) =
      (decodeAll set (offset + headerSize + i.arguments.length) more).map (⟨offset, i⟩ :: ·) := by
  have hsize : (UInt8.ofNat i.arguments.length).toNat = i.arguments.length :=
    UInt8.toNat_ofNat_of_lt' (Nat.lt_of_le_of_lt hi.short (by decide))
  have hdecode : Operation.decode i.opcode offset i.arguments = .ok i :=
    Operation.decode_eq_ok_iff.mpr ⟨rfl, hi.inRange, rfl⟩
  show decodeAll set offset (code :: UInt8.ofNat i.arguments.length :: (i.arguments ++ more)) = _
  rw [decodeAll]
  simp only [InstructionSet.opcode?_eq_some_iff.mpr hcode, hsize, List.take_left, List.drop_left,
    if_true, hdecode, ok_bind]
  cases decodeAll set (offset + headerSize + i.arguments.length) more <;> rfl

/-- Arguments that are cut to the size byte and decode are a record's. -/
theorem recorded_of_decode {code size : UInt8} {op : Opcode} {offset : Nat} {rest : List UInt8}
    {i : Instruction} (hdecode : Operation.decode op offset (rest.take size.toNat) = .ok i)
    (hlength : (rest.take size.toNat).length = size.toNat) :
    i.Recordable ∧ i.arguments.length = size.toNat ∧
      code :: size :: rest = Operation.recorded code i ++ rest.drop size.toNat := by
  rcases Operation.decode_eq_ok_iff.mp hdecode with ⟨-, hrange, harguments⟩
  have hsize : i.arguments.length = size.toNat := by
    rw [harguments]
    exact hlength
  have hshort : i.arguments.length ≤ 255 := by
    rw [hsize]
    exact Nat.le_of_lt_succ size.toNat_lt
  refine ⟨⟨hrange, hshort⟩, hsize, ?_⟩
  unfold Operation.recorded
  rw [hsize, UInt8.ofNat_toNat, harguments]
  show _ = code :: size :: (rest.take size.toNat ++ rest.drop size.toNat)
  rw [List.take_append_drop]

/-- The records of a program are those of instructions that stand one behind the
other. -/
theorem decodeAll_eq_ok_iff {offset : Nat} {bytes : List UInt8} {records : List Record} :
    decodeAll set offset bytes = .ok records ↔
      ∃ is, (∀ i ∈ is, i.Recordable) ∧ set.encode? is = some bytes ∧
        records = placed offset is := by
  constructor
  · intro h
    fun_induction decodeAll set offset bytes generalizing records with
    | case1 offset =>
        cases h
        exact ⟨[], List.forall_mem_nil _, rfl, rfl⟩
    | case2 offset code => cases h
    | case3 offset code size rest hop => cases h
    | case4 offset code size rest op hop arguments hlength =>
        rename_i ih
        simp only [bind_eq_ok_iff, Except.ok.injEq] at h
        rcases h with ⟨i, hi, more, hmore, rfl⟩
        rcases ih hmore with ⟨is, hrecordable, hbytes, rfl⟩
        rcases recorded_of_decode hi hlength with ⟨hrecord, hsize, hrecorded⟩
        rw [← (Operation.decode_eq_ok_iff.mp hi).1, InstructionSet.opcode?_eq_some_iff] at hop
        refine ⟨i :: is, List.forall_mem_cons.mpr ⟨hrecord, hrecordable⟩, ?_, ?_⟩
        · exact InstructionSet.encode?_cons_eq_some_iff.mpr ⟨code, _, hop, hbytes, hrecorded⟩
        · rw [placed, hsize]
    | case5 offset code size rest op hop hlength => cases h
  · rintro ⟨is, hrecordable, hbytes, rfl⟩
    induction is generalizing offset bytes with
    | nil =>
        cases hbytes
        exact decodeAll_nil set offset
    | cons i rest ih =>
        rcases InstructionSet.encode?_cons_eq_some_iff.mp hbytes with
          ⟨code, more, hcode, hmore, rfl⟩
        rcases List.forall_mem_cons.mp hrecordable with ⟨hi, hrest⟩
        rw [decodeAll_recorded hcode hi, ih hrest hmore]
        rfl

end Record

/-!
# Jumps
-/

/-- A record aims at another one or at the end, and strictly forward if it jumps
on a condition. -/
def Record.AimsInto (records : List Record) (size : Nat) (r : Record) : Prop :=
  ∀ destination, r.instruction.target? = some destination →
    (destination.toNat = size ∨ ∃ other ∈ records, other.offset = destination.toNat) ∧
      (r.instruction.isConditional = true → r.offset < destination.toNat)

namespace Program

variable {p : Program}

/-- Where the offsets ascend, the search finds every record. -/
theorem indexOf_eq_ok_iff_of_ne
    (hascending : p.records.toList.Pairwise fun r other => r.offset < other.offset)
    {offset index : Nat} (hend : offset ≠ p.bytes.size) :
    p.indexOf offset = .ok index ↔ ∃ r, p.records[index]? = some r ∧ r.offset = offset := by
  unfold indexOf
  rw [if_neg hend]
  constructor
  · intro h
    simp only at h
    split at h
    · rename_i hfound
      cases h
      rcases Option.any_eq_true _ _ |>.mp hfound with ⟨r, hr, hoffset⟩
      exact ⟨r, hr, of_decide_eq_true hoffset⟩
    · cases h
  · rintro ⟨r, hr, rfl⟩
    rcases Array.getElem?_eq_some_iff.mp hr with ⟨hindex, rfl⟩
    have hsearch : lowerBound p.records p.records[index].offset 0 p.size = index :=
      lowerBound_eq (fun i j hi hj hlt => List.pairwise_iff_getElem.mp hascending i j hi hj hlt)
        hindex (Nat.zero_le _) (Nat.le_of_lt hindex) (Nat.le_refl _)
    have hfound : p.records[index]?.any
        (fun r => r.offset = p.records[index].offset) = true := by
      rw [hr]
      exact decide_eq_true rfl
    simp only [hsearch, hfound, if_true]

theorem exists_indexOf_iff
    (hascending : p.records.toList.Pairwise fun r other => r.offset < other.offset)
    {offset : Nat} :
    (∃ index, p.indexOf offset = .ok index) ↔
      offset = p.bytes.size ∨ ∃ r ∈ p.records.toList, r.offset = offset := by
  by_cases hend : offset = p.bytes.size
  · unfold indexOf
    simp [hend]
  · simp only [indexOf_eq_ok_iff_of_ne hascending hend, hend, false_or, Array.mem_toList_iff]
    constructor
    · rintro ⟨index, r, hr, hoffset⟩
      exact ⟨r, Array.mem_of_getElem? hr, hoffset⟩
    · rintro ⟨r, hr, hoffset⟩
      rcases Array.mem_iff_getElem?.mp hr with ⟨index, hindex⟩
      exact ⟨index, r, hindex, hoffset⟩

theorem checkJump_eq_ok_iff
    (hascending : p.records.toList.Pairwise fun r other => r.offset < other.offset)
    {r : Record} : p.checkJump r = .ok () ↔ r.AimsInto p.records.toList p.bytes.size := by
  unfold checkJump Record.AimsInto
  cases htarget : r.instruction.target? with
  | none => simp
  | some destination =>
      simp only [Option.some.injEq, forall_eq', bind_eq_ok_iff, ← exists_indexOf_iff hascending]
      constructor
      · rintro ⟨index, hindex, hforward⟩
        refine ⟨⟨index, hindex⟩, ?_⟩
        split at hforward
        · cases hforward
        · rename_i hnot
          intro hconditional
          exact Nat.lt_of_not_le fun hle => hnot ⟨hconditional, hle⟩
      · rintro ⟨⟨index, hindex⟩, hforward⟩
        refine ⟨index, hindex, if_neg ?_⟩
        rintro ⟨hconditional, hle⟩
        exact Nat.not_lt_of_le hle (hforward hconditional)

end Program

theorem forM_eq_ok_iff {ε α : Type} {f : α → Except ε Unit} {l : List α} :
    l.forM f = .ok () ↔ ∀ a ∈ l, f a = .ok () := by
  induction l with
  | nil => exact ⟨fun _ => List.forall_mem_nil _, fun _ => rfl⟩
  | cons a rest ih =>
      show (f a >>= fun _ => rest.forM f) = .ok () ↔ _
      rw [bind_eq_ok_iff, List.forall_mem_cons, ← ih]
      constructor
      · rintro ⟨u, ha, hrest⟩
        exact ⟨ha, hrest⟩
      · rintro ⟨ha, hrest⟩
        exact ⟨(), ha, hrest⟩

/-!
# Programs
-/

/-- What a list of instructions has to satisfy for `bytes` to be a program of it. -/
structure Encodes (set : InstructionSet) (is : List Instruction) (bytes : List UInt8) : Prop where
  recordable : ∀ i ∈ is, i.Recordable
  encode?_eq : set.encode? is = some bytes
  aims : ∀ r ∈ Record.placed 0 is, r.AimsInto (Record.placed 0 is) bytes.length

namespace Program

variable {set : InstructionSet} {id : ProgramId} {bytes : List UInt8} {program : Program}

theorem decode_eq_ok_iff :
    decode set id bytes = .ok program ↔
      ∃ is, Encodes set is bytes ∧
        program = ⟨id, bytes.toArray, (Record.placed 0 is).toArray⟩ := by
  unfold decode
  simp only [bind_eq_ok_iff, Except.ok.injEq, Record.decodeAll_eq_ok_iff]
  constructor
  · rintro ⟨records, ⟨is, hrecordable, hbytes, rfl⟩, u, hjumps, rfl⟩
    refine ⟨is, ⟨hrecordable, hbytes, ?_⟩, rfl⟩
    intro r hr
    exact (checkJump_eq_ok_iff (Record.pairwise_placed 0 is)).mp (forM_eq_ok_iff.mp hjumps r hr)
  · rintro ⟨is, h, rfl⟩
    refine ⟨_, ⟨is, h.recordable, h.encode?_eq, rfl⟩, (), ?_, rfl⟩
    apply forM_eq_ok_iff.mpr
    intro r hr
    exact (checkJump_eq_ok_iff (Record.pairwise_placed 0 is)).mpr (h.aims r hr)

theorem inRange_of_decode (h : decode set id bytes = .ok program) :
    ∀ r ∈ program.records, r.instruction.InRange := by
  rcases decode_eq_ok_iff.mp h with ⟨is, hencodes, rfl⟩
  intro r hr
  have hmem : r.instruction ∈ is := by
    rw [← Record.map_instruction_placed 0 is]
    exact List.mem_map_of_mem (List.mem_toArray.mp hr)
  exact (hencodes.recordable _ hmem).inRange

end Program

theorem InstructionSet.exists_encode? {set : InstructionSet} {is : List Instruction}
    (h : ∀ i ∈ is, set.contains i.opcode = true) : ∃ bytes, set.encode? is = some bytes := by
  induction is with
  | nil => exact ⟨[], rfl⟩
  | cons i rest ih =>
      rcases List.forall_mem_cons.mp h with ⟨hi, hrest⟩
      rcases ih hrest with ⟨more, hmore⟩
      have hcode : set.code? i.opcode = some (UInt8.ofNat (set.opcodes.idxOf i.opcode)) :=
        if_pos (of_decide_eq_true hi)
      exact ⟨_, encode?_cons_eq_some_iff.mpr ⟨_, more, hcode, hmore, rfl⟩⟩

/-- Bytes are a program exactly if they encode a list of instructions: the opcodes
are wired, the arguments are in range and fit their records, and the jumps aim at
records or at the end.  The records are then those instructions one behind the
other, every list of wired instructions has an encoding, and no other bytes hold the
same instructions. -/
theorem decode_iff_encodes (set : InstructionSet) (id : ProgramId) :
    (∀ bytes program, Program.decode set id bytes = .ok program ↔
      ∃ is, Encodes set is bytes ∧
        program = ⟨id, bytes.toArray, (Record.placed 0 is).toArray⟩) ∧
    (∀ is : List Instruction, (∀ i ∈ is, set.contains i.opcode = true) →
      ∃ bytes, set.encode? is = some bytes) ∧
    ∀ bytes other program rival, Program.decode set id bytes = .ok program →
      Program.decode set id other = .ok rival →
      program.records.toList.map Record.instruction =
        rival.records.toList.map Record.instruction → bytes = other := by
  refine ⟨fun _ _ => Program.decode_eq_ok_iff, fun _ => InstructionSet.exists_encode?, ?_⟩
  intro bytes other program rival hprogram hrival hsame
  rcases Program.decode_eq_ok_iff.mp hprogram with ⟨is, his, rfl⟩
  rcases Program.decode_eq_ok_iff.mp hrival with ⟨js, hjs, rfl⟩
  simp only [Record.map_instruction_placed] at hsame
  have hbytes := his.encode?_eq
  rw [hsame, hjs.encode?_eq] at hbytes
  exact (Option.some.inj hbytes).symm

/-- A trade of the zero asset jumps over the salt. -/
def hopping : List Instruction :=
  [.jumpIfAsset .input .zero 40, .salt [1, 2], .solve]

theorem decode_hopping :
    ∃ bytes, InstructionSet.full.encode? hopping = some bytes ∧
      Program.decode .full .zero bytes = .ok ⟨.zero, bytes.toArray,
        #[⟨0, .jumpIfAsset .input .zero 40⟩, ⟨36, .salt [1, 2]⟩, ⟨40, .solve⟩]⟩ := by
  have hwired : ∀ i ∈ hopping, InstructionSet.full.contains i.opcode = true := by
    decide +kernel
  rcases (decode_iff_encodes .full .zero).2.1 hopping hwired with ⟨bytes, hbytes⟩
  have hrecordable : ∀ i ∈ hopping, i.Recordable := by
    simp only [hopping, List.forall_mem_cons]
    exact ⟨⟨trivial, by decide⟩, ⟨trivial, by decide⟩, ⟨trivial, by decide⟩,
      List.forall_mem_nil _⟩
  have haims : ∀ r ∈ Record.placed 0 hopping,
      r.AimsInto (Record.placed 0 hopping) bytes.length := by
    refine List.forall_mem_cons.mpr ⟨?_, List.forall_mem_cons.mpr ⟨nofun,
      List.forall_mem_cons.mpr ⟨nofun, List.forall_mem_nil _⟩⟩⟩
    rintro destination ⟨⟩
    exact ⟨Or.inr ⟨⟨40, .solve⟩, by decide +kernel, rfl⟩, fun _ => by decide⟩
  exact ⟨bytes, hbytes, ((decode_iff_encodes .full .zero).1 bytes _).mpr
    ⟨hopping, ⟨hrecordable, hbytes, haims⟩, rfl⟩⟩

end SwapPricing
