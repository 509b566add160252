import SwapPricing.Proofs.Decoding

/-!
# Layout of programs

Records stand one behind the other, so a record stands at the size of all the
records in front of it.  The offsets that a program finds an index for are just
these, and the end.
-/

namespace SwapPricing

/-- The size of the record of an instruction. -/
def Operation.recordSize (i : Instruction) : Nat :=
  headerSize + i.arguments.length

/-- The size of the records of instructions. -/
def extent (is : List Instruction) : Nat :=
  (is.map Operation.recordSize).sum

theorem extent_cons (i : Instruction) (rest : List Instruction) :
    extent (i :: rest) = i.recordSize + extent rest :=
  List.sum_cons

theorem extent_append (is js : List Instruction) : extent (is ++ js) = extent is + extent js := by
  unfold extent
  rw [List.map_append, List.sum_append]

theorem extent_perm {is js : List Instruction} (h : is.Perm js) : extent is = extent js :=
  (h.map Operation.recordSize).sum_nat

theorem recordSize_pos (i : Instruction) : 0 < i.recordSize :=
  Nat.lt_of_lt_of_le (by decide) (Nat.le_add_right headerSize i.arguments.length)

/-- A proper part in front is smaller than the whole. -/
theorem extent_take_lt {is : List Instruction} {k : Nat} (h : k < is.length) :
    extent (is.take k) < extent is := by
  have hsplit := extent_append (is.take k) (is.drop k)
  rw [List.take_append_drop, List.drop_eq_getElem_cons h, extent_cons] at hsplit
  have hpos := recordSize_pos is[k]
  omega

theorem extent_take_eq_iff {is : List Instruction} {k : Nat} (hle : k ≤ is.length) :
    extent (is.take k) = extent is ↔ k = is.length := by
  constructor
  · intro heq
    rcases Nat.lt_or_eq_of_le hle with hlt | hlength
    · exact absurd heq (Nat.ne_of_lt (extent_take_lt hlt))
    · exact hlength
  · rintro rfl
    rw [List.take_length]

/-!
# Placed records
-/

namespace Record

theorem placed_cons (offset : Nat) (i : Instruction) (rest : List Instruction) :
    placed offset (i :: rest) = ⟨offset, i⟩ :: placed (offset + i.recordSize) rest := by
  rw [placed, Operation.recordSize, Nat.add_assoc]

theorem placed_append (offset : Nat) (is js : List Instruction) :
    placed offset (is ++ js) = placed offset is ++ placed (offset + extent is) js := by
  induction is generalizing offset with
  | nil => rfl
  | cons i rest ih =>
      rw [List.cons_append, placed_cons, placed_cons, ih, extent_cons, Nat.add_assoc]
      rfl

theorem length_placed (offset : Nat) (is : List Instruction) :
    (placed offset is).length = is.length := by
  rw [← List.length_map (f := instruction), map_instruction_placed]

theorem getElem?_placed (offset : Nat) (is : List Instruction) (k : Nat) :
    (placed offset is)[k]? = is[k]?.map fun i => ⟨offset + extent (is.take k), i⟩ := by
  induction is generalizing offset k with
  | nil => rfl
  | cons i rest ih =>
      rw [placed_cons]
      cases k with
      | zero => rfl
      | succ k =>
          rw [List.getElem?_cons_succ, List.getElem?_cons_succ, ih, List.take_succ_cons,
            extent_cons, Nat.add_assoc]

/-- A record of a program stands behind all the records in front of it. -/
theorem mem_placed_iff {is : List Instruction} {r : Record} :
    r ∈ placed 0 is ↔ ∃ k i, is[k]? = some i ∧ ⟨extent (is.take k), i⟩ = r := by
  simp only [List.mem_iff_getElem?, getElem?_placed, Option.map_eq_some_iff, Nat.zero_add]

end Record

/-- Encoded instructions are as long as their records. -/
theorem length_encode? {set : InstructionSet} {is : List Instruction} {bytes : List UInt8}
    (h : set.encode? is = some bytes) : bytes.length = extent is := by
  induction is generalizing bytes with
  | nil =>
      cases h
      rfl
  | cons i rest ih =>
      rcases InstructionSet.encode?_cons_eq_some_iff.mp h with ⟨code, more, -, hmore, rfl⟩
      rw [List.length_append, ih hmore, extent_cons]
      rw [Operation.recorded, Operation.recordSize]
      simp only [List.length_cons, headerSize]
      omega

/-!
# Programs of instructions
-/

/-- The records of `p` are those of `is`, and jumps aim at them or at the end. -/
structure Program.Holds (p : Program) (is : List Instruction) : Prop where
  records : p.records = (Record.placed 0 is).toArray
  size_bytes : p.bytes.size = extent is
  lands : ∀ i ∈ is, ∀ destination, i.target? = some destination →
    ∃ k ≤ is.length, extent (is.take k) = destination.toNat

namespace Program.Holds

variable {p : Program} {is : List Instruction}

theorem getElem?_records (h : p.Holds is) (k : Nat) :
    p.records[k]? = is[k]?.map fun i => ⟨extent (is.take k), i⟩ := by
  rw [h.records, List.getElem?_toArray, Record.getElem?_placed]
  simp only [Nat.zero_add]

theorem record_eq (h : p.Holds is) {k : Nat} {r : Record} {i : Instruction}
    (hr : p.records[k]? = some r) (hi : is[k]? = some i) : r = ⟨extent (is.take k), i⟩ := by
  rw [h.getElem?_records, hi] at hr
  exact (Option.some.inj hr).symm

theorem size_eq (h : p.Holds is) : p.records.size = is.length := by
  rw [h.records, List.size_toArray, Record.length_placed]

theorem map_instruction (h : p.Holds is) : p.records.toList.map Record.instruction = is := by
  rw [h.records]
  exact Record.map_instruction_placed 0 is

theorem mem_records (h : p.Holds is) {r : Record} (hr : r ∈ p.records) : r.instruction ∈ is := by
  rw [← h.map_instruction]
  exact List.mem_map_of_mem (Array.mem_toList_iff.mpr hr)

theorem ascending (h : p.Holds is) :
    p.records.toList.Pairwise fun r other => r.offset < other.offset := by
  rw [h.records]
  exact Record.pairwise_placed 0 is

/-- An index is found for the offset of its record, and one more for the end. -/
theorem indexOf_eq_ok_iff (h : p.Holds is) {offset k : Nat} :
    p.indexOf offset = .ok k ↔ k ≤ is.length ∧ extent (is.take k) = offset := by
  by_cases hend : offset = p.bytes.size
  · unfold indexOf
    rw [if_pos hend, Except.ok.injEq, size, h.size_eq, hend, h.size_bytes]
    constructor
    · rintro rfl
      exact ⟨Nat.le_refl _, (extent_take_eq_iff (Nat.le_refl _)).mpr rfl⟩
    · rintro ⟨hle, hextent⟩
      exact ((extent_take_eq_iff hle).mp hextent).symm
  · rw [indexOf_eq_ok_iff_of_ne h.ascending hend, h.getElem?_records]
    constructor
    · rintro ⟨r, hr, hoffset⟩
      rcases Option.map_eq_some_iff.mp hr with ⟨i, hi, rfl⟩
      exact ⟨Nat.le_of_lt (List.getElem?_eq_some_iff.mp hi).1, hoffset⟩
    · rintro ⟨hle, hextent⟩
      have hlt : k < is.length := by
        refine Nat.lt_of_le_of_ne hle fun heq => hend ?_
        rw [← hextent, (extent_take_eq_iff hle).mpr heq, h.size_bytes]
      refine ⟨⟨extent (is.take k), is[k]⟩, ?_, hextent⟩
      rw [List.getElem?_eq_getElem hlt]
      rfl

end Program.Holds

/-- An encoding gives a program of its instructions. -/
theorem Encodes.holds {set : InstructionSet} {is : List Instruction} {bytes : List UInt8}
    (h : Encodes set is bytes) (id : ProgramId) :
    Program.Holds ⟨id, bytes.toArray, (Record.placed 0 is).toArray⟩ is := by
  have hlength := length_encode? h.encode?_eq
  refine ⟨rfl, ?_, ?_⟩
  · rw [List.size_toArray]
    exact hlength
  · intro i hi destination htarget
    rcases List.mem_iff_getElem?.mp hi with ⟨k, hk⟩
    have hrecord := Record.mem_placed_iff.mpr ⟨k, i, hk, rfl⟩
    rcases (h.aims _ hrecord destination htarget).1 with hend | ⟨other, hother, hoffset⟩
    · refine ⟨is.length, Nat.le_refl _, ?_⟩
      rw [List.take_length, hend, hlength]
    · rcases Record.mem_placed_iff.mp hother with ⟨j, target, hj, rfl⟩
      exact ⟨j, Nat.le_of_lt (List.getElem?_eq_some_iff.mp hj).1, hoffset⟩

/-- Instructions are a program if their jumps land. -/
theorem Encodes.of_lands {set : InstructionSet} {is : List Instruction} {bytes : List UInt8}
    (hrecordable : ∀ i ∈ is, i.Recordable) (hbytes : set.encode? is = some bytes)
    (hlands : ∀ k i, is[k]? = some i → ∀ destination, i.target? = some destination →
      (∃ j ≤ is.length, extent (is.take j) = destination.toNat) ∧
        (i.isConditional = true → extent (is.take k) < destination.toNat)) :
    Encodes set is bytes := by
  refine ⟨hrecordable, hbytes, ?_⟩
  intro r hr destination htarget
  rcases Record.mem_placed_iff.mp hr with ⟨k, i, hi, rfl⟩
  rcases hlands k i hi destination htarget with ⟨⟨j, hj, hextent⟩, hforward⟩
  refine ⟨?_, hforward⟩
  rcases Nat.lt_or_eq_of_le hj with hlt | rfl
  · have hother := Record.mem_placed_iff.mpr ⟨j, is[j], List.getElem?_eq_getElem hlt, rfl⟩
    exact Or.inr ⟨_, hother, hextent⟩
  · refine Or.inl ?_
    rw [← hextent, List.take_length, length_encode? hbytes]

theorem InstructionSet.contains_of_encode? {set : InstructionSet} {is : List Instruction}
    {bytes : List UInt8} (h : set.encode? is = some bytes) :
    ∀ i ∈ is, set.contains i.opcode = true := by
  induction is generalizing bytes with
  | nil => exact List.forall_mem_nil _
  | cons i rest ih =>
      rcases encode?_cons_eq_some_iff.mp h with ⟨code, more, hcode, hmore, -⟩
      refine List.forall_mem_cons.mpr ⟨?_, ih hmore⟩
      unfold code? at hcode
      split at hcode
      · rename_i hmem
        exact decide_eq_true hmem
      · cases hcode

theorem Program.exists_holds_of_decode {set : InstructionSet} {id : ProgramId}
    {bytes : List UInt8} {program : Program}
    (h : Program.decode set id bytes = .ok program) :
    ∃ is, Encodes set is bytes ∧ program.Holds is ∧ program.id = id := by
  rcases Program.decode_eq_ok_iff.mp h with ⟨is, hencodes, rfl⟩
  exact ⟨is, hencodes, hencodes.holds id, rfl⟩

end SwapPricing
