import Mathlib.Data.List.Forall2
import SwapPricing.Assembly
import SwapPricing.Proofs.Layout

/-!
# Assembled programs

A draft that builds gives a program with one record for each of its items, in their
order.  The records are the items themselves, with every label replaced by the offset
of the place that it was given.
-/

namespace SwapPricing

/-!
# Unique decoding
-/

/-- Instructions that fit their records are not recorded by the bytes of others that
decoding accepts. -/
theorem InstructionSet.eq_of_encode?_eq {set : InstructionSet} {is js : List Instruction}
    {bytes : List UInt8} (his : set.encode? is = some bytes) (hjs : set.encode? js = some bytes)
    (hshort : ∀ i ∈ is, i.arguments.length ≤ 255) (hrecordable : ∀ j ∈ js, j.Recordable) :
    is = js := by
  induction is generalizing js bytes with
  | nil =>
      cases his
      cases js with
      | nil => rfl
      | cons j rest =>
          rcases encode?_cons_eq_some_iff.mp hjs with ⟨code, more, -, -, hbytes⟩
          cases hbytes
  | cons i is ih =>
      rcases encode?_cons_eq_some_iff.mp his with ⟨code, more, hcode, hmore, rfl⟩
      cases js with
      | nil => cases hjs
      | cons j js =>
          rcases encode?_cons_eq_some_iff.mp hjs with ⟨code', more', hcode', hmore', hbytes⟩
          rcases List.forall_mem_cons.mp hshort with ⟨hi, hothers⟩
          rcases List.forall_mem_cons.mp hrecordable with ⟨hj, hlater⟩
          injection hbytes with hcodes hbytes
          injection hbytes with hsizes hbytes
          have hlength : i.arguments.length = j.arguments.length := by
            have hsize := congrArg UInt8.toNat hsizes
            rw [UInt8.toNat_ofNat_of_lt' (Nat.lt_succ_of_le hi),
              UInt8.toNat_ofNat_of_lt' (Nat.lt_succ_of_le hj.short)] at hsize
            exact hsize
          rcases List.append_inj hbytes hlength with ⟨harguments, hrest⟩
          have hop : i.opcode = j.opcode := by
            rw [← opcode?_eq_some_iff, hcodes, opcode?_eq_some_iff.mpr hcode'] at hcode
            exact (Option.some.inj hcode).symm
          rw [Operation.eq_of_arguments_eq hop harguments hj.inRange,
            ih hmore (hrest ▸ hmore') hothers hlater]

/-!
# Items
-/

namespace Item

/-- An item becomes an instruction by the offset that its jump aims at, if it has one. -/
theorem traverse_eq_ok_iff {item : Item} {resolve : Aim → Except AssemblyError UInt16}
    {i : Instruction} :
    item.traverse resolve pure pure = .ok i ↔
      ∃ offset, i = item.retarget (fun _ => offset) ∧
        ∀ aim, item.target? = some aim → resolve aim = .ok offset := by
  have hjump (build : UInt16 → Instruction) (aim : Aim) :
      (do return build (← resolve aim)) = (.ok i : Except AssemblyError Instruction) ↔
        ∃ offset, i = build offset ∧ ∀ aim', some aim = some aim' → resolve aim' = .ok offset := by
    simp only [bind_eq_ok_iff, pure_eq_ok_iff, Option.some.injEq, forall_eq']
    constructor
    · rintro ⟨offset, hoffset, rfl⟩
      exact ⟨offset, rfl, hoffset⟩
    · rintro ⟨offset, rfl, hoffset⟩
      exact ⟨offset, hoffset, rfl⟩
  cases item with
  | jump aim => exact hjump .jump aim
  | jumpIfAsset leg asset aim => exact hjump (.jumpIfAsset leg asset) aim
  | _ =>
      constructor
      · intro h
        cases h
        exact ⟨0, rfl, nofun⟩
      · rintro ⟨offset, rfl, -⟩
        rfl

theorem size_eq (item : Item) (offset : UInt16) :
    item.size = Operation.recordSize (item.retarget fun _ => offset) := by
  cases item with
  | jumpIfAsset leg asset aim =>
      show headerSize + (asset.bytes ++ _).length = headerSize + (asset.bytes ++ _).length
      rw [List.length_append, List.length_append]
      rfl
  | _ => rfl

/-- The size of the records of items. -/
def extent (items : List Item) : Nat :=
  (items.map Item.size).sum

theorem getElem?_offsets (start : Nat) (items : List Item) (k : Nat) :
    (offsets start items)[k]? =
      if k ≤ items.length then some (start + extent (items.take k)) else none := by
  induction items generalizing start k with
  | nil =>
      cases k with
      | zero => rfl
      | succ k => rfl
  | cons item rest ih =>
      cases k with
      | zero => rfl
      | succ k =>
          rw [offsets, List.getElem?_cons_succ, ih, List.length_cons, List.take_succ_cons]
          simp only [Nat.add_le_add_iff_right, extent, List.map_cons, List.sum_cons, Nat.add_assoc]

end Item

/-!
# Calls
-/

/-- A call that adds something to a draft. -/
inductive Call where
  | newLabel
  | place (label : Label)
  | append (item : Item)

namespace Draft

def call (d : Draft) : Call → Draft
  | .newLabel => d.newLabel.2
  | .place label => d.place label
  | .append item => d.append item

/-- The draft that calls make, one after the other. -/
def made (set : InstructionSet) (calls : List Call) : Draft :=
  calls.foldl call (empty set)

theorem made_concat (set : InstructionSet) (calls : List Call) (last : Call) :
    made set (calls ++ [last]) = (made set calls).call last :=
  List.foldl_append

/-!
# Records
-/

/-- The instruction that an item of a draft becomes. -/
def Resolves (d : Draft) (item : Item) (i : Instruction) : Prop :=
  item.traverse (d.resolve d.offsets) pure pure = .ok i

section Records

variable {d : Draft}

theorem Resolves.size_eq {item : Item} {i : Instruction} (h : d.Resolves item i) :
    i.recordSize = item.size := by
  rcases Item.traverse_eq_ok_iff.mp h with ⟨offset, rfl, -⟩
  exact (item.size_eq offset).symm

theorem Resolves.opcode_eq {item : Item} {i : Instruction} (h : d.Resolves item i) :
    i.opcode = item.opcode := by
  rcases Item.traverse_eq_ok_iff.mp h with ⟨offset, rfl, -⟩
  exact Operation.opcode_retarget _ item

theorem record_eq_ok {set : InstructionSet} {i : Instruction} {bytes : List UInt8}
    (h : record set i = .ok bytes) :
    ∃ code, set.code? i.opcode = some code ∧ i.arguments.length ≤ 255 ∧
      bytes = Operation.recorded code i := by
  unfold record at h
  split at h
  · cases h
  · rename_i code hcode
    simp only at h
    split at h
    · rename_i hshort
      exact ⟨code, hcode, Nat.le_of_lt_succ hshort, (Except.ok.inj h).symm⟩
    · cases h

theorem encodeItem_eq_ok {item : Item} {bytes : List UInt8}
    (h : d.encodeItem d.offsets item = .ok bytes) :
    ∃ i code, d.Resolves item i ∧ d.set.code? i.opcode = some code ∧ i.arguments.length ≤ 255 ∧
      bytes = Operation.recorded code i := by
  simp only [encodeItem, bind_eq_ok_iff] at h
  rcases h with ⟨i, hi, hrecord⟩
  rcases record_eq_ok hrecord with ⟨code, hcode, hshort, hbytes⟩
  exact ⟨i, code, hi, hcode, hshort, hbytes⟩

/-- The records of items are those of the instructions that they become. -/
theorem mapM_encodeItem_eq_ok {items : List Item} {records : List (List UInt8)}
    (h : items.mapM (d.encodeItem d.offsets) = .ok records) :
    ∃ is, List.Forall₂ d.Resolves items is ∧ d.set.encode? is = some records.flatten ∧
      ∀ i ∈ is, i.arguments.length ≤ 255 := by
  induction items generalizing records with
  | nil =>
      cases h
      exact ⟨[], .nil, rfl, List.forall_mem_nil _⟩
  | cons item rest ih =>
      simp only [List.mapM_cons, bind_eq_ok_iff, pure_eq_ok_iff] at h
      rcases h with ⟨bytes, hitem, more, hmore, rfl⟩
      rcases encodeItem_eq_ok hitem with ⟨i, code, hi, hcode, hshort, rfl⟩
      rcases ih hmore with ⟨is, his, hbytes, hothers⟩
      refine ⟨i :: is, .cons hi his, ?_, List.forall_mem_cons.mpr ⟨hshort, hothers⟩⟩
      exact InstructionSet.encode?_cons_eq_some_iff.mpr ⟨code, _, hcode, hbytes, rfl⟩

/-- What is built has a record for each item, in order, and jumps land in it. -/
theorem build_eq_ok {id : ProgramId} {p : Program} (h : d.build id = .ok p) :
    ∃ is, List.Forall₂ d.Resolves d.items.toList is ∧ p.Holds is ∧ p.id = id ∧
      ∀ i ∈ is, i.Recordable := by
  simp only [build, bind_eq_ok_iff] at h
  rcases h with ⟨bytes, hencode, hbuild⟩
  unfold encode at hencode
  split at hencode
  · cases hencode
  · simp only [bind_eq_ok_iff, Except.ok.injEq] at hencode
    rcases hencode with ⟨records, hrecords, rfl⟩
    rcases mapM_encodeItem_eq_ok hrecords with ⟨is, his, hbytes, hshort⟩
    split at hbuild
    · rename_i program hdecode
      cases hbuild
      rcases Program.exists_holds_of_decode hdecode with ⟨js, hjs, hholds, hid⟩
      have hsame := InstructionSet.eq_of_encode?_eq hbytes hjs.encode?_eq hshort hjs.recordable
      subst hsame
      exact ⟨is, his, hholds, hid, hjs.recordable⟩
    · cases hbuild

/-!
# Labels
-/

variable {is : List Instruction}

theorem extent_eq {items : List Item} (h : List.Forall₂ d.Resolves items is) :
    extent is = Item.extent items := by
  induction h with
  | nil => rfl
  | cons hi hrest ih =>
      rw [extent_cons, hi.size_eq, ih]
      rfl

theorem opcodes_eq {items : List Item} (h : List.Forall₂ d.Resolves items is) :
    is.map Operation.opcode = items.map Operation.opcode := by
  induction h with
  | nil => rfl
  | cons hi hrest ih => rw [List.map_cons, List.map_cons, hi.opcode_eq, ih]

/-- Every item has its instruction, at the same index. -/
theorem exists_resolved {items : List Item} (h : List.Forall₂ d.Resolves items is) {k : Nat}
    {item : Item} (hitem : items[k]? = some item) : ∃ i, is[k]? = some i ∧ d.Resolves item i := by
  rcases List.getElem?_eq_some_iff.mp hitem with ⟨hlt, rfl⟩
  have hlt' : k < is.length := h.length_eq ▸ hlt
  exact ⟨is[k], List.getElem?_eq_getElem hlt', h.get hlt hlt'⟩

theorem resolve_label_eq_ok {label : Label} {offset : UInt16}
    (h : d.resolve d.offsets (.label label) = .ok offset) :
    ∃ count ≤ d.items.toList.length, d.places[label.index]? = some (some count) ∧
      offset.toNat = Item.extent (d.items.toList.take count) := by
  unfold resolve at h
  simp only at h
  split at h
  · rename_i place hplace
    split at h
    · rename_i hlt
      rcases Option.bind_eq_some_iff.mp hplace with ⟨count, hcount, hget⟩
      have hoffsets : d.offsets[count]? = (Item.offsets 0 d.items.toList)[count]? := by
        unfold offsets
        rw [List.getElem?_toArray]
      rw [hoffsets, Item.getElem?_offsets] at hget
      split at hget
      · rename_i hle
        refine ⟨count, hle, Option.join_eq_some_iff.mp hcount, ?_⟩
        rw [← Except.ok.inj h, UInt16.toNat_ofNat_of_lt' hlt, ← Option.some.inj hget, Nat.zero_add]
      · cases hget
    · cases h
  · cases h

/-- A jump to a label aims at the record in front of which the label was placed, or at
the end. -/
theorem indexOf_of_label {p : Program} (h : List.Forall₂ d.Resolves d.items.toList is)
    (hp : p.Holds is) {label : Label} {offset : UInt16}
    (hoffset : d.resolve d.offsets (.label label) = .ok offset) :
    ∃ count, d.places[label.index]? = some (some count) ∧
      p.indexOf offset.toNat = .ok count := by
  rcases resolve_label_eq_ok hoffset with ⟨count, hle, hplace, hextent⟩
  refine ⟨count, hplace, hp.indexOf_eq_ok_iff.mpr ⟨?_, ?_⟩⟩
  · rw [← h.length_eq]
    exact hle
  · rw [hextent, extent_eq (List.forall₂_take count h)]

end Records

end Draft
end SwapPricing
