import SwapPricing.Program

/-!
# Assembly

A draft is a program in which jumps aim at labels.  A label is created first
and placed later, before the next instruction or at the end.  Every jump has
the same size whatever it aims at, so all offsets are known before any label is
resolved.
-/

namespace SwapPricing

/-- A place in a draft, numbered in the order of creation. -/
structure Label where
  index : Nat
  deriving DecidableEq, Repr

/-- Why a draft gives no program. -/
inductive AssemblyError where
  | unresolvedLabel (label : Nat)
  | duplicateLabel (label : Nat)
  | opcodeNotInSet (op : Opcode)
  | argumentsTooLong (op : Opcode) (size : Nat)
  | programTooLong (offset : Nat)
  | malformed (reason : DecodeError)
  deriving DecidableEq, Repr

def AssemblyError.message : AssemblyError → String
  | unresolvedLabel label => s!"label {label} was never placed"
  | duplicateLabel label => s!"label {label} placed twice"
  | opcodeNotInSet op => s!"{op.mnemonic} is not wired into this instruction set"
  | argumentsTooLong op size => s!"{op.mnemonic} arguments are {size} bytes, max 255"
  | programTooLong offset => s!"program offset {offset} does not fit a u16 jump target"
  | malformed reason => reason.message

/-- What a jump of a draft aims at. -/
inductive Aim where
  | offset (offset : UInt16)
  | label (label : Label)
  deriving DecidableEq

/-- An instruction of a draft. -/
abbrev Item := Operation Aim Entries (List UInt8)

/-- An instruction of a program as an instruction of a draft. -/
def Item.ofInstruction (i : Instruction) : Item :=
  i.retarget Aim.offset

/-- The size of the record of an item. -/
def Item.size (item : Item) : Nat :=
  headerSize + (Operation.arguments (item.retarget fun _ => 0)).length

/-- The offsets of items that follow one another, the first of which stands at
`offset`, and last the offset behind them all. -/
def Item.offsets (offset : Nat) : List Item → List Nat
  | [] => [offset]
  | item :: rest => offset :: offsets (offset + item.size) rest

/-- A program under construction. -/
structure Draft where
  set : InstructionSet
  items : Array Item
  /-- For each label the number of items it was placed behind. -/
  places : Array (Option Nat)
  /-- The first misuse of a label. -/
  fault : Option AssemblyError

namespace Draft

/-!
# Construction
-/

def empty (set : InstructionSet) : Draft :=
  ⟨set, #[], #[], none⟩

/-- A new label, not yet placed. -/
def newLabel (d : Draft) : Label × Draft :=
  (⟨d.places.size⟩, { d with places := d.places.push none })

/-- Adds an item at the end. -/
def append (d : Draft) (item : Item) : Draft :=
  { d with items := d.items.push item }

def fail (d : Draft) (e : AssemblyError) : Draft :=
  { d with fault := d.fault.or (some e) }

/-- Places a label before the next item. -/
def place (d : Draft) (label : Label) : Draft :=
  match d.places[label.index]? with
  | some none => { d with places := d.places.setIfInBounds label.index (some d.items.size) }
  | some (some _) => d.fail (.duplicateLabel label.index)
  | none => d.fail (.unresolvedLabel label.index)

/-!
# Encoding
-/

/-- The offsets of the items, and of the end of the program. -/
def offsets (d : Draft) : Array Nat :=
  (Item.offsets 0 d.items.toList).toArray

/-- The offset of a label among the offsets of the items, if it was placed. -/
def offset? (d : Draft) (offsets : Array Nat) (label : Label) : Option Nat := do
  let count ← (d.places[label.index]?).join
  offsets[count]?

/-- The offset that a jump aims at. -/
def resolve (d : Draft) (offsets : Array Nat) : Aim → Except AssemblyError UInt16
  | .offset offset => .ok offset
  | .label label =>
      match d.offset? offsets label with
      | some offset =>
          if offset < UInt16.size then .ok (UInt16.ofNat offset)
          else .error (.programTooLong offset)
      | none => .error (.unresolvedLabel label.index)

/-- The record of an instruction. -/
def record (set : InstructionSet) (i : Instruction) : Except AssemblyError (List UInt8) :=
  match set.code? i.opcode with
  | none => .error (.opcodeNotInSet i.opcode)
  | some code =>
      let arguments := i.arguments
      if arguments.length < 256 then
        .ok (code :: UInt8.ofNat arguments.length :: arguments)
      else
        .error (.argumentsTooLong i.opcode arguments.length)

/-- The record of an item. -/
def encodeItem (d : Draft) (offsets : Array Nat) (item : Item) :
    Except AssemblyError (List UInt8) := do
  record d.set (← item.traverse (d.resolve offsets) pure pure)

/-- The bytes of the program. -/
def encode (d : Draft) : Except AssemblyError (List UInt8) :=
  match d.fault with
  | some e => .error e
  | none => do
      let records ← d.items.toList.mapM (d.encodeItem d.offsets)
      .ok records.flatten

/-- The program itself, decoded and checked. -/
def build (d : Draft) (id : ProgramId) : Except AssemblyError Program := do
  let bytes ← d.encode
  match Program.decode d.set id bytes with
  | .ok program => .ok program
  | .error reason => .error (.malformed reason)

end Draft
end SwapPricing
