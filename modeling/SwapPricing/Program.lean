import SwapPricing.Instruction.Encoding
import SwapPricing.Instruction.Listing

/-!
# Programs

A program is a string of records, each a code byte, a length byte and argument
bytes.  It is decoded as a whole before anything runs: unknown codes, truncated
records and bad arguments are refused even where no run would reach them, every
jump aims at a record or at the end, and a conditional jump only goes forward.
-/

namespace SwapPricing

/-- The size of the code byte and the length byte of a record. -/
def headerSize : Nat := 2

/-- An instruction and the offset of its record. -/
structure Record where
  offset : Nat
  instruction : Instruction
  deriving DecidableEq

namespace Record

def opcode (r : Record) : Opcode :=
  r.instruction.opcode

/-- The listed line of a record. -/
def text (r : Record) : String :=
  Operation.address r.offset ++ "  " ++ r.instruction.text

/-- The records of `bytes`, the first of which stands at `offset`. -/
def decodeAll (set : InstructionSet) (offset : Nat) (bytes : List UInt8) :
    Except DecodeError (List Record) :=
  match bytes with
  | [] => .ok []
  | [_] => .error (.truncated offset)
  | code :: size :: rest =>
      match set.opcode? code with
      | none => .error (.unknownOpcode code offset)
      | some op =>
          let arguments := rest.take size.toNat
          if arguments.length = size.toNat then do
            let instruction ← Operation.decode op offset arguments
            let more ← decodeAll set (offset + headerSize + size.toNat) (rest.drop size.toNat)
            .ok (⟨offset, instruction⟩ :: more)
          else
            .error (.truncated offset)
  termination_by bytes.length

end Record

/-- The first index from `low` on whose record does not stand in front of
`offset`, or `high` if there is no such index before `high`.  Records stand in
the order of their offsets, so every look halves what is left. -/
def lowerBound (records : Array Record) (offset low high : Nat) : Nat :=
  if low < high then
    let middle := low + (high - low) / 2
    if records[middle]?.any fun r => r.offset < offset then
      lowerBound records offset (middle + 1) high
    else
      lowerBound records offset low middle
  else
    low
  termination_by high - low

/-- Where the offsets ascend, the search for the offset of a record finds that
record. -/
theorem lowerBound_eq {records : Array Record}
    (ascending : ∀ i j (_ : i < records.size) (_ : j < records.size), i < j →
      records[i].offset < records[j].offset)
    {index : Nat} (hindex : index < records.size) {low high : Nat} (hlow : low ≤ index)
    (hhigh : index ≤ high) (hsize : high ≤ records.size) :
    lowerBound records records[index].offset low high = index := by
  fun_induction lowerBound records records[index].offset low high with
  | case1 low high hlt middle hbefore ih =>
      have hmiddle : middle < records.size := by omega
      simp only [Array.getElem?_eq_getElem hmiddle, Option.any_some, decide_eq_true_eq] at hbefore
      refine ih ?_ hhigh hsize
      rcases Nat.lt_trichotomy middle index with h | h | h
      · exact h
      · subst h
        omega
      · have := ascending index middle hindex hmiddle h
        omega
  | case2 low high hlt middle hbefore ih =>
      have hmiddle : middle < records.size := by omega
      simp only [Array.getElem?_eq_getElem hmiddle, Option.any_some, decide_eq_true_eq] at hbefore
      refine ih hlow ?_ (by omega)
      rcases Nat.lt_or_ge middle index with h | h
      · exact absurd (ascending middle index hmiddle hindex h) hbefore
      · exact h
  | case3 low high hlt => omega

/-- A decoded program. -/
structure Program where
  id : ProgramId
  bytes : Array UInt8
  records : Array Record
  deriving DecidableEq

namespace Program

/-- The number of records. -/
def size (p : Program) : Nat :=
  p.records.size

/-- The index of the record at `offset`.  The end of the program counts as one
more record. -/
def indexOf (p : Program) (offset : Nat) : Except DecodeError Nat :=
  if offset = p.bytes.size then
    .ok p.size
  else
    let index := lowerBound p.records offset 0 p.size
    if p.records[index]?.any fun r => r.offset = offset then
      .ok index
    else
      .error (.invalidJumpTarget offset)

/-- Refuses a jump off the record boundaries and a conditional jump that does
not go forward. -/
def checkJump (p : Program) (r : Record) : Except DecodeError Unit :=
  match r.instruction.target? with
  | none => .ok ()
  | some destination => do
      let _ ← p.indexOf destination.toNat
      if r.instruction.isConditional ∧ destination.toNat ≤ r.offset then
        .error (.backwardJump r.offset)
      else
        .ok ()

/-- The program that bytes hold under an instruction set. -/
def decode (set : InstructionSet) (id : ProgramId) (bytes : List UInt8) :
    Except DecodeError Program := do
  let records ← Record.decodeAll set 0 bytes
  let program : Program := ⟨id, bytes.toArray, records.toArray⟩
  records.forM program.checkJump
  .ok program

/-- One line per record. -/
def listing (p : Program) : String :=
  String.join (p.records.toList.map fun r => r.text ++ "\n")

end Program
end SwapPricing
