import SwapPricing.Arithmetic.Width
import SwapPricing.Order.Key
import SwapPricing.Table

/-!
# Order state

The state that outlives a run: decaying balance offsets, cumulative fills,
invalidated bits, stored balances and the progress of sales.  All of it is keyed
by the program that owns it.
-/

namespace SwapPricing

/-- A balance offset left behind by recent fills; it fades evenly. -/
structure DecayOffset where
  amount : UInt64
  updatedAt : UInt64
  deriving DecidableEq

/-- What is left of an offset after the time since its last update; nothing is
left after a whole period. -/
def DecayOffset.current (offset : DecayOffset) (now : UInt64) (period : UInt32) :
    Except MathError UInt64 :=
  let elapsed := now.toNat - offset.updatedAt.toNat
  if period = 0 ∨ period.toNat ≤ elapsed then
    .ok 0
  else do
    let product ← Arithmetic.exact (offset.amount.toNat * (period.toNat - elapsed))
    Arithmetic.word .fault (← Arithmetic.quotient product period.toNat)

/-- The progress of a sale. -/
structure SaleState where
  /-- The output sold so far. -/
  sold : UInt64
  lastFill : Option UInt64
  /-- Whether the last fill came after a gap of an illiquidity period. -/
  bumped : Bool
  deriving DecidableEq

/-- The progress of a sale that nobody has filled yet. -/
def SaleState.initial : SaleState :=
  ⟨0, none, false⟩

namespace Order

/-- The lasting state of all programs. -/
structure Store where
  offsets : Table (Owned Side) DecayOffset
  /-- The amounts filled so far. -/
  fills : Table (Owned Side) UInt64
  /-- The bits of orders that are no longer valid. -/
  bits : Table (Owned UInt32) Unit
  balances : Table (Owned AssetId) UInt64
  /-- Sales by the byte offset of their record. -/
  sales : Table (Owned UInt64) SaleState
  deriving DecidableEq

namespace Store

def empty : Store :=
  ⟨.empty, .empty, .empty, .empty, .empty⟩

def isEmpty (s : Store) : Bool :=
  s.offsets.isEmpty && s.fills.isEmpty && s.bits.isEmpty && s.balances.isEmpty && s.sales.isEmpty

/-- The number of entries. -/
def size (s : Store) : Nat :=
  s.offsets.size + s.fills.size + s.bits.size + s.balances.size + s.sales.size

/-!
# Reading
-/

def offset? (s : Store) (program : ProgramId) (side : Side) : Option DecayOffset :=
  s.offsets.find? ⟨program, side⟩

/-- The amount of `side` filled so far. -/
def filled (s : Store) (program : ProgramId) (side : Side) : UInt64 :=
  (s.fills.find? ⟨program, side⟩).getD 0

def isBitSet (s : Store) (program : ProgramId) (bit : UInt32) : Bool :=
  s.bits.contains ⟨program, bit⟩

def balance? (s : Store) (program : ProgramId) (asset : AssetId) : Option UInt64 :=
  s.balances.find? ⟨program, asset⟩

/-- The progress of the sale whose record stands at `offset`. -/
def sale? (s : Store) (program : ProgramId) (offset : UInt64) : Option SaleState :=
  s.sales.find? ⟨program, offset⟩

/-!
# Writing
-/

def setOffset (s : Store) (program : ProgramId) (side : Side) (offset : DecayOffset) : Store :=
  { s with offsets := s.offsets.insert ⟨program, side⟩ offset }

def setFilled (s : Store) (program : ProgramId) (side : Side) (total : UInt64) : Store :=
  { s with fills := s.fills.insert ⟨program, side⟩ total }

def setBit (s : Store) (program : ProgramId) (bit : UInt32) : Store :=
  { s with bits := s.bits.insert ⟨program, bit⟩ () }

def setBalance (s : Store) (program : ProgramId) (asset : AssetId) (balance : UInt64) : Store :=
  { s with balances := s.balances.insert ⟨program, asset⟩ balance }

def setSale (s : Store) (program : ProgramId) (offset : UInt64) (state : SaleState) : Store :=
  { s with sales := s.sales.insert ⟨program, offset⟩ state }

/-- Invalidates an order ahead of any fill, and says whether it was valid. -/
def invalidate (s : Store) (program : ProgramId) (bit : UInt32) : Bool × Store :=
  (!s.isBitSet program bit, s.setBit program bit)

/-- The store of some entries; of entries for one key the last counts. -/
def ofLists (offsets : List (Owned Side × DecayOffset)) (fills : List (Owned Side × UInt64))
    (bits : List (Owned UInt32 × Unit)) (balances : List (Owned AssetId × UInt64))
    (sales : List (Owned UInt64 × SaleState)) : Store :=
  ⟨.ofList offsets, .ofList fills, .ofList bits, .ofList balances, .ofList sales⟩

/-- The store with all entries of `written` put in. -/
def apply (s written : Store) : Store where
  offsets := s.offsets.union written.offsets
  fills := s.fills.union written.fills
  bits := s.bits.union written.bits
  balances := s.balances.union written.balances
  sales := s.sales.union written.sales

/-- The entries that belong to one program. -/
def ofProgram (s : Store) (program : ProgramId) : Store where
  offsets := s.offsets.filter fun key => key.program = program
  fills := s.fills.filter fun key => key.program = program
  bits := s.bits.filter fun key => key.program = program
  balances := s.balances.filter fun key => key.program = program
  sales := s.sales.filter fun key => key.program = program

/-!
# Parts of stores

A store consists of the parts that belong to programs: they answer the same, and
they are written to apart from each other.
-/

theorem find?_part {σ ν : Type} [Ord σ] [Std.LawfulEqOrd σ] (t : Table (Owned σ) ν)
    (program : ProgramId) (subject : σ) :
    (t.filter fun key => key.program = program).find? ⟨program, subject⟩ =
      t.find? ⟨program, subject⟩ := by
  rw [Table.find?_filter]
  exact if_pos (decide_eq_true rfl)

variable (s t : Store) (program : ProgramId)

theorem offset?_ofProgram (side : Side) :
    (s.ofProgram program).offset? program side = s.offset? program side :=
  find?_part s.offsets program side

theorem filled_ofProgram (side : Side) :
    (s.ofProgram program).filled program side = s.filled program side :=
  congrArg (Option.getD · 0) (find?_part s.fills program side)

theorem isBitSet_ofProgram (bit : UInt32) :
    (s.ofProgram program).isBitSet program bit = s.isBitSet program bit :=
  congrArg Option.isSome (find?_part s.bits program bit)

theorem balance?_ofProgram (asset : AssetId) :
    (s.ofProgram program).balance? program asset = s.balance? program asset :=
  find?_part s.balances program asset

theorem sale?_ofProgram (offset : UInt64) :
    (s.ofProgram program).sale? program offset = s.sale? program offset :=
  find?_part s.sales program offset

theorem ofProgram_apply :
    (s.apply t).ofProgram program = (s.ofProgram program).apply (t.ofProgram program) := by
  unfold apply ofProgram
  simp only [Table.filter_union]

theorem eq_of_parts_eq {σ ν : Type} [Ord σ] [Std.TransOrd σ] [Std.LawfulEqOrd σ]
    {t u : Table (Owned σ) ν}
    (h : ∀ program, t.filter (fun key => key.program = program) =
      u.filter fun key => key.program = program) : t = u := by
  apply Table.ext_find?
  rintro ⟨program, subject⟩
  rw [← find?_part t program subject, h, find?_part]

variable {s t}

/-- Stores with the same part for every program are equal. -/
theorem ext_ofProgram (h : ∀ program, s.ofProgram program = t.ofProgram program) : s = t := by
  have hoffsets : s.offsets = t.offsets := eq_of_parts_eq fun p => congrArg offsets (h p)
  have hfills : s.fills = t.fills := eq_of_parts_eq fun p => congrArg fills (h p)
  have hbits : s.bits = t.bits := eq_of_parts_eq fun p => congrArg bits (h p)
  have hbalances : s.balances = t.balances := eq_of_parts_eq fun p => congrArg balances (h p)
  have hsales : s.sales = t.sales := eq_of_parts_eq fun p => congrArg sales (h p)
  cases s
  cases t
  simp only [mk.injEq]
  exact ⟨hoffsets, hfills, hbits, hbalances, hsales⟩

/-!
# Reading what was written
-/

theorem isBitSet_setBit_self (s : Store) (program : ProgramId) (bit : UInt32) :
    (s.setBit program bit).isBitSet program bit = true := by
  have hwritten := Table.find?_insert_self s.bits ⟨program, bit⟩ ()
  unfold isBitSet setBit Table.contains
  rw [hwritten]
  rfl

/-- Setting a bit clears none. -/
theorem isBitSet_setBit_of_isBitSet {s : Store} {program : ProgramId} {bit : UInt32}
    (h : s.isBitSet program bit = true) (owner : ProgramId) (other : UInt32) :
    (s.setBit owner other).isBitSet program bit = true := by
  by_cases hkey : (⟨program, bit⟩ : Owned UInt32) = ⟨owner, other⟩
  · cases hkey
    exact s.isBitSet_setBit_self program bit
  · have hwritten := Table.find?_insert_of_ne s.bits hkey ()
    unfold isBitSet setBit Table.contains
    rw [hwritten]
    exact h

end Store
end Order
end SwapPricing
