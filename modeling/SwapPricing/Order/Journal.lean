import SwapPricing.Order.Store

/-!
# Journals

A journal collects the writes of one run over a store that stays as it was.
Reads see the newest write first.  The writes reach the store all together, by
`Store.apply`, or not at all.
-/

namespace SwapPricing
namespace Order

/-- A store and the writes pending over it. -/
structure Journal where
  base : Store
  written : Store
  deriving DecidableEq

namespace Journal

/-- A journal over `base` with nothing written. -/
def opened (base : Store) : Journal :=
  ⟨base, .empty⟩

/-- The store with all pending writes applied. -/
def commit (j : Journal) : Store :=
  j.base.apply j.written

/-!
# Reading
-/

def offset? (j : Journal) (program : ProgramId) (side : Side) : Option DecayOffset :=
  (j.written.offset? program side).or (j.base.offset? program side)

def filled (j : Journal) (program : ProgramId) (side : Side) : UInt64 :=
  (j.written.fills.find? ⟨program, side⟩).getD (j.base.filled program side)

def isBitSet (j : Journal) (program : ProgramId) (bit : UInt32) : Bool :=
  j.written.isBitSet program bit || j.base.isBitSet program bit

def balance? (j : Journal) (program : ProgramId) (asset : AssetId) : Option UInt64 :=
  (j.written.balance? program asset).or (j.base.balance? program asset)

def sale? (j : Journal) (program : ProgramId) (offset : UInt64) : Option SaleState :=
  (j.written.sale? program offset).or (j.base.sale? program offset)

/-!
# Writing
-/

def setOffset (j : Journal) (program : ProgramId) (side : Side) (offset : DecayOffset) : Journal :=
  { j with written := j.written.setOffset program side offset }

def setFilled (j : Journal) (program : ProgramId) (side : Side) (total : UInt64) : Journal :=
  { j with written := j.written.setFilled program side total }

def setBit (j : Journal) (program : ProgramId) (bit : UInt32) : Journal :=
  { j with written := j.written.setBit program bit }

def setBalance (j : Journal) (program : ProgramId) (asset : AssetId) (balance : UInt64) :
    Journal :=
  { j with written := j.written.setBalance program asset balance }

def setSale (j : Journal) (program : ProgramId) (offset : UInt64) (state : SaleState) : Journal :=
  { j with written := j.written.setSale program offset state }

/-!
# Reading what was written
-/

variable (j : Journal) (program : ProgramId)

theorem offset?_commit (side : Side) :
    j.commit.offset? program side = j.offset? program side :=
  Table.find?_union j.base.offsets j.written.offsets ⟨program, side⟩

theorem balance?_commit (asset : AssetId) :
    j.commit.balance? program asset = j.balance? program asset :=
  Table.find?_union j.base.balances j.written.balances ⟨program, asset⟩

theorem sale?_commit (offset : UInt64) :
    j.commit.sale? program offset = j.sale? program offset :=
  Table.find?_union j.base.sales j.written.sales ⟨program, offset⟩

theorem filled_commit (side : Side) : j.commit.filled program side = j.filled program side := by
  have hunion := Table.find?_union j.base.fills j.written.fills ⟨program, side⟩
  unfold commit Store.apply filled Store.filled
  rw [hunion]
  cases j.written.fills.find? ⟨program, side⟩ <;> rfl

theorem isBitSet_commit (bit : UInt32) :
    j.commit.isBitSet program bit = j.isBitSet program bit := by
  have hunion := Table.find?_union j.base.bits j.written.bits ⟨program, bit⟩
  unfold commit Store.apply isBitSet Store.isBitSet Table.contains
  rw [hunion]
  cases j.written.bits.find? ⟨program, bit⟩ <;> rfl

theorem balance?_setBalance_self (asset : AssetId) (balance : UInt64) :
    (j.setBalance program asset balance).balance? program asset = some balance := by
  have hwritten := Table.find?_insert_self j.written.balances ⟨program, asset⟩ balance
  unfold balance? setBalance Store.balance? Store.setBalance
  rw [hwritten]
  rfl

theorem balance?_setBalance_of_ne {asset other : AssetId} (h : other ≠ asset) (balance : UInt64) :
    (j.setBalance program asset balance).balance? program other = j.balance? program other := by
  have hwritten :=
    Table.find?_insert_of_ne j.written.balances (Owned.mk_ne_mk h program) balance
  unfold balance? setBalance Store.balance? Store.setBalance
  rw [hwritten]

theorem offset?_setOffset_self (side : Side) (offset : DecayOffset) :
    (j.setOffset program side offset).offset? program side = some offset := by
  have hwritten := Table.find?_insert_self j.written.offsets ⟨program, side⟩ offset
  unfold offset? setOffset Store.offset? Store.setOffset
  rw [hwritten]
  rfl

theorem offset?_setOffset_of_ne {side other : Side} (h : other ≠ side) (offset : DecayOffset) :
    (j.setOffset program side offset).offset? program other = j.offset? program other := by
  have hwritten := Table.find?_insert_of_ne j.written.offsets (Owned.mk_ne_mk h program) offset
  unfold offset? setOffset Store.offset? Store.setOffset
  rw [hwritten]

theorem sale?_setSale_self (offset : UInt64) (state : SaleState) :
    (j.setSale program offset state).sale? program offset = some state := by
  have hwritten := Table.find?_insert_self j.written.sales ⟨program, offset⟩ state
  unfold sale? setSale Store.sale? Store.setSale
  rw [hwritten]
  rfl

theorem filled_setFilled_self (side : Side) (total : UInt64) :
    (j.setFilled program side total).filled program side = total := by
  have hwritten := Table.find?_insert_self j.written.fills ⟨program, side⟩ total
  unfold filled setFilled Store.setFilled
  rw [hwritten]
  rfl

theorem filled_setFilled_of_ne {side other : Side} (h : other ≠ side) (total : UInt64) :
    (j.setFilled program side total).filled program other = j.filled program other := by
  have hwritten := Table.find?_insert_of_ne j.written.fills (Owned.mk_ne_mk h program) total
  unfold filled setFilled Store.setFilled
  rw [hwritten]

/-- Filling more of one side lowers no fill. -/
theorem filled_le_setFilled (owner : ProgramId) (target : Side) {amount : UInt64}
    (hfit : (j.filled owner target).toNat + amount.toNat < UInt64.size) (side : Side) :
    (j.filled program side).toNat ≤
      ((j.setFilled owner target (j.filled owner target + amount)).filled program side).toNat := by
  by_cases hkey : (⟨program, side⟩ : Owned Side) = ⟨owner, target⟩
  · cases hkey
    rw [filled_setFilled_self, UInt64.toNat_add, Nat.mod_eq_of_lt hfit]
    exact Nat.le_add_right _ _
  · have hwritten := Table.find?_insert_of_ne j.written.fills hkey
      (j.filled owner target + amount)
    apply Nat.le_of_eq
    unfold filled setFilled Store.setFilled
    unfold filled at hwritten
    rw [hwritten]

theorem isBitSet_setBit_self (bit : UInt32) :
    (j.setBit program bit).isBitSet program bit = true := by
  unfold isBitSet setBit
  rw [j.written.isBitSet_setBit_self, Bool.true_or]

/-- Setting a bit clears none. -/
theorem isBitSet_setBit_of_isBitSet {bit : UInt32} (h : j.isBitSet program bit = true)
    (owner : ProgramId) (other : UInt32) : (j.setBit owner other).isBitSet program bit = true := by
  unfold isBitSet at h ⊢
  rw [Bool.or_eq_true] at h ⊢
  exact h.imp (fun hwritten => Store.isBitSet_setBit_of_isBitSet hwritten owner other) id

theorem isBitSet_setBit_of_ne {bit other : UInt32} (h : other ≠ bit) :
    (j.setBit program bit).isBitSet program other = j.isBitSet program other := by
  have hwritten := Table.find?_insert_of_ne j.written.bits (Owned.mk_ne_mk h program) ()
  unfold isBitSet setBit Store.isBitSet Store.setBit Table.contains
  rw [hwritten]

end Journal
end Order
end SwapPricing
