import Mathlib
import SwapPricing.Order.Journal

/-!
# Order state under other names

A permutation of the assets gives every key of the order state another name, and
nothing else depends on the names: what is found, written and committed under the
new names is what it was under the old ones.
-/

namespace SwapPricing

/-!
# Tables under other keys
-/

namespace Table

variable {κ ν : Type} [Ord κ]

/-- The table in which every value is replaced by its image. -/
def mapValues {μ : Type} (g : ν → μ) (t : Table κ ν) : Table κ μ where
  entries := t.entries.map fun entry => (entry.1, g entry.2)
  sorted := List.pairwise_map.mpr t.sorted

theorem lookup_map {μ : Type} (g : ν → μ) (key : κ) (entries : List (κ × ν)) :
    lookup key (entries.map fun entry => (entry.1, g entry.2)) = (lookup key entries).map g := by
  induction entries with
  | nil => rfl
  | cons entry rest ih =>
      rw [List.map_cons, lookup, lookup]
      split
      · rfl
      · exact ih

theorem find?_mapValues {μ : Type} (g : ν → μ) (t : Table κ ν) (key : κ) :
    (t.mapValues g).find? key = (t.find? key).map g :=
  lookup_map g key t.entries

variable [Std.TransOrd κ] [Std.LawfulEqOrd κ]

/-- The table in which every key is replaced by its image. -/
def rekey (f : Equiv.Perm κ) (t : Table κ ν) : Table κ ν :=
  t.entries.foldl (fun u entry => u.insert (f entry.1) entry.2) .empty

variable (f : Equiv.Perm κ) (t : Table κ ν)

theorem find?_rekey (key : κ) : (t.rekey f).find? (f key) = t.find? key := by
  have hfound := find?_foldl_insert (fun _ _ h => f.injective h) t.sorted .empty key
  exact hfound.trans Option.or_none

theorem find?_rekey_eq (key : κ) : (t.rekey f).find? key = t.find? (f.symm key) := by
  rw [← t.find?_rekey f, f.apply_symm_apply]

/-- Tables with the same value at every image of a key are equal. -/
theorem ext_image {s t : Table κ ν} (h : ∀ key, s.find? (f key) = t.find? (f key)) : s = t := by
  apply ext_find?
  intro key
  rw [← f.apply_symm_apply key]
  exact h _

theorem rekey_insert (key : κ) (value : ν) :
    (t.insert key value).rekey f = (t.rekey f).insert (f key) value := by
  apply ext_image f
  intro other
  rw [find?_rekey]
  by_cases hkey : other = key
  · rw [hkey, find?_insert_self, find?_insert_self]
  · have hne : f other ≠ f key := fun heq => hkey (f.injective heq)
    rw [find?_insert_of_ne t hkey, find?_insert_of_ne (t.rekey f) hne, find?_rekey]

theorem rekey_union (s : Table κ ν) :
    (s.union t).rekey f = (s.rekey f).union (t.rekey f) := by
  apply ext_image f
  intro key
  rw [find?_rekey, find?_union, find?_union, find?_rekey, find?_rekey]

end Table

/-!
# State of programs under other names
-/

/-- The keys that name the same state of every program by the image of its
subject. -/
def Owned.renamed {α : Type} (f : Equiv.Perm α) : Equiv.Perm (Owned α) where
  toFun key := ⟨key.program, f key.subject⟩
  invFun key := ⟨key.program, f.symm key.subject⟩
  left_inv key := by
    rcases key with ⟨program, subject⟩
    simp only [Equiv.symm_apply_apply]
  right_inv key := by
    rcases key with ⟨program, subject⟩
    simp only [Equiv.apply_symm_apply]

namespace Table

variable {α ν : Type} [Ord α] [Std.TransOrd α] [Std.LawfulEqOrd α]

/-- The state of every program under the images of its subjects. -/
def renamed (f : Equiv.Perm α) (t : Table (Owned α) ν) : Table (Owned α) ν :=
  t.rekey (Owned.renamed f)

variable (f : Equiv.Perm α) (t : Table (Owned α) ν)

theorem find?_renamed (program : ProgramId) (subject : α) :
    (t.renamed f).find? ⟨program, f subject⟩ = t.find? ⟨program, subject⟩ :=
  t.find?_rekey (Owned.renamed f) ⟨program, subject⟩

theorem renamed_insert (program : ProgramId) (subject : α) (value : ν) :
    (t.insert ⟨program, subject⟩ value).renamed f =
      (t.renamed f).insert ⟨program, f subject⟩ value :=
  t.rekey_insert (Owned.renamed f) ⟨program, subject⟩ value

theorem renamed_union (s : Table (Owned α) ν) :
    (s.union t).renamed f = (s.renamed f).union (t.renamed f) :=
  t.rekey_union (Owned.renamed f) s

end Table

/-- The sides of the renamed assets. -/
def Side.renamed (σ : Equiv.Perm AssetId) : Equiv.Perm Side where
  toFun side := ⟨σ side.asset, side.leg⟩
  invFun side := ⟨σ.symm side.asset, side.leg⟩
  left_inv side := by
    rcases side with ⟨asset, leg⟩
    simp only [Equiv.symm_apply_apply]
  right_inv side := by
    rcases side with ⟨asset, leg⟩
    simp only [Equiv.apply_symm_apply]

namespace Order

/-!
# Stores
-/

namespace Store

/-- The store with other names of the assets in its keys. -/
def renamed (σ : Equiv.Perm AssetId) (s : Store) : Store where
  offsets := s.offsets.renamed (Side.renamed σ)
  fills := s.fills.renamed (Side.renamed σ)
  bits := s.bits
  balances := s.balances.renamed σ
  sales := s.sales

variable (σ : Equiv.Perm AssetId) (s : Store) (program : ProgramId)

theorem offset?_renamed (side : Side) :
    (s.renamed σ).offset? program (Side.renamed σ side) = s.offset? program side :=
  s.offsets.find?_renamed (Side.renamed σ) program side

theorem find?_fills_renamed (side : Side) :
    (s.renamed σ).fills.find? ⟨program, Side.renamed σ side⟩ = s.fills.find? ⟨program, side⟩ :=
  s.fills.find?_renamed (Side.renamed σ) program side

theorem filled_renamed (side : Side) :
    (s.renamed σ).filled program (Side.renamed σ side) = s.filled program side :=
  congrArg (Option.getD · 0) (s.find?_fills_renamed σ program side)

theorem balance?_renamed (asset : AssetId) :
    (s.renamed σ).balance? program (σ asset) = s.balance? program asset :=
  s.balances.find?_renamed σ program asset

theorem renamed_apply (written : Store) :
    (s.apply written).renamed σ = (s.renamed σ).apply (written.renamed σ) := by
  unfold apply renamed
  simp only [Table.renamed_union]

theorem renamed_setOffset (side : Side) (offset : DecayOffset) :
    (s.setOffset program side offset).renamed σ =
      (s.renamed σ).setOffset program (Side.renamed σ side) offset := by
  have hoffsets := s.offsets.renamed_insert (Side.renamed σ) program side offset
  unfold setOffset renamed
  rw [hoffsets]

theorem renamed_setFilled (side : Side) (total : UInt64) :
    (s.setFilled program side total).renamed σ =
      (s.renamed σ).setFilled program (Side.renamed σ side) total := by
  have hfills := s.fills.renamed_insert (Side.renamed σ) program side total
  unfold setFilled renamed
  rw [hfills]

theorem renamed_setBalance (asset : AssetId) (balance : UInt64) :
    (s.setBalance program asset balance).renamed σ =
      (s.renamed σ).setBalance program (σ asset) balance := by
  have hbalances := s.balances.renamed_insert σ program asset balance
  unfold setBalance renamed
  rw [hbalances]

end Store

/-!
# Journals
-/

namespace Journal

/-- The journal with other names of the assets in all its keys. -/
def renamed (σ : Equiv.Perm AssetId) (j : Journal) : Journal :=
  ⟨j.base.renamed σ, j.written.renamed σ⟩

variable (σ : Equiv.Perm AssetId) (j : Journal) (program : ProgramId)

theorem commit_renamed : (j.renamed σ).commit = j.commit.renamed σ :=
  (j.base.renamed_apply σ j.written).symm

theorem offset?_renamed (side : Side) :
    (j.renamed σ).offset? program (Side.renamed σ side) = j.offset? program side := by
  unfold offset? renamed
  rw [Store.offset?_renamed, Store.offset?_renamed]

theorem filled_renamed (side : Side) :
    (j.renamed σ).filled program (Side.renamed σ side) = j.filled program side := by
  unfold filled renamed
  rw [Store.find?_fills_renamed, Store.filled_renamed]

theorem balance?_renamed (asset : AssetId) :
    (j.renamed σ).balance? program (σ asset) = j.balance? program asset := by
  unfold balance? renamed
  rw [Store.balance?_renamed, Store.balance?_renamed]

theorem renamed_setOffset (side : Side) (offset : DecayOffset) :
    (j.setOffset program side offset).renamed σ =
      (j.renamed σ).setOffset program (Side.renamed σ side) offset :=
  congrArg (Journal.mk (j.base.renamed σ)) (j.written.renamed_setOffset σ program side offset)

theorem renamed_setFilled (side : Side) (total : UInt64) :
    (j.setFilled program side total).renamed σ =
      (j.renamed σ).setFilled program (Side.renamed σ side) total :=
  congrArg (Journal.mk (j.base.renamed σ)) (j.written.renamed_setFilled σ program side total)

theorem renamed_setBalance (asset : AssetId) (balance : UInt64) :
    (j.setBalance program asset balance).renamed σ =
      (j.renamed σ).setBalance program (σ asset) balance :=
  congrArg (Journal.mk (j.base.renamed σ)) (j.written.renamed_setBalance σ program asset balance)

end Journal
end Order
end SwapPricing
