import SwapPricing.Order.Snapshot
import SwapPricing.Proofs.IdentifierText
import SwapPricing.Proofs.JsonText

/-!
# Saving and loading

A saved store loads as the same store.  Every row reads back as the entry it was
written for, and the rows stand in key order already.
-/

namespace SwapPricing

namespace Document
namespace Shape

theorem natural_word {size n : Nat} (h : n < size) : natural size (.word n) = some n := by
  have hn : 0 ≤ (n : Int) ∧ (n : Int) < size := by omega
  show (if 0 ≤ (n : Int) ∧ (n : Int) < size then some (n : Int).toNat else none) = some n
  rw [if_pos hn, Int.toNat_natCast]

theorem uint64_word (n : UInt64) : uint64 (.word n.toNat) = some n := by
  unfold uint64
  rw [natural_word n.toNat_lt, Option.map_some, UInt64.ofNat_toNat]

theorem uint32_word (n : UInt32) : uint32 (.word n.toNat) = some n := by
  unfold uint32
  rw [natural_word n.toNat_lt, Option.map_some, UInt32.ofNat_toNat]

theorem list_map {α : Type} {shape : Shape α} {write : α → Value}
    (h : ∀ a, shape (write a) = some a) (as : List α) :
    list shape (.list (as.map write)) = some as := by
  show (as.map write).mapM shape = some as
  induction as with
  | nil => rfl
  | cons a rest ih =>
      rw [List.map_cons, List.mapM_cons, h, ih]
      rfl

/-!
# Structures
-/

theorem distinct_of_nodup {fields : Fields} (h : (fields.map Prod.fst).Nodup) :
    distinct fields = true := by
  induction fields with
  | nil => rfl
  | cons field rest ih =>
      rw [List.map_cons, List.nodup_cons] at h
      rw [distinct, Bool.and_eq_true, List.all_eq_true]
      refine ⟨?_, ih h.2⟩
      intro other hother
      rw [bne_iff_ne]
      intro heq
      exact h.1 (heq ▸ List.mem_map_of_mem hother)

/-- A structure gives the fields of a record that has no others. -/
theorem fieldsOf_record (tolerance : Tolerance) {names : List String} {fields : Fields}
    (hnames : fields.map Prod.fst = names) (h : names.Nodup) :
    fieldsOf tolerance names (.record fields) = some fields := by
  subst hnames
  have hknown : fields.filter (fun field => (fields.map Prod.fst).contains field.1) = fields := by
    apply List.filter_eq_self.mpr
    intro field hfield
    exact List.contains_iff_mem.mpr (List.mem_map_of_mem hfield)
  unfold fieldsOf
  simp only [hknown, distinct_of_nodup h]
  rw [if_pos ⟨trivial, Or.inr trivial⟩]

variable {α : Type} (shape : Shape α) (v : Value) (fields : Fields)

theorem required_self (name : String) : required ((name, v) :: fields) name shape = shape v := by
  unfold required
  rw [List.lookup_cons_self]
  rfl

theorem required_of_ne {name other : String} (h : name ≠ other) :
    required ((other, v) :: fields) name shape = required fields name shape := by
  unfold required
  rw [List.lookup_cons, beq_eq_false_iff_ne.mpr h]

theorem defaulted_self (name : String) (value : α) :
    defaulted ((name, v) :: fields) name shape value = shape v := by
  unfold defaulted
  rw [List.lookup_cons_self]

theorem defaulted_of_ne {name other : String} (h : name ≠ other) (value : α) :
    defaulted ((other, v) :: fields) name shape value = defaulted fields name shape value := by
  unfold defaulted
  rw [List.lookup_cons, beq_eq_false_iff_ne.mpr h]

end Shape
end Document

namespace Order

open Document (Value Shape)

theorem identifier_idValue {kind : IdentifierKind} (id : Identifier kind) :
    Shape.identifier (idValue id) = some id := by
  show (Identifier.parse id.text).toOption = some id
  rw [Identifier.parse_text]
  rfl

theorem legShape_name (leg : Leg) : legShape (.text leg.name) = some leg := by
  cases leg <;> rfl

theorem offsetShape_offsetRow (entry : Owned Side × DecayOffset) :
    offsetShape (offsetRow entry) = some entry := by
  unfold offsetShape offsetRow
  rw [Shape.fieldsOf_record rows (by rfl) (by decide)]
  simp [sideFields, Shape.required_self, Shape.required_of_ne, identifier_idValue, legShape_name,
    Shape.uint64_word]

theorem fillShape_fillRow (entry : Owned Side × UInt64) :
    fillShape (fillRow entry) = some entry := by
  unfold fillShape fillRow
  rw [Shape.fieldsOf_record rows (by rfl) (by decide)]
  simp [sideFields, Shape.required_self, Shape.required_of_ne, identifier_idValue, legShape_name,
    Shape.uint64_word]

theorem bitShape_bitRow (entry : Owned UInt32 × Unit) : bitShape (bitRow entry) = some entry := by
  unfold bitShape bitRow
  rw [Shape.fieldsOf_record rows (by rfl) (by decide)]
  simp [Shape.required_self, Shape.required_of_ne, identifier_idValue, Shape.uint32_word]

theorem balanceShape_balanceRow (entry : Owned AssetId × UInt64) :
    balanceShape (balanceRow entry) = some entry := by
  unfold balanceShape balanceRow
  rw [Shape.fieldsOf_record rows (by rfl) (by decide)]
  simp [Shape.required_self, Shape.required_of_ne, identifier_idValue, Shape.uint64_word]

theorem nullable_ofOption (time : Option UInt64) :
    Shape.nullable Shape.uint64 (.ofOption (time.map fun t => .word t.toNat)) = some time := by
  cases time with
  | none => rfl
  | some t =>
      show (Shape.uint64 (.word t.toNat)).map some = some (some t)
      rw [Shape.uint64_word]
      rfl

theorem isWhole_saleRow (entry : Owned UInt64 × SaleState) : isWhole (saleRow entry) = true := by
  rcases entry with ⟨⟨program, offset⟩, ⟨sold, lastFill, bumped⟩⟩
  cases lastFill with
  | none => rfl
  | some t => rfl

theorem saleShape_saleRow (entry : Owned UInt64 × SaleState) :
    saleShape (saleRow entry) = some entry := by
  have hwhole := isWhole_saleRow entry
  unfold saleRow at hwhole
  unfold saleShape saleRow
  simp only [hwhole, if_true]
  rw [Shape.fieldsOf_record rows (by rfl) (by decide)]
  simp [saleFields, saleStateShape, Shape.required_self, Shape.required_of_ne,
    Shape.defaulted_self, Shape.defaulted_of_ne, identifier_idValue, Shape.uint64_word,
    nullable_ofOption, Shape.bool]

namespace Store

theorem ofLists_entries (s : Store) :
    ofLists s.offsets.entries s.fills.entries s.bits.entries s.balances.entries s.sales.entries =
      s := by
  unfold ofLists
  rw [Table.ofList_entries, Table.ofList_entries, Table.ofList_entries, Table.ofList_entries,
    Table.ofList_entries]

theorem ofValue?_toValue (s : Store) : ofValue? s.toValue = some s := by
  unfold ofValue? toValue
  rw [Shape.fieldsOf_record rows (by rfl) (by decide)]
  simp [Shape.defaulted_self, Shape.defaulted_of_ne, Shape.list_map offsetShape_offsetRow,
    Shape.list_map fillShape_fillRow, Shape.list_map bitShape_bitRow,
    Shape.list_map balanceShape_balanceRow, Shape.list_map saleShape_saleRow, ofLists_entries]

end Store

/-!
# The written document
-/

-- The equations of these are derived here, and not by each proof that is the first to
-- need them.
attribute [local simp] Value.isPlain Value.itemsPlain Value.fieldsPlain

theorem isPlain_word {n : Nat} (h : n < UInt64.size) : (Value.word n).isPlain = true := by
  rw [Value.word, Value.isPlain, decide_eq_true_eq]
  omega

theorem isPlain_uint64 (n : UInt64) : (Value.word n.toNat).isPlain = true :=
  isPlain_word n.toNat_lt

theorem isPlain_uint32 (n : UInt32) : (Value.word n.toNat).isPlain = true :=
  isPlain_word (Nat.lt_trans n.toNat_lt (by simp [UInt64.size]))

theorem itemsPlain_map {α : Type} {write : α → Value} (h : ∀ a, (write a).isPlain = true)
    (as : List α) : Value.itemsPlain (as.map write) = true := by
  induction as with
  | nil => rfl
  | cons a rest ih => rw [List.map_cons, Value.itemsPlain, h, ih, Bool.and_self]

theorem isPlain_offsetRow (entry : Owned Side × DecayOffset) :
    (offsetRow entry).isPlain = true := by
  simp [offsetRow, sideFields, Value.isPlain, Value.fieldsPlain, idValue, isPlain_uint64]

theorem isPlain_fillRow (entry : Owned Side × UInt64) : (fillRow entry).isPlain = true := by
  simp [fillRow, sideFields, Value.isPlain, Value.fieldsPlain, idValue, isPlain_uint64]

theorem isPlain_bitRow (entry : Owned UInt32 × Unit) : (bitRow entry).isPlain = true := by
  simp [bitRow, Value.isPlain, Value.fieldsPlain, idValue, isPlain_uint32]

theorem isPlain_balanceRow (entry : Owned AssetId × UInt64) :
    (balanceRow entry).isPlain = true := by
  simp [balanceRow, Value.isPlain, Value.fieldsPlain, idValue, isPlain_uint64]

theorem isPlain_ofOption (time : Option UInt64) :
    (Value.ofOption (time.map fun t => .word t.toNat)).isPlain = true := by
  cases time with
  | none => rfl
  | some t => exact isPlain_uint64 t

theorem isPlain_saleRow (entry : Owned UInt64 × SaleState) : (saleRow entry).isPlain = true := by
  simp [saleRow, saleFields, Value.isPlain, Value.fieldsPlain, idValue, isPlain_uint64,
    isPlain_ofOption]

namespace Store

theorem isPlain_toValue (s : Store) : s.toValue.isPlain = true := by
  simp [toValue, Value.isPlain, Value.fieldsPlain, itemsPlain_map isPlain_offsetRow,
    itemsPlain_map isPlain_fillRow, itemsPlain_map isPlain_bitRow,
    itemsPlain_map isPlain_balanceRow, itemsPlain_map isPlain_saleRow]

/-- A saved store loads as that store. -/
theorem load?_save (s : Store) : load? s.save = some s := by
  unfold load? save
  rw [Document.Json.parse?_pretty s.isPlain_toValue]
  exact s.ofValue?_toValue

end Store
end Order
end SwapPricing
