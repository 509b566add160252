import Mathlib
import SwapPricing.Proofs.Drafts

/-!
# What calls assemble

A draft is made by calls that create labels, place them and add items.  The calls
alone say what becomes of it: which items it has, where each label stands, and
whether it can be encoded at all.
-/

namespace SwapPricing

/-!
# Sequences of calls
-/

namespace Call

def item? : Call → Option Item
  | append item => some item
  | _ => none

def isNewLabel : Call → Bool
  | newLabel => true
  | _ => false

end Call

/-- The items that calls add, in order. -/
def pushed (calls : List Call) : List Item :=
  calls.filterMap Call.item?

/-- The number of labels that calls create. -/
def created (calls : List Call) : Nat :=
  calls.countP Call.isNewLabel

/-- Some call places a label that was placed in front of it, or was not created
in front of it. -/
def Misplaced (calls : List Call) : Prop :=
  ∃ front label back, calls = front ++ .place label :: back ∧
    (.place label ∈ front ∨ created front ≤ label.index)

/-- The label is placed behind `count` items. -/
def PlacedBehind (calls : List Call) (label : Label) (count : Nat) : Prop :=
  ∃ front back, calls = front ++ .place label :: back ∧ (pushed front).length = count

/-- Some jump aims at the label. -/
def Uses (calls : List Call) (label : Label) : Prop :=
  ∃ item ∈ pushed calls, item.target? = some (.label label)

theorem pushed_append (calls more : List Call) : pushed (calls ++ more) = pushed calls ++ pushed more :=
  List.filterMap_append

theorem created_append (calls more : List Call) :
    created (calls ++ more) = created calls + created more :=
  List.countP_append

/-- A call in a sequence with one more call is one of the sequence, or the last. -/
theorem concat_eq_append_cons_iff {α : Type} {l front back : List α} {a last : α} :
    l ++ [last] = front ++ a :: back ↔
      (∃ rest, back = rest ++ [last] ∧ l = front ++ a :: rest) ∨
        back = [] ∧ l = front ∧ last = a := by
  rcases List.eq_nil_or_concat back with rfl | ⟨rest, other, rfl⟩
  · constructor
    · intro h
      rcases List.append_inj' h rfl with ⟨hfront, hlast⟩
      exact Or.inr ⟨rfl, hfront, List.head_eq_of_cons_eq hlast⟩
    · rintro (⟨rest, hnil, -⟩ | ⟨-, rfl, rfl⟩)
      · exact absurd hnil.symm (List.append_ne_nil_of_right_ne_nil rest (List.cons_ne_nil _ _))
      · rfl
  · rw [List.concat_eq_append, ← List.cons_append, ← List.append_assoc]
    constructor
    · intro h
      rcases List.append_inj' h rfl with ⟨hfront, hlast⟩
      rw [List.head_eq_of_cons_eq hlast]
      exact Or.inl ⟨rest, rfl, hfront⟩
    · rintro (⟨more, hback, rfl⟩ | ⟨hnil, -⟩)
      · rcases List.append_inj' hback rfl with ⟨rfl, hlast⟩
        rw [hlast]
      · exact absurd hnil (List.append_ne_nil_of_right_ne_nil rest (List.cons_ne_nil _ _))

theorem misplaced_concat_iff {calls : List Call} {last : Call} :
    Misplaced (calls ++ [last]) ↔
      Misplaced calls ∨
        ∃ label, last = .place label ∧ (.place label ∈ calls ∨ created calls ≤ label.index) := by
  unfold Misplaced
  simp only [concat_eq_append_cons_iff]
  constructor
  · rintro ⟨front, label, back, ⟨rest, -, hcalls⟩ | ⟨-, rfl, hlast⟩, h⟩
    · exact Or.inl ⟨front, label, rest, hcalls, h⟩
    · exact Or.inr ⟨label, hlast, h⟩
  · rintro (⟨front, label, rest, hcalls, h⟩ | ⟨label, hlast, h⟩)
    · exact ⟨front, label, rest ++ [last], Or.inl ⟨rest, rfl, hcalls⟩, h⟩
    · exact ⟨calls, label, [], Or.inr ⟨rfl, rfl, hlast⟩, h⟩

theorem placedBehind_concat_iff {calls : List Call} {last : Call} {label : Label} {count : Nat} :
    PlacedBehind (calls ++ [last]) label count ↔
      PlacedBehind calls label count ∨ last = .place label ∧ (pushed calls).length = count := by
  unfold PlacedBehind
  simp only [concat_eq_append_cons_iff]
  constructor
  · rintro ⟨front, back, ⟨rest, -, hcalls⟩ | ⟨-, rfl, hlast⟩, h⟩
    · exact Or.inl ⟨front, rest, hcalls, h⟩
    · exact Or.inr ⟨hlast, h⟩
  · rintro (⟨front, rest, hcalls, h⟩ | ⟨hlast, h⟩)
    · exact ⟨front, rest ++ [last], Or.inl ⟨rest, rfl, hcalls⟩, h⟩
    · exact ⟨calls, [], Or.inr ⟨rfl, rfl, hlast⟩, h⟩

theorem mem_iff_exists_placedBehind {calls : List Call} {label : Label} :
    .place label ∈ calls ↔ ∃ count, PlacedBehind calls label count := by
  rw [List.mem_iff_append]
  constructor
  · rintro ⟨front, back, h⟩
    exact ⟨(pushed front).length, front, back, h, rfl⟩
  · rintro ⟨count, front, back, h, -⟩
    exact ⟨front, back, h⟩

/-- The size of the arguments of an item, whatever its jump aims at. -/
def Item.argumentSize (item : Item) : Nat :=
  (Operation.arguments (item.retarget fun _ => 0)).length

/-!
# The draft of calls
-/

namespace Draft

/-- What a draft keeps of the calls that made it. -/
structure MadeBy (calls : List Call) (d : Draft) : Prop where
  items : d.items.toList = pushed calls
  size_places : d.places.size = created calls
  fault : d.fault = none ↔ ¬ Misplaced calls
  places : d.fault = none → ∀ (label : Label) (count : Nat),
    d.places[label.index]? = some (some count) ↔ PlacedBehind calls label count

namespace MadeBy

variable {calls : List Call} {d : Draft}

theorem empty (set : InstructionSet) : MadeBy [] (Draft.empty set) where
  items := rfl
  size_places := rfl
  fault := by
    constructor
    · rintro - ⟨front, label, back, h, -⟩
      exact List.append_ne_nil_of_right_ne_nil front (List.cons_ne_nil _ _) h.symm
    · intro _
      rfl
  places := by
    intro _ label count
    constructor
    · intro h
      cases h
    · rintro ⟨front, back, h, -⟩
      exact absurd h.symm (List.append_ne_nil_of_right_ne_nil front (List.cons_ne_nil _ _))

theorem append (h : MadeBy calls d) (item : Item) :
    MadeBy (calls ++ [.append item]) (d.append item) where
  items := by
    unfold Draft.append
    rw [Array.toList_push, h.items, pushed_append]
    rfl
  size_places := by
    rw [created_append]
    exact h.size_places
  fault := by
    rw [misplaced_concat_iff]
    simp only [reduceCtorEq, false_and, exists_false, or_false]
    exact h.fault
  places := by
    intro hfault label count
    rw [placedBehind_concat_iff]
    simp only [reduceCtorEq, false_and, or_false]
    exact h.places hfault label count

theorem newLabel (h : MadeBy calls d) : MadeBy (calls ++ [.newLabel]) d.newLabel.2 where
  items := by
    rw [pushed_append]
    exact h.items.trans (List.append_nil _).symm
  size_places := by
    unfold Draft.newLabel
    rw [Array.size_push, h.size_places, created_append]
    rfl
  fault := by
    rw [misplaced_concat_iff]
    simp only [reduceCtorEq, false_and, exists_false, or_false]
    exact h.fault
  places := by
    intro hfault label count
    rw [placedBehind_concat_iff]
    simp only [reduceCtorEq, false_and, or_false]
    rw [← h.places hfault label count]
    unfold Draft.newLabel
    simp only
    rw [Array.getElem?_push]
    split
    · rename_i hlast
      rw [hlast, Array.getElem?_size]
      simp
    · rfl

theorem fail (h : MadeBy calls d) {label : Label} (e : AssemblyError)
    (hbad : d.fault = none → .place label ∈ calls ∨ created calls ≤ label.index) :
    MadeBy (calls ++ [.place label]) (d.fail e) where
  items := by
    rw [pushed_append]
    exact h.items.trans (List.append_nil _).symm
  size_places := by
    rw [created_append]
    exact h.size_places
  fault := by
    rw [misplaced_concat_iff]
    have hfault : (d.fail e).fault ≠ none := by
      unfold Draft.fail
      cases d.fault <;> exact nofun
    have hmisplaced : Misplaced calls ∨ ∃ other, Call.place label = .place other ∧
        (.place other ∈ calls ∨ created calls ≤ other.index) := by
      by_cases hnone : d.fault = none
      · exact Or.inr ⟨label, rfl, hbad hnone⟩
      · exact Or.inl (not_not.mp fun hnot => hnone (h.fault.mpr hnot))
    exact ⟨fun hnone => absurd hnone hfault, fun hnot => absurd hmisplaced hnot⟩
  places := by
    intro hfault
    unfold Draft.fail at hfault
    cases hd : d.fault with
    | none =>
        rw [hd] at hfault
        cases hfault
    | some first =>
        rw [hd] at hfault
        cases hfault

/-- A label whose place is open was created, and no call placed it. -/
theorem not_mem_of_open (h : MadeBy calls d) {label : Label}
    (hopen : d.places[label.index]? = some none) (hfault : d.fault = none) :
    .place label ∉ calls := by
  intro hmem
  rcases mem_iff_exists_placedBehind.mp hmem with ⟨count, hbehind⟩
  rw [(h.places hfault label count).mpr hbehind] at hopen
  cases hopen

theorem placeOpen (h : MadeBy calls d) {label : Label}
    (hopen : d.places[label.index]? = some none) :
    MadeBy (calls ++ [.place label])
      { d with places := d.places.setIfInBounds label.index (some d.items.size) } where
  items := by
    rw [pushed_append]
    exact h.items.trans (List.append_nil _).symm
  size_places := by
    rw [created_append]
    exact (Array.size_setIfInBounds ..).trans h.size_places
  fault := by
    rcases Array.getElem?_eq_some_iff.mp hopen with ⟨hlt, -⟩
    show d.fault = none ↔ _
    rw [misplaced_concat_iff, not_or, ← h.fault]
    constructor
    · intro hfault
      constructor
      · exact hfault
      · rintro ⟨other, ⟨⟩, hmem | hle⟩
        · exact h.not_mem_of_open hopen hfault hmem
        · rw [← h.size_places] at hle
          exact Nat.not_lt_of_le hle hlt
    · exact And.left
  places := by
    intro hfault other count
    have hfault : d.fault = none := hfault
    have hsize : d.items.size = (pushed calls).length := by
      rw [← h.items, Array.length_toList]
    rcases Array.getElem?_eq_some_iff.mp hopen with ⟨hlt, -⟩
    rw [placedBehind_concat_iff, ← h.places hfault other count]
    show (d.places.setIfInBounds label.index (some d.items.size))[other.index]? = _ ↔ _
    rw [Array.getElem?_setIfInBounds]
    by_cases hlabel : label = other
    · subst hlabel
      rw [if_pos rfl, if_pos hlt, hopen, hsize]
      simp
    · have hindex : label.index ≠ other.index := fun heq => hlabel (congrArg Label.mk heq)
      rw [if_neg hindex]
      simp only [Call.place.injEq, hlabel, false_and, or_false]

theorem place (h : MadeBy calls d) (label : Label) :
    MadeBy (calls ++ [.place label]) (d.place label) := by
  unfold Draft.place
  cases hplace : d.places[label.index]? with
  | none =>
      apply h.fail
      intro _
      rw [← h.size_places]
      exact Or.inr (Array.getElem?_eq_none_iff.mp hplace)
  | some state =>
      cases state with
      | none => exact h.placeOpen hplace
      | some count =>
          apply h.fail
          intro hfault
          have hbehind := (h.places hfault label count).mp hplace
          exact Or.inl (mem_iff_exists_placedBehind.mpr ⟨count, hbehind⟩)

theorem call (h : MadeBy calls d) (last : Call) : MadeBy (calls ++ [last]) (d.call last) := by
  cases last with
  | newLabel => exact h.newLabel
  | place label => exact h.place label
  | append item => exact h.append item

end MadeBy

theorem madeBy_made (set : InstructionSet) (calls : List Call) : MadeBy calls (made set calls) := by
  induction calls using List.reverseRecOn with
  | nil => exact .empty set
  | append_singleton calls last ih =>
      rw [made_concat]
      exact ih.call last

theorem set_made (set : InstructionSet) (calls : List Call) : (made set calls).set = set := by
  induction calls using List.reverseRecOn with
  | nil => rfl
  | append_singleton calls last ih =>
      rw [made_concat]
      cases last with
      | place label =>
          show ((made set calls).place label).set = set
          unfold Draft.place
          split
          · exact ih
          · exact ih
          · exact ih
      | _ => exact ih

/-!
# When a draft can be encoded
-/

theorem exists_mapM_iff {ε α β : Type} {f : α → Except ε β} {l : List α} :
    (∃ bs, l.mapM f = .ok bs) ↔ ∀ a ∈ l, ∃ b, f a = .ok b := by
  induction l with
  | nil =>
      constructor
      · intro _
        exact List.forall_mem_nil _
      · intro _
        exact ⟨[], rfl⟩
  | cons a rest ih =>
      rw [List.forall_mem_cons, ← ih]
      simp only [List.mapM_cons, bind_eq_ok_iff, pure_eq_ok_iff]
      constructor
      · rintro ⟨-, b, hb, bs, hbs, rfl⟩
        exact ⟨⟨b, hb⟩, bs, hbs⟩
      · rintro ⟨⟨b, hb⟩, bs, hbs⟩
        exact ⟨b :: bs, b, hb, bs, hbs, rfl⟩

theorem exists_record_iff {set : InstructionSet} {i : Instruction} :
    (∃ bytes, record set i = .ok bytes) ↔
      set.contains i.opcode = true ∧ i.arguments.length ≤ 255 := by
  constructor
  · rintro ⟨bytes, h⟩
    rcases record_eq_ok h with ⟨code, hcode, hshort, -⟩
    unfold InstructionSet.code? at hcode
    split at hcode
    · rename_i hwired
      exact ⟨decide_eq_true hwired, hshort⟩
    · cases hcode
  · rintro ⟨hwired, hshort⟩
    have hcode : set.code? i.opcode = some _ := if_pos (of_decide_eq_true hwired)
    unfold record
    rw [hcode]
    exact ⟨_, if_pos (Nat.lt_succ_of_le hshort)⟩

section Encoding

variable {calls : List Call} {d : Draft} {item : Item} {label : Label}

theorem exists_resolves_iff :
    (∃ i, d.Resolves item i) ↔
      ∀ aim, item.target? = some aim → ∃ offset, d.resolve d.offsets aim = .ok offset := by
  unfold Resolves
  simp only [Item.traverse_eq_ok_iff]
  constructor
  · rintro ⟨-, offset, -, h⟩ aim haim
    exact ⟨offset, h aim haim⟩
  · intro h
    cases htarget : item.target? with
    | none => exact ⟨_, 0, rfl, nofun⟩
    | some aim =>
        rcases h aim htarget with ⟨offset, hoffset⟩
        refine ⟨_, offset, rfl, ?_⟩
        rintro other ⟨⟩
        exact hoffset

/-- An item can be encoded if its jump finds an offset, its opcode is wired, and its
arguments are counted by a byte. -/
theorem exists_encodeItem_iff :
    (∃ bytes, d.encodeItem d.offsets item = .ok bytes) ↔
      (∀ aim, item.target? = some aim → ∃ offset, d.resolve d.offsets aim = .ok offset) ∧
        d.set.contains item.opcode = true ∧ item.argumentSize ≤ 255 := by
  rw [← exists_resolves_iff]
  have hrecord {i : Instruction} (hi : d.Resolves item i) :
      (∃ bytes, record d.set i = .ok bytes) ↔
        d.set.contains item.opcode = true ∧ item.argumentSize ≤ 255 := by
    have hsize : i.arguments.length = item.argumentSize :=
      Nat.add_left_cancel (show headerSize + _ = headerSize + _ from hi.size_eq)
    rw [exists_record_iff, hi.opcode_eq, hsize]
  unfold encodeItem
  simp only [bind_eq_ok_iff]
  constructor
  · rintro ⟨bytes, i, hi, hbytes⟩
    exact ⟨⟨i, hi⟩, (hrecord hi).mp ⟨bytes, hbytes⟩⟩
  · rintro ⟨⟨i, hi⟩, h⟩
    rcases (hrecord hi).mpr h with ⟨bytes, hbytes⟩
    exact ⟨bytes, i, hi, hbytes⟩

theorem exists_encode_iff :
    (∃ bytes, d.encode = .ok bytes) ↔
      d.fault = none ∧ ∀ item ∈ d.items.toList, ∃ bytes, d.encodeItem d.offsets item = .ok bytes := by
  rw [← exists_mapM_iff]
  unfold encode
  cases d.fault with
  | some first =>
      constructor
      · rintro ⟨bytes, h⟩
        cases h
      · rintro ⟨h, -⟩
        cases h
  | none =>
      simp only [bind_eq_ok_iff, Except.ok.injEq, true_and]
      constructor
      · rintro ⟨-, records, h, -⟩
        exact ⟨records, h⟩
      · rintro ⟨records, h⟩
        exact ⟨records.flatten, records, h, rfl⟩

/-!
# Where labels stand
-/

theorem take_pushed (front back : List Call) :
    (pushed (front ++ back)).take (pushed front).length = pushed front := by
  rw [pushed_append, List.take_left]

/-- A label has the offset of the place where a call puts it. -/
theorem MadeBy.offset?_eq (h : MadeBy calls d) (hfault : d.fault = none) {front back : List Call}
    (hcalls : calls = front ++ .place label :: back) :
    d.offset? d.offsets label = some (Item.extent (pushed front)) := by
  have hplace : d.places[label.index]? = some (some (pushed front).length) :=
    (h.places hfault label _).mpr ⟨front, back, hcalls, rfl⟩
  have hle : (pushed front).length ≤ (pushed calls).length := by
    rw [hcalls, pushed_append, List.length_append]
    exact Nat.le_add_right _ _
  unfold offset? offsets
  rw [hplace, h.items]
  show (Item.offsets 0 (pushed calls)).toArray[(pushed front).length]? = _
  rw [List.getElem?_toArray, Item.getElem?_offsets, if_pos hle, Nat.zero_add, hcalls, take_pushed]

theorem MadeBy.offset?_eq_none (h : MadeBy calls d) (hfault : d.fault = none)
    (hunplaced : .place label ∉ calls) : d.offset? d.offsets label = none := by
  unfold offset?
  cases hplace : d.places[label.index]? with
  | none => rfl
  | some state =>
      cases state with
      | none => rfl
      | some count =>
          have hbehind := (h.places hfault label count).mp hplace
          exact absurd (mem_iff_exists_placedBehind.mpr ⟨count, hbehind⟩) hunplaced

/-- A label has an offset to jump to if a call places it, and not too far back. -/
theorem MadeBy.exists_resolve_iff (h : MadeBy calls d) (hfault : d.fault = none) :
    (∃ offset, d.resolve d.offsets (.label label) = .ok offset) ↔
      .place label ∈ calls ∧ ∀ front back, calls = front ++ .place label :: back →
        Item.extent (pushed front) ≤ 65535 := by
  unfold resolve
  by_cases hmem : .place label ∈ calls
  · rcases List.mem_iff_append.mp hmem with ⟨front, back, hcalls⟩
    have hoffset := h.offset?_eq hfault hcalls
    simp only [hoffset, hmem, true_and]
    constructor
    · rintro ⟨offset, hresolved⟩ front' back' hcalls'
      rw [h.offset?_eq hfault hcalls', Option.some.injEq] at hoffset
      split at hresolved
      · rename_i hlt
        rw [hoffset]
        exact Nat.le_of_lt_succ hlt
      · cases hresolved
    · intro hle
      rw [if_pos (Nat.lt_succ_of_le (hle front back hcalls))]
      exact ⟨_, rfl⟩
  · simp only [h.offset?_eq_none hfault hmem, hmem, false_and, iff_false]
    rintro ⟨offset, hresolved⟩
    cases hresolved

end Encoding
end Draft

/-- Why a sequence of calls cannot be encoded. -/
inductive Unencodable (set : InstructionSet) (calls : List Call) : Prop where
  | misplaced (h : Misplaced calls)
  | unplaced {label : Label} (hused : Uses calls label) (h : .place label ∉ calls)
  | beyond {label : Label} {front back : List Call} (hused : Uses calls label)
      (hcalls : calls = front ++ .place label :: back) (h : 65535 < Item.extent (pushed front))
  | unwired {item : Item} (hitem : item ∈ pushed calls) (h : set.contains item.opcode = false)
  | long {item : Item} (hitem : item ∈ pushed calls) (h : 255 < item.argumentSize)

theorem exists_encode_made_iff {set : InstructionSet} {calls : List Call} :
    (∃ bytes, (Draft.made set calls).encode = .ok bytes) ↔ ¬ Unencodable set calls := by
  have hmade := Draft.madeBy_made set calls
  rw [Draft.exists_encode_iff, hmade.items]
  simp only [Draft.exists_encodeItem_iff, Draft.set_made]
  constructor
  · rintro ⟨hfault, hitems⟩ hbad
    cases hbad with
    | misplaced h => exact hmade.fault.mp hfault h
    | unplaced hused h =>
        rcases hused with ⟨item, hitem, haim⟩
        exact h ((hmade.exists_resolve_iff hfault).mp ((hitems item hitem).1 _ haim)).1
    | beyond hused hcalls h =>
        rcases hused with ⟨item, hitem, haim⟩
        have hle := ((hmade.exists_resolve_iff hfault).mp ((hitems item hitem).1 _ haim)).2 _ _ hcalls
        omega
    | unwired hitem h =>
        rw [(hitems _ hitem).2.1] at h
        cases h
    | long hitem h =>
        have hshort := (hitems _ hitem).2.2
        omega
  · intro hgood
    have hfault : (Draft.made set calls).fault = none :=
      hmade.fault.mpr fun h => hgood (.misplaced h)
    refine ⟨hfault, ?_⟩
    intro item hitem
    refine ⟨?_, ?_, ?_⟩
    · intro aim haim
      cases aim with
      | offset offset => exact ⟨offset, rfl⟩
      | label label =>
          have hused : Uses calls label := ⟨item, hitem, haim⟩
          apply (hmade.exists_resolve_iff hfault).mpr
          constructor
          · exact not_not.mp fun h => hgood (.unplaced hused h)
          · intro front back hcalls
            exact Nat.le_of_not_lt fun h => hgood (.beyond hused hcalls h)
    · exact Bool.of_not_eq_false fun h => hgood (.unwired hitem h)
    · exact Nat.le_of_not_lt fun h => hgood (.long hitem h)

/-!
# What is assembled
-/

/-- The offset of the record at an index, or of the end of the program. -/
def Program.offsetAt (p : Program) (index : Nat) : Nat :=
  match p.records[index]? with
  | some r => r.offset
  | none => p.bytes.size

theorem Program.Holds.offsetAt_eq {p : Program} {is : List Instruction} (h : p.Holds is) {k : Nat}
    (hk : k ≤ is.length) : p.offsetAt k = extent (is.take k) := by
  unfold Program.offsetAt
  rw [h.getElem?_records]
  rcases Nat.lt_or_eq_of_le hk with hlt | rfl
  · rw [List.getElem?_eq_getElem hlt]
    rfl
  · rw [List.getElem?_eq_none_iff.mpr (Nat.le_refl _), List.take_length]
    exact h.size_bytes

/-- The record `r` of `p` is the record of an item that calls add. -/
structure RecordOf (calls : List Call) (p : Program) (item : Item) (r : Record) : Prop where
  /-- An instruction is recorded as it is. -/
  exact_of_instruction : ∀ i, item = Item.ofInstruction i → r.instruction = i
  /-- A jump to a label aims at the record in front of which the label was placed. -/
  landing : ∀ label, item.target? = some (.label label) →
    .place label ∈ calls ∧ ∃ offset, r.instruction = item.retarget (fun _ => offset) ∧
      ∀ front back, calls = front ++ .place label :: back →
        offset.toNat = p.offsetAt (pushed front).length

theorem Draft.Resolves.eq_of_ofInstruction {d : Draft} {i j : Instruction}
    (h : d.Resolves (Item.ofInstruction i) j) : j = i := by
  cases i <;> exact (Except.ok.inj h).symm

section Building

variable {calls : List Call} {d : Draft} {id : ProgramId} {p : Program}

theorem Draft.fault_of_build (h : d.build id = .ok p) : d.fault = none := by
  simp only [build, bind_eq_ok_iff] at h
  rcases h with ⟨bytes, hencode, -⟩
  exact (Draft.exists_encode_iff.mp ⟨bytes, hencode⟩).1

/-- A jump to a label aims at the first record behind the place of the label. -/
theorem Draft.MadeBy.toNat_eq_offsetAt (hmade : d.MadeBy calls) (hfault : d.fault = none)
    {is : List Instruction} (his : List.Forall₂ d.Resolves d.items.toList is) (hp : p.Holds is)
    {label : Label} {offset : UInt16} (hoffset : d.resolve d.offsets (.label label) = .ok offset)
    {front back : List Call} (hcalls : calls = front ++ .place label :: back) :
    offset.toNat = p.offsetAt (pushed front).length := by
  rcases Draft.resolve_label_eq_ok hoffset with ⟨count, hle, hplace, hextent⟩
  have hsame : d.places[label.index]? = some (some (pushed front).length) :=
    (hmade.places hfault label _).mpr ⟨front, back, hcalls, rfl⟩
  rw [hplace, Option.some.injEq, Option.some.injEq] at hsame
  subst hsame
  rw [hp.offsetAt_eq (his.length_eq ▸ hle), hextent, Draft.extent_eq (List.forall₂_take _ his)]

theorem Draft.MadeBy.recordOf (hmade : d.MadeBy calls) (hfault : d.fault = none)
    {is : List Instruction} (his : List.Forall₂ d.Resolves d.items.toList is) (hp : p.Holds is)
    {item : Item} {r : Record} (h : d.Resolves item r.instruction) : RecordOf calls p item r := by
  constructor
  · rintro i rfl
    exact h.eq_of_ofInstruction
  · intro label haim
    rcases Item.traverse_eq_ok_iff.mp h with ⟨offset, hinstruction, hresolve⟩
    have hoffset := hresolve _ haim
    refine ⟨((hmade.exists_resolve_iff hfault).mp ⟨offset, hoffset⟩).1, offset, hinstruction, ?_⟩
    intro front back hcalls
    exact hmade.toNat_eq_offsetAt hfault his hp hoffset hcalls

end Building

/-- A draft becomes the program that its calls describe.  What is built has a record
for each item, in order: an instruction as it is, and a jump to a label with the offset
of the first record behind the place of the label, or of the end.  Encoding fails for
the listed reasons only. -/
theorem assembled_as_called (set : InstructionSet) (calls : List Call) :
    (∀ (id : ProgramId) (p : Program), (Draft.made set calls).build id = .ok p →
      p.id = id ∧ p.records.size = (pushed calls).length ∧
        ∀ (k : Nat) (item : Item), (pushed calls)[k]? = some item →
          ∃ r, p.records[k]? = some r ∧ RecordOf calls p item r) ∧
    ((∃ e, (Draft.made set calls).encode = .error e) ↔ Unencodable set calls) := by
  have hmade := Draft.madeBy_made set calls
  constructor
  · intro id p hbuild
    rcases Draft.build_eq_ok hbuild with ⟨is, his, hp, hid, -⟩
    have hfault := Draft.fault_of_build hbuild
    refine ⟨hid, ?_, ?_⟩
    · rw [hp.size_eq, ← his.length_eq, hmade.items]
    · intro k item hitem
      rw [← hmade.items] at hitem
      rcases Draft.exists_resolved his hitem with ⟨i, hi, hresolves⟩
      refine ⟨⟨extent (is.take k), i⟩, ?_, hmade.recordOf hfault his hp hresolves⟩
      rw [hp.getElem?_records, hi]
      rfl
  · rw [← not_iff_not, not_exists, ← exists_encode_made_iff]
    cases (Draft.made set calls).encode with
    | error e =>
        constructor
        · intro h
          exact absurd rfl (h e)
        · rintro ⟨bytes, h⟩
          cases h
    | ok bytes =>
        constructor
        · intro _
          exact ⟨bytes, rfl⟩
        · intro _ e h
          cases h

/-- A trade of one asset skips the fee, and every trade skips the salt. -/
def skippingCalls : List Call :=
  [.newLabel, .newLabel, .append (.jumpIfAsset .input .zero (.label ⟨0⟩)),
    .append (.flatFee .input 30), .place ⟨0⟩, .append .solve, .append (.jump (.label ⟨1⟩)),
    .append (.salt [1]), .place ⟨1⟩]

def skippingPool : Program where
  id := .zero
  bytes := (Operation.recorded 1 (.jumpIfAsset .input .zero 40) ++
    Operation.recorded 17 (.flatFee .input 30) ++ Operation.recorded 10 .solve ++
    Operation.recorded 0 (.jump 49) ++ Operation.recorded 6 (.salt [1])).toArray
  records := #[⟨0, .jumpIfAsset .input .zero 40⟩, ⟨36, .flatFee .input 30⟩, ⟨40, .solve⟩,
    ⟨42, .jump 49⟩, ⟨46, .salt [1]⟩]

theorem skipping_pool_assembled_as_called :
    (Draft.made .full skippingCalls).build .zero = .ok skippingPool ∧
    ∃ r, skippingPool.records[3]? = some r ∧
      RecordOf skippingCalls skippingPool (.jump (.label ⟨1⟩)) r := by
  have hbuild : (Draft.made .full skippingCalls).build .zero = .ok skippingPool := by
    cbv
  have hassembled := ((assembled_as_called .full skippingCalls).1 _ _ hbuild).2.2
  constructor
  · exact hbuild
  · exact hassembled 3 (.jump (.label ⟨1⟩)) rfl

end SwapPricing
