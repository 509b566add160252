import SwapPricing.Proofs.Drafts
import SwapPricing.Proofs.Salting

/-!
# Drafts with salt

Salt is put into a draft anywhere between its calls.  Labels are placed in front of
the same records as before, so the jumps of the built program go where they went.
-/

namespace SwapPricing

open Machine Salted

/-!
# The draft with salt
-/

def Aim.aimed (aim : UInt16 → UInt16) : Aim → Aim
  | .offset destination => .offset (aim destination)
  | .label target => .label target

/-- The item with other offsets to jump to. -/
def Item.aimed (aim : UInt16 → UInt16) (item : Item) : Item :=
  item.retarget (Aim.aimed aim)

def Call.aimed (aim : UInt16 → UInt16) : Call → Call
  | .newLabel => .newLabel
  | .place label => .place label
  | .append item => .append (item.aimed aim)

namespace Salted

/-- The call on the draft with salt. -/
def call (aim : UInt16 → UInt16) : Salted Call → Call
  | own call => call.aimed aim
  | added bytes => .append (.salt bytes)

/-- The item of the draft with salt. -/
def item (aim : UInt16 → UInt16) : Salted Item → Item
  | own item => item.aimed aim
  | added bytes => .salt bytes

/-- The item that a call adds. -/
def item? : Salted Call → Option (Salted Item)
  | own (.append item) => some (own item)
  | own _ => none
  | added bytes => some (added bytes)

/-- The items that calls add. -/
def items (calls : List (Salted Call)) : List (Salted Item) :=
  calls.filterMap item?

end Salted

theorem kept_append_of_le {α : Type} {parts : List (Salted α)} {k : Nat} (hk : k ≤ parts.length)
    (more : List (Salted α)) : kept (parts ++ more) k = kept parts k := by
  unfold kept
  rw [List.take_append_of_le_length hk]

/-- How a draft with salt has grown along with the draft without it. -/
structure GrownAlong (aim : UInt16 → UInt16) (parts : List (Salted Item)) (d d' : Draft) :
    Prop where
  items : d.items.toList = plain parts
  items' : d'.items.toList = parts.map (Salted.item aim)
  places : d.places = d'.places.map (Option.map (kept parts))
  placed : ∀ count, some count ∈ d'.places → count ≤ parts.length

namespace GrownAlong

variable {aim : UInt16 → UInt16} {parts : List (Salted Item)} {d d' : Draft}

theorem places_append (h : GrownAlong aim parts d d') (more : List (Salted Item)) :
    d.places = d'.places.map (Option.map (kept (parts ++ more))) := by
  rw [h.places]
  apply Array.map_congr_left
  intro place hplace
  cases place with
  | none => rfl
  | some count =>
      rw [Option.map_some, Option.map_some, kept_append_of_le (h.placed count hplace)]

theorem placed_append (h : GrownAlong aim parts d d') (more : List (Salted Item)) :
    ∀ count, some count ∈ d'.places → count ≤ (parts ++ more).length := by
  intro count hcount
  rw [List.length_append]
  exact Nat.le_add_right_of_le (h.placed count hcount)

theorem append_added (h : GrownAlong aim parts d d') (bytes : List UInt8) :
    GrownAlong aim (parts ++ [.added bytes]) d (d'.append (.salt bytes)) where
  items := by
    rw [h.items, plain_append]
    exact (List.append_nil _).symm
  items' := by
    unfold Draft.append
    rw [Array.toList_push, h.items', List.map_append]
    rfl
  places := h.places_append _
  placed := h.placed_append _

theorem append_own (h : GrownAlong aim parts d d') (item : Item) :
    GrownAlong aim (parts ++ [.own item]) (d.append item) (d'.append (item.aimed aim)) where
  items := by
    unfold Draft.append
    rw [Array.toList_push, h.items, plain_append]
    rfl
  items' := by
    unfold Draft.append
    rw [Array.toList_push, h.items', List.map_append]
    rfl
  places := h.places_append _
  placed := h.placed_append _

theorem newLabel (h : GrownAlong aim parts d d') :
    GrownAlong aim parts d.newLabel.2 d'.newLabel.2 where
  items := h.items
  items' := h.items'
  places := by
    unfold Draft.newLabel
    simp only
    rw [Array.map_push, h.places]
    rfl
  placed := by
    intro count hcount
    rcases Array.mem_push.mp hcount with hold | hnew
    · exact h.placed count hold
    · cases hnew

theorem place (h : GrownAlong aim parts d d') (label : Label) :
    GrownAlong aim parts (d.place label) (d'.place label) := by
  have hget : d.places[label.index]? = d'.places[label.index]?.map (Option.map (kept parts)) := by
    rw [h.places, Array.getElem?_map]
  unfold Draft.place
  rw [hget]
  cases hplace : d'.places[label.index]? with
  | none => exact ⟨h.items, h.items', h.places, h.placed⟩
  | some place =>
      cases place with
      | some count => exact ⟨h.items, h.items', h.places, h.placed⟩
      | none =>
          have hlength : d'.items.size = parts.length := by
            rw [← Array.length_toList, h.items', List.length_map]
          have hsize : kept parts d'.items.size = d.items.size := by
            rw [hlength, ← Array.length_toList, h.items]
            exact kept_of_none (List.getElem?_eq_none_iff.mpr (Nat.le_refl _))
          refine ⟨h.items, h.items', ?_, ?_⟩
          · show d.places.setIfInBounds label.index (some d.items.size) =
              (d'.places.setIfInBounds label.index (some d'.items.size)).map _
            rw [Array.map_setIfInBounds, h.places, Option.map_some, hsize]
          · intro count hcount
            rcases Array.mem_or_eq_of_mem_setIfInBounds hcount with hold | hnew
            · exact h.placed count hold
            · rw [Option.some.inj hnew, hlength]

end GrownAlong

/-- What one more call does to both drafts. -/
theorem GrownAlong.call {aim : UInt16 → UInt16} {parts : List (Salted Item)} {d d' : Draft}
    (h : GrownAlong aim parts d d') (last : Salted Call) :
    GrownAlong aim (parts ++ Salted.items [last]) ((plain [last]).foldl Draft.call d)
      (d'.call (last.call aim)) := by
  cases last with
  | added bytes => exact h.append_added bytes
  | own call =>
      cases call with
      | append item => exact h.append_own item
      | newLabel =>
          have hgrown := h.newLabel
          rw [← List.append_nil parts] at hgrown
          exact hgrown
      | place label =>
          have hgrown := h.place label
          rw [← List.append_nil parts] at hgrown
          exact hgrown

theorem grownAlong_made (set : InstructionSet) (aim : UInt16 → UInt16)
    (calls : List (Salted Call)) :
    GrownAlong aim (Salted.items calls) (Draft.made set (plain calls))
      (Draft.made set (calls.map (Salted.call aim))) := by
  induction calls using List.reverseRecOn with
  | nil =>
      constructor
      · rfl
      · rfl
      · exact Array.map_empty.symm
      · intro count hcount
        exact absurd hcount (Array.not_mem_empty _)
  | append_singleton calls last ih =>
      have hitems : Salted.items (calls ++ [last]) = Salted.items calls ++ Salted.items [last] :=
        List.filterMap_append
      have hplain : Draft.made set (plain (calls ++ [last])) =
          (plain [last]).foldl Draft.call (Draft.made set (plain calls)) := by
        unfold Draft.made
        rw [plain_append, List.foldl_append]
      rw [hitems, hplain, List.map_append, List.map_singleton, Draft.made_concat]
      exact ih.call last

/-!
# The program with salt
-/

/-- The offset `destination` is where a part of the draft ends, and behind the same part
of the draft with salt stands what it is replaced by. -/
def StaysAt (aim : UInt16 → UInt16) (parts : List (Salted Item)) (destination : UInt16) : Prop :=
  ∃ front back, parts = front ++ back ∧ Item.extent (plain front) = destination.toNat ∧
    Item.extent (front.map (Salted.item aim)) = (aim destination).toNat

section Built

variable {aim : UInt16 → UInt16} {parts : List (Salted Item)} {d d' : Draft} {p p' : Program}
  {is is' : List Instruction}

theorem aligned_of_label (h : GrownAlong aim parts d d')
    (his : List.Forall₂ d.Resolves d.items.toList is)
    (his' : List.Forall₂ d'.Resolves d'.items.toList is') (hp : p.Holds is) (hp' : p'.Holds is')
    {label : Label} {offset offset' : UInt16}
    (hoffset : d.resolve d.offsets (.label label) = .ok offset)
    (hoffset' : d'.resolve d'.offsets (.label label) = .ok offset') :
    Aligned p p' parts offset offset' := by
  rcases Draft.indexOf_of_label his hp hoffset with ⟨count, hplace, hindex⟩
  rcases Draft.indexOf_of_label his' hp' hoffset' with ⟨count', hplace', hindex'⟩
  refine ⟨count', hindex', ?_⟩
  rw [h.places, Array.getElem?_map, hplace'] at hplace
  have hcount : kept parts count' = count := Option.some.inj (Option.some.inj hplace)
  rw [hcount]
  exact hindex

theorem aligned_of_offset (h : GrownAlong aim parts d d')
    (his : List.Forall₂ d.Resolves d.items.toList is)
    (his' : List.Forall₂ d'.Resolves d'.items.toList is') (hp : p.Holds is) (hp' : p'.Holds is')
    {destination : UInt16} (hstays : StaysAt aim parts destination) :
    Aligned p p' parts destination (aim destination) := by
  rcases hstays with ⟨front, back, rfl, hextent, hextent'⟩
  rw [h.items] at his
  rw [h.items'] at his'
  have hkept : kept (front ++ back) front.length = (plain front).length := by
    unfold kept
    rw [List.take_left]
  refine ⟨front.length, hp'.indexOf_eq_ok_iff.mpr ⟨?_, ?_⟩, hp.indexOf_eq_ok_iff.mpr ⟨?_, ?_⟩⟩
  · rw [← his'.length_eq, List.length_map, List.length_append]
    exact Nat.le_add_right _ _
  · rw [Draft.extent_eq (List.forall₂_take front.length his'), ← List.map_take, List.take_left,
      hextent']
  · rw [hkept, ← his.length_eq, plain_append, List.length_append]
    exact Nat.le_add_right _ _
  · rw [hkept, Draft.extent_eq (List.forall₂_take _ his), plain_append, List.take_left, hextent]

/-- An item and its image with salt become twins. -/
theorem twin_of_resolves (h : GrownAlong aim parts d d')
    (his : List.Forall₂ d.Resolves d.items.toList is)
    (his' : List.Forall₂ d'.Resolves d'.items.toList is') (hp : p.Holds is) (hp' : p'.Holds is')
    {item : Item} (hknown : item.opcode ≠ .extruction)
    (hstays : ∀ destination, item.target? = some (.offset destination) →
      StaysAt aim parts destination)
    {i i' : Instruction} (hi : d.Resolves item i) (hi' : d'.Resolves (item.aimed aim) i') :
    Twin (Aligned p p' parts) i i' := by
  rcases Item.traverse_eq_ok_iff.mp hi with ⟨offset, rfl, hoffset⟩
  rcases Item.traverse_eq_ok_iff.mp hi' with ⟨offset', rfl, hoffset'⟩
  have haligned : ∀ target, item.target? = some target →
      (item.aimed aim).target? = some (target.aimed aim) → Aligned p p' parts offset offset' := by
    intro target htarget htarget'
    have hfirst := hoffset target htarget
    have hsecond := hoffset' _ htarget'
    cases target with
    | offset destination =>
        cases hfirst
        cases hsecond
        exact aligned_of_offset h his his' hp hp' (hstays _ htarget)
    | label label => exact aligned_of_label h his his' hp hp' hfirst hsecond
  cases item with
  | jump target => exact .jump (haligned target rfl rfl)
  | jumpIfAsset leg asset target => exact .jumpIfAsset (haligned target rfl rfl)
  | extruction logic input => exact absurd rfl hknown
  | _ => exact .straight rfl

theorem addsSalt_of_build {id : ProgramId} (h : GrownAlong aim parts d d')
    (hbuild : d.build id = .ok p) (hbuild' : d'.build id = .ok p')
    (hknown : ∀ item ∈ plain parts, item.opcode ≠ .twap ∧ item.opcode ≠ .extruction)
    (hstays : ∀ item ∈ plain parts, ∀ destination,
      item.target? = some (.offset destination) → StaysAt aim parts destination)
    (hapart : ∀ front bytes back, parts = front ++ .added bytes :: back →
      Waits ((plain front).map Operation.opcode) →
        ¬ Overtakes ((plain back).map Operation.opcode)) :
    ∃ is is', AddsSalt p p' is is' parts := by
  rcases Draft.build_eq_ok hbuild with ⟨is, his, hp, hid, hrecordable⟩
  rcases Draft.build_eq_ok hbuild' with ⟨is', his', hp', hid', -⟩
  have hplain := h.items ▸ his
  have hsalted := h.items' ▸ his'
  refine ⟨is, is', ?_⟩
  constructor
  · exact hp
  · exact hp'
  · exact hid'.trans hid.symm
  · exact fun i hi => (hrecordable i hi).inRange
  · exact hplain.length_eq.symm
  · rw [← hsalted.length_eq, List.length_map]
  · intro k bytes hpart
    have hitem : (parts.map (Salted.item aim))[k]? = some (.salt bytes) := by
      rw [List.getElem?_map, hpart]
      rfl
    rcases Draft.exists_resolved hsalted hitem with ⟨i', hi', hresolves⟩
    rcases Item.traverse_eq_ok_iff.mp hresolves with ⟨offset, rfl, -⟩
    exact hi'
  · intro k item hpart
    have hitem' : (parts.map (Salted.item aim))[k]? = some (item.aimed aim) := by
      rw [List.getElem?_map, hpart]
      rfl
    have hitem := getElem?_plain hpart
    have hmem := List.mem_of_getElem? hitem
    rcases Draft.exists_resolved hplain hitem with ⟨i, hi, hresolves⟩
    rcases Draft.exists_resolved hsalted hitem' with ⟨i', hi', hresolves'⟩
    refine ⟨i, i', hi, hi', ?_, ?_⟩
    · rw [hresolves.opcode_eq]
      exact (hknown item hmem).1
    · exact twin_of_resolves h his his' hp hp' (hknown item hmem).2 (hstays item hmem) hresolves
        hresolves'
  · intro k bytes hpart
    rcases split_of_added hpart with ⟨hsplit, hbehind⟩
    rw [Draft.opcodes_eq (List.forall₂_take _ hplain),
      Draft.opcodes_eq (List.forall₂_drop _ hplain), take_kept, drop_kept, hbehind]
    exact hapart _ bytes _ hsplit

end Built

/-!
# Trades
-/

/-- Between these parts, a salt lets an input fee of a third party go that has still to
wait for a fee of the maker. -/
def SplitsFees (front back : List (Salted Item)) : Prop :=
  Waits ((plain front).map Operation.opcode) ∧ Overtakes ((plain back).map Operation.opcode)

instance (front back : List (Salted Item)) : Decidable (SplitsFees front back) :=
  inferInstanceAs (Decidable (_ ∧ _))

/-- Salt has no effect on any trade but on the number of records run, wherever it is put
and however much of it, unless it splits input fees that have to wait for each other.
The draft has neither sales, which are known by their offsets, nor external logic.  Its
labels are placed as before, and jumps to offsets aim at the same records. -/
theorem salt_priced_alike {set : InstructionSet} {calls : List (Salted Call)}
    {aim : UInt16 → UInt16} {id : ProgramId} {p p' : Program}
    (hbuild : (Draft.made set (plain calls)).build id = .ok p)
    (hbuild' : (Draft.made set (calls.map (Salted.call aim))).build id = .ok p')
    (hknown : ∀ item ∈ plain (Salted.items calls),
      item.opcode ≠ .twap ∧ item.opcode ≠ .extruction)
    (hstays : ∀ item ∈ plain (Salted.items calls), ∀ destination,
      item.target? = some (.offset destination) → StaysAt aim (Salted.items calls) destination)
    (hapart : ∀ front bytes back, Salted.items calls = front ++ .added bytes :: back →
      ¬ SplitsFees front back) : PricesAlike p p' := by
  have hgrown := grownAlong_made set aim calls
  rcases addsSalt_of_build hgrown hbuild hbuild' hknown hstays
    (fun front bytes back hsplit hwaits hovertakes =>
      hapart front bytes back hsplit ⟨hwaits, hovertakes⟩) with ⟨is, is', hsalt⟩
  exact hsalt.pricesAlike

/-- A pool with salt in front of its jumps and around its fees. -/
def seasonedCalls : List (Salted Call) :=
  [.added [1], .own (.append (.jump (.offset 4))), .own .newLabel,
    .own (.append (.jumpIfAsset .input (.single 67) (.label ⟨0⟩))),
    .own (.append (.flatFee .input 300)),
    .own (.append (.protocolFee .input 100 (.single 82))), .added [2], .own (.place ⟨0⟩),
    .own (.append (.staticBalances [(.single 65, 10000), (.single 66, 10000)])), .added [3],
    .own (.append .solve)]

/-- The program of instructions under all opcodes. -/
def Program.ofInstructions (is : List Instruction) : Program where
  id := .single 80
  bytes := ((InstructionSet.full.encode? is).getD []).toArray
  records := (Record.placed 0 is).toArray

def unseasonedPool : Program :=
  .ofInstructions [.jump 4, .jumpIfAsset .input (.single 67) 80, .flatFee .input 300,
    .protocolFee .input 100 (.single 82),
    .staticBalances [(.single 65, 10000), (.single 66, 10000)], .solve]

def seasonedPool : Program :=
  .ofInstructions [.salt [1], .jump 7, .jumpIfAsset .input (.single 67) 86, .flatFee .input 300,
    .protocolFee .input 100 (.single 82), .salt [2],
    .staticBalances [(.single 65, 10000), (.single 66, 10000)], .salt [3], .solve]

set_option maxRecDepth 2000 in
theorem seasoned_pool_priced_alike :
    (Draft.made .full (plain seasonedCalls)).build (.single 80) = .ok unseasonedPool ∧
      (Draft.made .full (seasonedCalls.map (Salted.call (· + 3)))).build (.single 80) =
        .ok seasonedPool ∧
      quote unseasonedPool (.simulated .input (.single 65) (.single 66) 1000)
          (Observations.atTime 0).environment 16 .empty =
        .ok ⟨⟨10000, 10000, 1000, 875⟩, [⟨.single 82, .single 65, 10⟩], 6⟩ ∧
      (quote seasonedPool (.simulated .input (.single 65) (.single 66) 1000)
          (Observations.atTime 0).environment 16 .empty).map Outcome.unstepped =
        .ok ⟨⟨10000, 10000, 1000, 875⟩, [⟨.single 82, .single 65, 10⟩], 0⟩ := by
  have hbuild : (Draft.made .full (plain seasonedCalls)).build (.single 80) =
      .ok unseasonedPool := by cbv
  have hbuild' : (Draft.made .full (seasonedCalls.map (Salted.call (· + 3)))).build (.single 80) =
      .ok seasonedPool := by cbv
  have hquote : quote unseasonedPool (.simulated .input (.single 65) (.single 66) 1000)
      (Observations.atTime 0).environment 16 .empty =
    .ok ⟨⟨10000, 10000, 1000, 875⟩, [⟨.single 82, .single 65, 10⟩], 6⟩ := by cbv
  have hgoes : quote seasonedPool (.simulated .input (.single 65) (.single 66) 1000)
      (Observations.atTime 0).environment 16 .empty =
    .ok ⟨⟨10000, 10000, 1000, 875⟩, [⟨.single 82, .single 65, 10⟩], 9⟩ := by cbv
  have hstays : ∀ item ∈ plain (Salted.items seasonedCalls), ∀ destination,
      item.target? = some (.offset destination) →
        StaysAt (· + 3) (Salted.items seasonedCalls) destination := by
    have honly : ∀ item ∈ plain (Salted.items seasonedCalls),
        item.target? = none ∨ item.target? = some (.offset 4) ∨
          item.target? = some (.label ⟨0⟩) := by decide
    intro item hitem destination htarget
    rcases honly item hitem with hnone | hoffset | hlabel
    · rw [hnone] at htarget
      cases htarget
    · rw [hoffset] at htarget
      cases htarget
      exact ⟨(Salted.items seasonedCalls).take 2, (Salted.items seasonedCalls).drop 2, rfl,
        by decide, by decide⟩
    · rw [hlabel] at htarget
      cases htarget
  have hapart : ∀ front bytes back, Salted.items seasonedCalls = front ++ .added bytes :: back →
      ¬ SplitsFees front back := by
    have hall : ∀ k < 9, ¬ SplitsFees ((Salted.items seasonedCalls).take k)
        ((Salted.items seasonedCalls).drop (k + 1)) := by decide
    intro front bytes back hsplit
    have hlength : 9 = front.length + (back.length + 1) := by
      rw [← List.length_cons, ← List.length_append, ← hsplit]
      rfl
    have happart := hall front.length (by omega)
    rw [hsplit, List.take_left, List.drop_length_add_append] at happart
    exact happart
  have halike := salt_priced_alike hbuild hbuild' (by decide) hstays hapart
  have hsame := (halike (.simulated .input (.single 65) (.single 66) 1000)
    (Observations.atTime 0).environment .absent 16 .empty).1
  rw [hgoes] at hsame
  refine ⟨hbuild, hbuild', hquote, ?_⟩
  rw [hgoes, hsame (by simp), hquote]
  rfl

/-!
# Salt between fees
-/

/-- A pool with salt between the fee of a third party and the fee of the maker. -/
def splitCalls : List (Salted Call) :=
  [.own (.append (.staticBalances [(.single 65, 10000), (.single 66, 10000)])),
    .own (.append (.protocolFee .input 100 (.single 82))), .added [0],
    .own (.append (.flatFee .input 300)), .own (.append .solve)]

def unsplitPool : Program :=
  .ofInstructions [.staticBalances [(.single 65, 10000), (.single 66, 10000)],
    .protocolFee .input 100 (.single 82), .flatFee .input 300, .solve]

def splitPool : Program :=
  .ofInstructions [.staticBalances [(.single 65, 10000), (.single 66, 10000)],
    .protocolFee .input 100 (.single 82), .salt [0], .flatFee .input 300, .solve]

/-- There the third party is paid a share of what the maker has not yet taken its fee
from. -/
theorem salt_between_fees_changes_price :
    (Draft.made .full (plain splitCalls)).build (.single 80) = .ok unsplitPool ∧
      (Draft.made .full (splitCalls.map (Salted.call id))).build (.single 80) = .ok splitPool ∧
      ¬ PricesAlike unsplitPool splitPool := by
  have hbuild : (Draft.made .full (plain splitCalls)).build (.single 80) = .ok unsplitPool := by
    cbv
  have hbuild' : (Draft.made .full (splitCalls.map (Salted.call id))).build (.single 80) =
      .ok splitPool := by cbv
  refine ⟨hbuild, hbuild', ?_⟩
  intro halike
  have hquote : quote unsplitPool (.simulated .input (.single 65) (.single 66) 5000)
      (Observations.atTime 0).environment 16 .empty =
    .ok ⟨⟨10000, 10000, 5000, 3243⟩, [⟨.single 82, .single 65, 49⟩], 4⟩ := rfl
  have hquote' : quote splitPool (.simulated .input (.single 65) (.single 66) 5000)
      (Observations.atTime 0).environment 16 .empty =
    .ok ⟨⟨10000, 10000, 5000, 3243⟩, [⟨.single 82, .single 65, 50⟩], 5⟩ := rfl
  have hsame := (halike (.simulated .input (.single 65) (.single 66) 5000)
    (Observations.atTime 0).environment .absent 16 .empty).1
  rw [hquote, hquote'] at hsame
  exact absurd (hsame (by simp)) (by decide)

end SwapPricing
