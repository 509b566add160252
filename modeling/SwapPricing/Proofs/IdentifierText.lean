import SwapPricing.Identifier
import SwapPricing.Proofs.Positional

/-!
# The text of identifiers

The shown form of an identifier reads back as that identifier.  A name is shown
only where it does not read as base58, and everything else is shown in base58.
The texts that name an identifier are base58 of 32 bytes and short printable names.
-/

namespace SwapPricing
namespace Identifier

variable {kind : IdentifierKind}

theorem ofBase58?_encode (id : Identifier kind) :
    ofBase58? (Text.Base58.encode id.bytes) = some id := by
  unfold ofBase58? ofBytes?
  rw [Text.Base58.decode?_encode, Option.bind_some, dif_pos id.length_bytes]

/-- A byte is the code of the character it shows. -/
theorem ofNat_toNat_char (byte : UInt8) : UInt8.ofNat (Char.ofNat byte.toNat).toNat = byte := by
  have hvalid : Nat.isValidChar byte.toNat := Or.inl (by have := byte.toNat_lt; omega)
  rw [Char.ofNat, dif_pos hvalid]
  exact UInt8.ofNat_toNat

theorem map_ofNat_toNat_char (bytes : List UInt8) :
    (bytes.map fun b => Char.ofNat b.toNat).map (fun c => UInt8.ofNat c.toNat) = bytes := by
  rw [List.map_map]
  conv_rhs => rw [← List.map_id bytes]
  exact List.map_congr_left fun byte _ => ofNat_toNat_char byte

/-- Filling up what stands in front of the zero bytes gives back all bytes. -/
theorem padded_takeWhile (id : Identifier kind)
    (hrest : (id.bytes.dropWhile (· ≠ 0)).all (· = 0) = true)
    (hle : (id.bytes.takeWhile (· ≠ 0)).length ≤ identifierSize) :
    padded (id.bytes.takeWhile (· ≠ 0)) hle = id := by
  have hsplit : id.bytes.takeWhile (· ≠ 0) ++ id.bytes.dropWhile (· ≠ 0) = id.bytes :=
    List.takeWhile_append_dropWhile
  have hlength := congrArg List.length hsplit
  rw [List.length_append, id.length_bytes] at hlength
  have hzeros : id.bytes.dropWhile (· ≠ 0) =
      List.replicate (identifierSize - (id.bytes.takeWhile (· ≠ 0)).length) 0 := by
    apply List.eq_replicate_iff.mpr
    refine ⟨by omega, ?_⟩
    intro byte hbyte
    simpa using List.all_eq_true.mp hrest byte hbyte
  apply ext
  show id.bytes.takeWhile (· ≠ 0) ++ List.replicate _ 0 = id.bytes
  rw [← hzeros, hsplit]

theorem ofName?_of_name? {id : Identifier kind} {name : List Char} (h : id.name? = some name) :
    ofName? name = some id := by
  unfold name? at h
  simp only at h
  split at h
  · rename_i hheld
    obtain ⟨hne, hrest, hgraphic⟩ := hheld
    cases h
    have hle : (id.bytes.takeWhile (· ≠ 0)).length ≤ identifierSize := by
      rw [← id.length_bytes]
      exact (List.takeWhile_sublist _).length_le
    unfold ofName?
    simp only [map_ofNat_toNat_char]
    rw [dif_pos hle, if_pos ⟨hne, hgraphic⟩, padded_takeWhile id hrest hle]
  · cases h

/-- The shown form of an identifier names that identifier. -/
theorem ofChars?_chars (id : Identifier kind) : ofChars? id.chars = some id := by
  have hencoded : ofChars? (Text.Base58.encode id.bytes) = some id := by
    unfold ofChars?
    rw [ofBase58?_encode, Option.some_or]
  unfold chars
  cases hname : id.name? with
  | none => exact hencoded
  | some name =>
      cases hbase : (ofBase58? name : Option (Identifier kind)) with
      -- A name that is also base58 is not shown as a name.
      | some other =>
          simpa only [hbase, Option.isNone_some, Bool.false_eq_true, if_false] using hencoded
      | none =>
          simp only [hbase, Option.isNone_none, if_true]
          unfold ofChars?
          rw [hbase, Option.none_or, ofName?_of_name? hname]

theorem parse_eq_ok_iff {text : String} {id : Identifier kind} :
    parse text = .ok id ↔ ofChars? text.toList = some id := by
  unfold parse
  split
  · rename_i other hother
    rw [hother, Except.ok.injEq, Option.some.injEq]
  · rename_i hnone
    rw [hnone]
    exact iff_of_false nofun nofun

theorem parse_text (id : Identifier kind) : parse id.text = .ok id := by
  rw [parse_eq_ok_iff, text, String.toList_ofList, ofChars?_chars]

@[simp]
theorem text_inj {a b : Identifier kind} : a.text = b.text ↔ a = b := by
  refine ⟨fun h => ?_, congrArg text⟩
  have hread := a.parse_text
  rw [h, b.parse_text] at hread
  exact (Except.ok.inj hread).symm

/-!
# Texts that name something
-/

/-- The text spells the bytes of an identifier in base58. -/
theorem ofBase58?_eq_some_iff {text : List Char} {id : Identifier kind} :
    ofBase58? text = some id ↔ text = Text.Base58.encode id.bytes := by
  constructor
  · intro h
    rcases Option.bind_eq_some_iff.mp h with ⟨bytes, hbytes, hid⟩
    unfold ofBytes? at hid
    split at hid
    · cases hid
      exact Text.Base58.decode?_eq_some_iff.mp hbytes
    · cases hid
  · rintro rfl
    exact ofBase58?_encode id

/-- Whether a text is a short printable name.  Its characters are ASCII, so it has as many
bytes as characters. -/
def IsName (text : List Char) : Prop :=
  text ≠ [] ∧ text.length ≤ identifierSize ∧ ∀ c ∈ text, isGraphic c = true

/-- The bytes of a name, filled up with zero bytes. -/
def nameBytes (name : List Char) : List UInt8 :=
  name.map (fun c => UInt8.ofNat c.toNat) ++ List.replicate (identifierSize - name.length) 0

theorem ofName?_eq_some_iff {name : List Char} {id : Identifier kind} :
    ofName? name = some id ↔ IsName name ∧ id.bytes = nameBytes name := by
  have hlength : (name.map (fun c => UInt8.ofNat c.toNat)).length = name.length := List.length_map _
  unfold ofName? IsName nameBytes
  constructor
  · intro h
    split at h
    · rename_i hle
      split at h
      · rename_i hname
        cases h
        refine ⟨⟨hname.1, by omega, List.all_eq_true.mp hname.2⟩, ?_⟩
        show _ ++ List.replicate (identifierSize - _) 0 = _
        rw [hlength]
      · cases h
    · cases h
  · intro h
    rcases h with ⟨⟨hne, hle, hgraphic⟩, hbytes⟩
    rw [dif_pos (by omega), if_pos ⟨hne, List.all_eq_true.mpr hgraphic⟩]
    congr 1
    apply ext
    rw [hbytes]
    show _ ++ List.replicate (identifierSize - _) 0 = _
    rw [hlength]

theorem length_nameBytes {name : List Char} (h : IsName name) :
    (nameBytes name).length = identifierSize := by
  unfold nameBytes
  rw [List.length_append, List.length_map, List.length_replicate, Nat.add_sub_cancel' h.2.1]

/-- A text reads as base58 if it can, and as a name otherwise. -/
theorem ofChars?_eq_some_iff {text : List Char} {id : Identifier kind} :
    ofChars? text = some id ↔
      text = Text.Base58.encode id.bytes ∨
      (∀ other : Identifier kind, text ≠ Text.Base58.encode other.bytes) ∧
        IsName text ∧ id.bytes = nameBytes text := by
  unfold ofChars?
  rw [Option.or_eq_some_iff, ofBase58?_eq_some_iff, ofName?_eq_some_iff]
  simp only [Option.eq_none_iff_forall_ne_some, ne_eq, ofBase58?_eq_some_iff]

/-- The text form of identifiers.  The shown form of an identifier reads back as that
identifier, so no two of them are shown alike.  A text names an identifier exactly if it is
base58 of 32 bytes, which then are its bytes, or otherwise a short printable name. -/
theorem text_names_identifier :
    (∀ id : Identifier kind, parse id.text = .ok id) ∧
    Function.Injective (text : Identifier kind → String) ∧
    ∀ s : String,
      (∀ id : Identifier kind, parse s = .ok id ↔
        s.toList = Text.Base58.encode id.bytes ∨
        (∀ other : Identifier kind, s.toList ≠ Text.Base58.encode other.bytes) ∧
          IsName s.toList ∧ id.bytes = nameBytes s.toList) ∧
      ((∃ id : Identifier kind, parse s = .ok id) ↔
        (∃ bytes, bytes.length = identifierSize ∧ s.toList = Text.Base58.encode bytes) ∨
          IsName s.toList) := by
  refine ⟨parse_text, fun _ _ => text_inj.mp, fun s => ⟨fun id => ?_, ?_⟩⟩
  · rw [parse_eq_ok_iff, ofChars?_eq_some_iff]
  · simp only [parse_eq_ok_iff, ofChars?_eq_some_iff]
    constructor
    · intro h
      rcases h with ⟨id, hbase | ⟨-, hname, -⟩⟩
      · exact .inl ⟨id.bytes, id.length_bytes, hbase⟩
      · exact .inr hname
    · intro h
      rcases h with ⟨bytes, hlength, hbase⟩ | hname
      · exact ⟨⟨bytes, hlength⟩, .inl hbase⟩
      · by_cases hbase : ∃ other : Identifier kind, s.toList = Text.Base58.encode other.bytes
        · rcases hbase with ⟨other, hother⟩
          exact ⟨other, .inl hother⟩
        · exact ⟨⟨nameBytes s.toList, length_nameBytes hname⟩,
            .inr ⟨not_exists.mp hbase, hname, rfl⟩⟩

-- Thirty-two ones would make a name, but they are base58 of zero bytes.
example : parse (String.ofList (List.replicate 32 '1')) = .ok (zero : AssetId) := by cbv

end Identifier
end SwapPricing
