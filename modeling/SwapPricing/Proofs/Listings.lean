import SwapPricing.Document.Scan
import SwapPricing.Proofs.Decoding
import SwapPricing.Proofs.IdentifierText

/-!
# Listings

The listing of a program tells its records apart.  A line splits at its blanks into
an address, a mnemonic and argument words; the mnemonic is the opcode's own, and
each argument stands in a word of its own from which it can be told.  So programs
with the same listing have the same records, and under one instruction set the same
bytes.
-/

namespace SwapPricing

/-!
# Splitting
-/

/-- Texts without the separator are the pieces of what they are joined to. -/
theorem splitOn_intercalate_texts {c : Char} {texts : List String}
    (h : ∀ text ∈ texts, c ∉ text.toList) (hne : texts ≠ []) :
    ((String.ofList [c]).intercalate texts).toList.splitOn c = texts.map String.toList := by
  rw [String.toList_intercalate, String.toList_ofList]
  apply List.splitOn_intercalate
  · intro chars hchars
    rcases List.mem_map.mp hchars with ⟨text, htext, rfl⟩
    exact h text htext
  · exact fun hnil => hne (List.map_eq_nil_iff.mp hnil)

theorem eq_of_intercalate_eq {c : Char} {texts others : List String}
    (h : ∀ text ∈ texts, c ∉ text.toList) (hne : texts ≠ [])
    (hother : ∀ text ∈ others, c ∉ text.toList) (hotherne : others ≠ [])
    (heq : (String.ofList [c]).intercalate texts = (String.ofList [c]).intercalate others) :
    texts = others := by
  have hpieces : texts.map String.toList = others.map String.toList := by
    rw [← splitOn_intercalate_texts h hne, heq, splitOn_intercalate_texts hother hotherne]
  exact (List.map_inj_right fun _ _ => String.toList_inj.mp).mp hpieces

theorem not_mem_intercalate {c : Char} {separator : String} (hseparator : c ∉ separator.toList)
    {texts : List String} (h : ∀ text ∈ texts, c ∉ text.toList) :
    c ∉ (separator.intercalate texts).toList := by
  induction texts with
  | nil => exact List.not_mem_nil
  | cons text rest ih =>
      rcases List.forall_mem_cons.mp h with ⟨htext, hrest⟩
      cases rest with
      | nil => rwa [String.intercalate_singleton]
      | cons next more =>
          rw [String.intercalate_cons_cons, String.toList_append, String.toList_append]
          simp only [List.mem_append, not_or]
          exact ⟨⟨htext, hseparator⟩, ih hrest⟩

theorem toList_around (text more : String) (c : Char) :
    (text ++ String.ofList [c] ++ more).toList = text.toList ++ c :: more.toList := by
  simp

/-- A list splits in one way at the first place that holds `c`. -/
theorem append_cons_inj_of_first {α : Type} {c : α} {xs xs' ys ys' : List α} (h : c ∉ xs)
    (h' : c ∉ xs') (heq : xs ++ c :: ys = xs' ++ c :: ys') : xs = xs' ∧ ys = ys' := by
  induction xs generalizing xs' with
  | nil =>
      cases xs' with
      | nil => exact ⟨rfl, List.tail_eq_of_cons_eq heq⟩
      | cons x rest => exact absurd (List.head_eq_of_cons_eq heq ▸ List.mem_cons_self) h'
  | cons x rest ih =>
      cases xs' with
      | nil => exact absurd (List.head_eq_of_cons_eq heq ▸ List.mem_cons_self) h
      | cons x' rest' =>
          obtain ⟨rfl, hrest⟩ := List.cons_eq_cons.mp heq
          rcases ih (fun hmem => h (List.mem_cons_of_mem _ hmem))
            (fun hmem => h' (List.mem_cons_of_mem _ hmem)) hrest with ⟨rfl, hys⟩
          exact ⟨rfl, hys⟩

/-- A list splits in one way at the last place that holds `c`. -/
theorem append_cons_inj_of_last {α : Type} {c : α} {xs xs' ys ys' : List α} (h : c ∉ ys)
    (h' : c ∉ ys') (heq : xs ++ c :: ys = xs' ++ c :: ys') : xs = xs' ∧ ys = ys' := by
  have hreverse : ys.reverse ++ c :: xs.reverse = ys'.reverse ++ c :: xs'.reverse := by
    simpa using congrArg List.reverse heq
  rcases append_cons_inj_of_first (by simpa using h) (by simpa using h') hreverse with ⟨hys, hxs⟩
  exact ⟨List.reverse_inj.mp hxs, List.reverse_inj.mp hys⟩

/-!
# Words

A word is a text of printable characters.
-/

def IsWord (text : String) : Prop :=
  ∀ c ∈ text.toList, Identifier.isGraphic c = true

instance (text : String) : Decidable (IsWord text) :=
  decidable_of_iff (text.toList.all Identifier.isGraphic = true) List.all_eq_true

namespace IsWord

theorem of_all {text : String} (h : text.toList.all Identifier.isGraphic = true) : IsWord text :=
  List.all_eq_true.mp h

@[simp]
theorem append_iff {text more : String} : IsWord (text ++ more) ↔ IsWord text ∧ IsWord more := by
  unfold IsWord
  rw [String.toList_append, List.forall_mem_append]

theorem not_mem {text : String} (h : IsWord text) {c : Char}
    (hc : Identifier.isGraphic c = false) : c ∉ text.toList := by
  intro hmem
  rw [h c hmem] at hc
  cases hc

end IsWord

/-!
# Numerals
-/

theorem toString_text (text : String) : toString text = text :=
  rfl

theorem isGraphic_of_isDigit {c : Char} (h : c.isDigit = true) :
    Identifier.isGraphic c = true := by
  unfold Identifier.isGraphic
  unfold Char.isDigit at h
  rw [Bool.and_eq_true, decide_eq_true_eq, decide_eq_true_eq] at h ⊢
  have hlow : 48 ≤ c.toNat := UInt32.le_iff_toNat_le.mp h.1
  have hhigh : c.toNat ≤ 57 := UInt32.le_iff_toNat_le.mp h.2
  omega

theorem isDigit_of_mem_toString {n : Nat} {c : Char} (h : c ∈ (toString n).toList) :
    c.isDigit = true := by
  rw [Nat.toString_eq_ofList_toDigits, String.toList_ofList] at h
  exact Nat.isDigit_of_mem_toDigits (by decide) (by decide) h

theorem isWord_toString (n : Nat) : IsWord (toString n) :=
  fun _ hc => isGraphic_of_isDigit (isDigit_of_mem_toString hc)

@[simp]
theorem isWord_uint16 (n : UInt16) : IsWord (toString n) :=
  isWord_toString n.toNat

@[simp]
theorem isWord_uint32 (n : UInt32) : IsWord (toString n) :=
  isWord_toString n.toNat

@[simp]
theorem isWord_uint64 (n : UInt64) : IsWord (toString n) :=
  isWord_toString n.toNat

theorem toString_nat_inj {m n : Nat} : toString m = toString n ↔ m = n := by
  refine ⟨fun h => ?_, congrArg toString⟩
  rw [Nat.toString_eq_ofList_toDigits, Nat.toString_eq_ofList_toDigits, String.ofList_inj] at h
  rw [← Nat.ofDigitChars_ten_toDigits (n := m), h, Nat.ofDigitChars_ten_toDigits]

theorem toString_uint16_inj {a b : UInt16} : toString a = toString b ↔ a = b :=
  toString_nat_inj.trans UInt16.toNat_inj

theorem toString_uint32_inj {a b : UInt32} : toString a = toString b ↔ a = b :=
  toString_nat_inj.trans UInt32.toNat_inj

theorem toString_uint64_inj {a b : UInt64} : toString a = toString b ↔ a = b :=
  toString_nat_inj.trans UInt64.toNat_inj

/-!
# Hexadecimal text
-/

namespace Text
namespace Hex

open Document (digitsValue)

theorem digit_spec {n : Nat} (h : n < 16) :
    charValue? (digit n) = some n ∧ Identifier.isGraphic (digit n) = true := by
  have hall : ∀ n < 16, charValue? (digit n) = some n ∧
      Identifier.isGraphic (digit n) = true := by decide
  exact hall n h

theorem digit_inj {m n : Nat} (hm : m < 16) (hn : n < 16) (h : digit m = digit n) : m = n := by
  have hvalue := (digit_spec hm).1
  rw [h, (digit_spec hn).1] at hvalue
  exact (Option.some.inj hvalue).symm

theorem pair_inj {a b : UInt8} (h : pair a = pair b) : a = b := by
  have ha := a.toNat_lt
  have hb := b.toNat_lt
  rcases List.cons_eq_cons.mp h with ⟨hhigh, hrest⟩
  have hhigh := digit_inj (by omega) (by omega) hhigh
  have hlow := digit_inj (by omega) (by omega) (List.head_eq_of_cons_eq hrest)
  apply UInt8.toNat_inj.mp
  omega

theorem flatMap_pair_inj {bytes others : List UInt8}
    (h : bytes.flatMap pair = others.flatMap pair) : bytes = others := by
  induction bytes generalizing others with
  | nil =>
      cases others with
      | nil => rfl
      | cons b rest => cases h
  | cons a rest ih =>
      cases others with
      | nil => cases h
      | cons b more =>
          rw [List.flatMap_cons, List.flatMap_cons] at h
          rcases List.append_inj h rfl with ⟨hpair, hrest⟩
          rw [pair_inj hpair, ih hrest]

@[simp]
theorem encode_inj {bytes others : List UInt8} : encode bytes = encode others ↔ bytes = others := by
  refine ⟨fun h => flatMap_pair_inj ?_, congrArg encode⟩
  unfold encode at h
  exact String.ofList_inj.mp h

@[simp]
theorem isWord_encode (bytes : List UInt8) : IsWord (encode bytes) := by
  intro c hc
  unfold encode at hc
  rw [String.toList_ofList] at hc
  rcases List.mem_flatMap.mp hc with ⟨byte, -, hc⟩
  have hbyte := byte.toNat_lt
  rcases List.mem_pair.mp hc with rfl | rfl
  · exact (digit_spec (by omega)).2
  · exact (digit_spec (by omega)).2

/-- Reading on behind the digits of `n` starts from the value `n`. -/
theorem foldl_digitsBefore (n : Nat) (tail : List Char) :
    (digitsBefore n tail).foldl (fun total c => total * 16 + (charValue? c).getD 0) 0 =
      tail.foldl (fun total c => total * 16 + (charValue? c).getD 0) n := by
  fun_induction digitsBefore n tail with
  | case1 n tail hsmall =>
      rw [List.foldl_cons, (digit_spec hsmall).1, Option.getD_some, Nat.zero_mul, Nat.zero_add]
  | case2 n tail hlarge ih =>
      have hmod : n % 16 < 16 := Nat.mod_lt _ (by decide)
      rw [ih, List.foldl_cons, (digit_spec hmod).1, Option.getD_some, Nat.div_add_mod' n 16]

theorem digitsValue_number (width n : Nat) :
    digitsValue 16 charValue? (number width n).toList = n := by
  have hzeros : ∀ count : Nat, (List.replicate count '0').foldl
      (fun total c => total * 16 + (charValue? c).getD 0) 0 = 0 := by
    intro count
    induction count with
    | zero => rfl
    | succ count ih => exact ih
  unfold digitsValue number
  rw [String.toList_ofList, List.foldl_append, hzeros, foldl_digitsBefore]
  rfl

theorem number_inj {width m n : Nat} : number width m = number width n ↔ m = n := by
  refine ⟨fun h => ?_, congrArg (number width)⟩
  rw [← digitsValue_number width m, h, digitsValue_number]

theorem isGraphic_digitsBefore (n : Nat) {tail : List Char}
    (htail : ∀ c ∈ tail, Identifier.isGraphic c = true) :
    ∀ c ∈ digitsBefore n tail, Identifier.isGraphic c = true := by
  fun_induction digitsBefore n tail with
  | case1 n tail hsmall => exact List.forall_mem_cons.mpr ⟨(digit_spec hsmall).2, htail⟩
  | case2 n tail hlarge ih =>
      have hmod : n % 16 < 16 := Nat.mod_lt _ (by decide)
      exact ih (List.forall_mem_cons.mpr ⟨(digit_spec hmod).2, htail⟩)

theorem isWord_number (width n : Nat) : IsWord (number width n) := by
  intro c hc
  unfold number at hc
  rw [String.toList_ofList, List.mem_append] at hc
  rcases hc with hzero | hdigit
  · rw [List.eq_of_mem_replicate hzero]
    rfl
  · exact isGraphic_digitsBefore n (fun _ hc => absurd hc List.not_mem_nil) c hdigit

end Hex
end Text

/-!
# Identifiers
-/

namespace Identifier

variable {kind : IdentifierKind}

theorem isGraphic_character {digit : Nat} (h : digit < 58) :
    isGraphic (Text.Base58.character digit) = true := by
  have hall : ∀ d < 58, isGraphic (Text.Base58.character d) = true := by decide +kernel
  exact hall digit h

theorem isGraphic_of_mem_base58 {bytes : List UInt8} {c : Char}
    (hc : c ∈ Text.Base58.encode bytes) : isGraphic c = true := by
  unfold Text.Base58.encode at hc
  rcases List.mem_map.mp hc with ⟨digit, hdigit, rfl⟩
  exact isGraphic_character (Text.Base58.rebase_lt (by decide) hdigit)

theorem isGraphic_of_mem_name {id : Identifier kind} {name : List Char} (h : id.name? = some name)
    {c : Char} (hc : c ∈ name) : isGraphic c = true := by
  unfold name? at h
  simp only at h
  split at h
  · rename_i hheld
    cases h
    exact List.all_eq_true.mp hheld.2.2 c hc
  · cases h

@[simp]
theorem isWord_text (id : Identifier kind) : IsWord id.text := by
  intro c hc
  unfold text chars at hc
  rw [String.toList_ofList] at hc
  split at hc
  · rename_i name hname
    split at hc
    · exact isGraphic_of_mem_name hname hc
    · exact isGraphic_of_mem_base58 hc
  · exact isGraphic_of_mem_base58 hc

end Identifier

/-!
# Instructions
-/

namespace Opcode

theorem mnemonic_inj {a b : Opcode} (h : a.mnemonic = b.mnemonic) : a = b := by
  have hall : ∀ a ∈ all, ∀ b ∈ all, a.mnemonic = b.mnemonic → a = b := by decide +kernel
  exact hall a (mem_all a) b (mem_all b) h

theorem isWord_mnemonic (op : Opcode) : IsWord op.mnemonic := by
  have hall : ∀ op ∈ all, op.mnemonic.toList.all Identifier.isGraphic = true := by decide +kernel
  exact .of_all (hall op (mem_all op))

end Opcode

namespace Operation

attribute [ext] Auction Sale ProgressiveFee RateBound GasAdjust

theorem address_inj {offset other : Nat} : address offset = address other ↔ offset = other :=
  (String.append_right_inj "0x").trans Text.Hex.number_inj

@[simp]
theorem isWord_address (offset : Nat) : IsWord (address offset) :=
  IsWord.append_iff.mpr ⟨by decide, Text.Hex.isWord_number 4 offset⟩

theorem rateText_inj {a b : UInt16} : rateText a = rateText b ↔ a = b :=
  (String.append_left_inj "bps").trans toString_uint16_inj

theorem not_mem_toString {n : Nat} {c : Char} (hc : c.isDigit = false) :
    c ∉ (toString n).toList := by
  intro hmem
  rw [isDigit_of_mem_toString hmem] at hc
  cases hc

/-- The amounts of a bound stand around its only colon. -/
theorem boundText_inj {a b : RateBound} :
    toString a.lower ++ ":" ++ toString a.higher = toString b.lower ++ ":" ++ toString b.higher ↔
      a = b := by
  refine ⟨fun h => ?_, fun h => by rw [h]⟩
  have hchars : (toString a.lower).toList ++ ':' :: (toString a.higher).toList =
      (toString b.lower).toList ++ ':' :: (toString b.higher).toList :=
    (toList_around _ _ ':').symm.trans ((congrArg String.toList h).trans (toList_around _ _ ':'))
  rcases append_cons_inj_of_first (not_mem_toString rfl) (not_mem_toString rfl) hchars with
    ⟨hlower, hhigher⟩
  have hlower := toString_uint64_inj.mp (String.toList_inj.mp hlower)
  have hhigher := toString_uint64_inj.mp (String.toList_inj.mp hhigher)
  exact RateBound.ext hlower hhigher

/-- The amount of an entry stands behind its last equals sign; a name may hold others. -/
theorem entryWords_inj {entries others : Entries} :
    entryWords entries = entryWords others ↔ entries = others := by
  refine ⟨fun h => ?_, congrArg entryWords⟩
  refine (List.map_inj_right ?_).mp h
  rintro ⟨asset, amount⟩ ⟨asset', amount'⟩ heq
  have hchars : asset.text.toList ++ '=' :: (toString amount).toList =
      asset'.text.toList ++ '=' :: (toString amount').toList :=
    (toList_around _ _ '=').symm.trans ((congrArg String.toList heq).trans (toList_around _ _ '='))
  rcases append_cons_inj_of_last (not_mem_toString rfl) (not_mem_toString rfl) hchars with
    ⟨hasset, hamount⟩
  rw [Identifier.text_inj.mp (String.toList_inj.mp hasset),
    toString_uint64_inj.mp (String.toList_inj.mp hamount)]

@[simp]
theorem isWord_rateText (rate : UInt16) : IsWord (rateText rate) :=
  IsWord.append_iff.mpr ⟨isWord_uint16 rate, by decide⟩

theorem isWord_entryWords {entries : Entries} : ∀ word ∈ entryWords entries, IsWord word := by
  intro word hword
  rcases List.mem_map.mp hword with ⟨⟨asset, amount⟩, -, rfl⟩
  exact IsWord.append_iff.mpr
    ⟨IsWord.append_iff.mpr ⟨asset.isWord_text, by decide⟩, isWord_uint64 amount⟩

theorem isWord_argumentWords (i : Instruction) : ∀ word ∈ i.argumentWords, IsWord word := by
  cases i with
  | staticBalances balances => exact isWord_entryWords
  | dynamicBalances balances => exact isWord_entryWords
  | growLiquidity deltas => exact isWord_entryWords
  | extruction logic input =>
      simp only [argumentWords]
      split <;> simp
  -- What is left beside the arguments are the fixed parts of the words.
  | _ =>
      simp only [argumentWords, toString_text, List.forall_mem_cons]
      simp +decide

/-- The arguments can be told from their words, since the opcode says how many of them
there are and how each is written. -/
theorem eq_of_argumentWords_eq {i j : Instruction} (hop : i.opcode = j.opcode)
    (hwords : i.argumentWords = j.argumentWords) : i = j := by
  cases i <;> cases j <;> cases hop
  -- Only the input of external logic may be left out, where it is empty.
  case extruction.extruction.refl logic input logic' input' =>
    simp only [argumentWords] at hwords
    split at hwords <;> split at hwords <;> simp_all
  all_goals
    simp only [argumentWords, List.cons.injEq, and_true, String.append_right_inj, address_inj,
      rateText_inj, boundText_inj, entryWords_inj, Identifier.text_inj, Text.Hex.encode_inj,
      toString_text, toString_uint32_inj, toString_uint64_inj, UInt16.toNat_inj] at hwords
    simp [Auction.ext_iff, Sale.ext_iff, ProgressiveFee.ext_iff, GasAdjust.ext_iff, hwords]

end Operation

/-!
# Lines
-/

namespace Record

/-- The words of a line.  The second is the empty one between its two blanks. -/
def words (r : Record) : List String :=
  Operation.address r.offset :: "" :: r.opcode.mnemonic :: r.instruction.argumentWords

theorem text_eq_words (r : Record) : r.text = (String.ofList [' ']).intercalate r.words := by
  have hblanks : ("  " : String) = " " ++ " " := rfl
  unfold text words
  rw [String.intercalate_cons_cons, String.intercalate_cons_cons, hblanks, String.empty_append]
  simp only [String.append_assoc]
  rfl

theorem isWord_words (r : Record) : ∀ word ∈ r.words, IsWord word := by
  unfold words
  simp only [List.forall_mem_cons]
  exact ⟨Operation.isWord_address r.offset, by decide, r.opcode.isWord_mnemonic,
    Operation.isWord_argumentWords r.instruction⟩

theorem text_inj {r r' : Record} : r.text = r'.text ↔ r = r' := by
  refine ⟨fun h => ?_, congrArg text⟩
  rw [text_eq_words, text_eq_words] at h
  have hwords : r.words = r'.words :=
    eq_of_intercalate_eq (fun word hword => (r.isWord_words word hword).not_mem rfl)
      (List.cons_ne_nil _ _) (fun word hword => (r'.isWord_words word hword).not_mem rfl)
      (List.cons_ne_nil _ _) h
  unfold words at hwords
  simp only [List.cons.injEq, true_and] at hwords
  rcases hwords with ⟨haddress, hmnemonic, harguments⟩
  have hoffset := Operation.address_inj.mp haddress
  have hinstruction :=
    Operation.eq_of_argumentWords_eq (Opcode.mnemonic_inj hmnemonic) harguments
  cases r
  cases r'
  cases hoffset
  cases hinstruction
  rfl

theorem newline_not_mem_text (r : Record) : '\n' ∉ r.text.toList := by
  rw [text_eq_words]
  exact not_mem_intercalate (by decide) fun word hword => (r.isWord_words word hword).not_mem rfl

end Record

namespace Program

theorem listing_eq_lines (p : Program) :
    p.listing = (String.ofList ['\n']).intercalate (p.records.toList.map Record.text ++ [""]) := by
  unfold listing
  induction p.records.toList with
  | nil => rfl
  | cons r rest ih =>
      rw [List.map_cons, String.join_cons, ih, List.map_cons, List.cons_append,
        String.intercalate_cons_of_ne_nil (by simp)]

/-- Behind the last line stands nothing. -/
theorem splitOn_listing (p : Program) :
    p.listing.toList.splitOn '\n' = p.records.toList.map (fun r => r.text.toList) ++ [[]] := by
  rw [listing_eq_lines, splitOn_intercalate_texts]
  · rw [List.map_append, List.map_map]
    rfl
  · intro text htext
    rcases List.mem_append.mp htext with hline | hlast
    · rcases List.mem_map.mp hline with ⟨r, -, rfl⟩
      exact r.newline_not_mem_text
    · rw [List.mem_singleton.mp hlast]
      exact List.not_mem_nil
  · exact List.append_ne_nil_of_right_ne_nil _ (List.cons_ne_nil _ _)

theorem records_eq_of_listing_eq {p q : Program} (h : p.listing = q.listing) :
    p.records = q.records := by
  have hlines := p.splitOn_listing
  rw [h, q.splitOn_listing] at hlines
  have hrecords : q.records.toList = p.records.toList := by
    refine (List.map_inj_right fun r r' heq => ?_).mp (List.append_cancel_right hlines)
    exact Record.text_inj.mp (String.toList_inj.mp heq)
  exact (Array.toList_inj.mp hrecords).symm

/-- Under one instruction set the records of a program tell its bytes. -/
theorem records_eq_iff {set : InstructionSet} {id id' : ProgramId} {bytes bytes' : List UInt8}
    {p q : Program} (hp : decode set id bytes = .ok p) (hq : decode set id' bytes' = .ok q) :
    p.records = q.records ↔ bytes = bytes' := by
  rcases decode_eq_ok_iff.mp hp with ⟨is, hencodes, rfl⟩
  rcases decode_eq_ok_iff.mp hq with ⟨js, hencodes', rfl⟩
  constructor
  · intro h
    have hplaced : Record.placed 0 is = Record.placed 0 js := List.toArray_inj h
    have hinstructions : is = js := by
      rw [← Record.map_instruction_placed 0 is, hplaced, Record.map_instruction_placed]
    have hbytes := hencodes.encode?_eq
    rw [hinstructions, hencodes'.encode?_eq] at hbytes
    exact (Option.some.inj hbytes).symm
  · rintro rfl
    have hread : Record.decodeAll set 0 bytes = .ok (Record.placed 0 is) :=
      Record.decodeAll_eq_ok_iff.mpr ⟨is, hencodes.recordable, hencodes.encode?_eq, rfl⟩
    have hread' : Record.decodeAll set 0 bytes = .ok (Record.placed 0 js) :=
      Record.decodeAll_eq_ok_iff.mpr ⟨js, hencodes'.recordable, hencodes'.encode?_eq, rfl⟩
    rw [hread] at hread'
    exact congrArg List.toArray (Except.ok.inj hread')

/-- A listing has one line for each record, and under one instruction set programs with
the same listing have the same bytes. -/
theorem listing_lossless (set : InstructionSet) :
    (∀ p : Program,
      p.listing.toList.splitOn '\n' = p.records.toList.map (fun r => r.text.toList) ++ [[]]) ∧
    ∀ {id id' : ProgramId} {bytes bytes' : List UInt8} {p q : Program},
      decode set id bytes = .ok p → decode set id' bytes' = .ok q →
        (p.listing = q.listing ↔ bytes = bytes') := by
  refine ⟨splitOn_listing, fun hp hq => ?_⟩
  rw [← records_eq_iff hp hq]
  exact ⟨records_eq_of_listing_eq, fun h => by unfold listing; rw [h]⟩

/-- A program that holds one asset. -/
def holdingBytes (asset : AssetId) (amount : UInt64) : List UInt8 :=
  Operation.recorded 7 (.staticBalances [(asset, amount)])

/-- One unit of the asset that is called `A=6` is not listed as 61 units of `A`. -/
theorem listing_ne_of_equals_sign :
    ∃ p q,
      decode .full .zero (holdingBytes (.padded [65, 61, 54] (by decide)) 1) = .ok p ∧
      decode .full .zero (holdingBytes (.padded [65] (by decide)) 61) = .ok q ∧
      p.listing ≠ q.listing := by
  have hp : decode .full .zero (holdingBytes (.padded [65, 61, 54] (by decide)) 1) =
      .ok ⟨.zero, (holdingBytes (.padded [65, 61, 54] (by decide)) 1).toArray,
        #[⟨0, .staticBalances [(.padded [65, 61, 54] (by decide), 1)]⟩]⟩ := by
    decide +kernel
  have hq : decode .full .zero (holdingBytes (.padded [65] (by decide)) 61) =
      .ok ⟨.zero, (holdingBytes (.padded [65] (by decide)) 61).toArray,
        #[⟨0, .staticBalances [(.padded [65] (by decide), 61)]⟩]⟩ := by
    decide +kernel
  exact ⟨_, _, hp, hq, fun h => absurd (((listing_lossless .full).2 hp hq).mp h) (by decide)⟩

end Program
end SwapPricing
