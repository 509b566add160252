import Mathlib
import SwapPricing.Price
import SwapPricing.Proofs.Roots

/-!
# Decimal prices

A price is read in two parts, each as a numeral of its own, and the part behind the point
is filled up with zeros first.  Where no part has a sign of its own, the texts that are
read are the decimals of at most eighteen places, and what is read is the number that they
denote.
-/

namespace SwapPricing

namespace Text
namespace Numeral

/-!
# Numerals
-/

theorem digit?_eq_some_iff {c : Char} {d : Nat} :
    digit? c = some d ↔ c.isDigit = true ∧ d = c.toNat - '0'.toNat := by
  have hdigit : '0' ≤ c ∧ c ≤ '9' ↔ c.isDigit = true := by
    simp only [Char.isDigit, Bool.and_eq_true, decide_eq_true_eq]
    rfl
  unfold digit?
  split
  · rename_i h
    rw [Option.some.injEq, eq_comm]
    exact (and_iff_right (hdigit.mp h)).symm
  · rename_i h
    exact iff_of_false nofun fun hc => h (hdigit.mpr hc.1)

theorem le_ofDigitChars (digits : List Char) (init : Nat) :
    init ≤ Nat.ofDigitChars 10 digits init := by
  rw [Nat.ofDigitChars_eq_ofDigitChars_zero]
  exact Nat.le_trans (Nat.le_mul_of_pos_left init (Nat.pow_pos (by decide)))
    (Nat.le_add_right _ _)

/-- Reading on succeeds exactly on digits whose value stays within the limit. -/
theorem accumulate_eq_ok_iff {limit total n : Nat} {text : List Char} (h : total ≤ limit) :
    accumulate limit total text = .ok n ↔
      (∀ c ∈ text, c.isDigit = true) ∧ n = Nat.ofDigitChars 10 text total ∧ n ≤ limit := by
  induction text generalizing total with
  | nil =>
      rw [accumulate, Except.ok.injEq, eq_comm]
      constructor
      · rintro rfl
        exact ⟨nofun, rfl, h⟩
      · exact fun hn => hn.2.1
  | cons c rest ih =>
      rw [accumulate, List.forall_mem_cons, Nat.ofDigitChars_cons]
      cases hc : digit? c with
      | none =>
          refine iff_of_false nofun ?_
          rintro ⟨⟨hdigit, -⟩, -⟩
          cases hc.symm.trans (digit?_eq_some_iff.mpr ⟨hdigit, rfl⟩)
      | some d =>
          rcases digit?_eq_some_iff.mp hc with ⟨hdigit, rfl⟩
          dsimp only
          rw [Nat.mul_comm total]
          split
          · rename_i hlarge
            refine iff_of_false nofun ?_
            rintro ⟨-, rfl, hle⟩
            exact Nat.not_lt_of_le (Nat.le_trans (le_ofDigitChars _ _) hle) hlarge
          · rename_i hfit
            rw [ih (Nat.le_of_not_lt hfit)]
            simp [hdigit]

/-- A text that does not begin with a sign is read if it is a run of digits. -/
theorem read_eq_ok_iff {limit n : Nat} {text : List Char} (hsign : text.head? ≠ some '+') :
    read limit text = .ok n ↔
      text ≠ [] ∧ (∀ c ∈ text, c.isDigit = true) ∧ n = Nat.ofDigitChars 10 text 0 ∧
        n ≤ limit := by
  cases text with
  | nil => simp [read]
  | cons c rest =>
      have hne : c ≠ '+' := fun heq => hsign (congrArg some heq)
      have hread : read limit (c :: rest) = accumulate limit 0 (c :: rest) := by
        unfold read
        split
        · rename_i heq
          cases heq
        · rename_i heq
          cases heq
          exact absurd rfl hne
        · rename_i heq
          cases heq
          exact absurd rfl hne
        · rfl
      rw [hread, accumulate_eq_ok_iff (Nat.zero_le _)]
      simp

theorem ofDigitChars_lt {digits : List Char} (h : ∀ c ∈ digits, c.isDigit = true) :
    Nat.ofDigitChars 10 digits 0 < 10 ^ digits.length := by
  induction digits with
  | nil => exact Nat.one_pos
  | cons c rest ih =>
      rcases List.forall_mem_cons.mp h with ⟨hc, hrest⟩
      have hdigit : c.toNat - '0'.toNat < 10 := by
        have hle := (Char.isDigit_iff_toNat.mp hc).2
        have hnine : '9'.toNat = '0'.toNat + 9 := rfl
        omega
      have hlt := ih hrest
      rw [Nat.ofDigitChars_cons, Nat.mul_zero, Nat.zero_add, Nat.ofDigitChars_eq_ofDigitChars_zero,
        List.length_cons, Nat.pow_succ]
      nlinarith

theorem length_le_utf8ByteSize (text : List Char) :
    text.length ≤ (String.ofList text).utf8ByteSize := by
  rw [String.utf8ByteSize_ofList]
  induction text with
  | nil => exact Nat.le_refl _
  | cons c rest ih =>
      have hpos := c.utf8Size_pos
      rw [String.utf8Len_cons, List.length_cons]
      omega

theorem utf8ByteSize_digits {digits : List Char} (h : ∀ c ∈ digits, c.isDigit = true) :
    (String.ofList digits).utf8ByteSize = digits.length := by
  rw [String.utf8ByteSize_ofList]
  induction digits with
  | nil => rfl
  | cons c rest ih =>
      rcases List.forall_mem_cons.mp h with ⟨hc, hrest⟩
      have hascii : c.utf8Size = 1 := by
        rw [Char.utf8Size_eq_one_iff, UInt32.le_iff_toNat_le]
        exact Nat.le_trans (Char.isDigit_iff_toNat.mp hc).2 (by decide)
      rw [String.utf8Len_cons, hascii, ih hrest, List.length_cons]

end Numeral
end Text

namespace Price

open Arithmetic (wad wideSize wide)
open Text.Numeral (ofDigitChars_lt length_le_utf8ByteSize utf8ByteSize_digits)

/-!
# Decimals
-/

/-- The number that a run of digits denotes. -/
def number (digits : List Char) : Nat :=
  Nat.ofDigitChars 10 digits 0

/-- The decimals of at most eighteen places, and the numbers that they denote: digits, and
perhaps a point with digits behind it.  There may be no digits on either side. -/
inductive Denotes : List Char → ℚ → Prop
  | whole {digits : List Char} (h : ∀ c ∈ digits, c.isDigit = true) :
      Denotes digits (number digits)
  | pointed {whole places : List Char} (hwhole : ∀ c ∈ whole, c.isDigit = true)
      (hplaces : ∀ c ∈ places, c.isDigit = true) (hprecise : places.length ≤ precision) :
      Denotes (whole ++ '.' :: places) (number whole + number places / 10 ^ places.length)

/-- Neither part of a price begins with a sign. -/
structure Unsigned (text : String) : Prop where
  whole : (split text.toList).1.head? ≠ some '+'
  places : (split text.toList).2.head? ≠ some '+'

/-!
# Parts
-/

theorem split_whole {chars : List Char} (h : ∀ c ∈ chars, c ≠ '.') : split chars = (chars, []) := by
  have hall : ∀ c ∈ chars, decide (c ≠ '.') = true := fun c hc => decide_eq_true (h c hc)
  unfold split
  rw [List.takeWhile_eq_self_iff.mpr hall, List.dropWhile_eq_nil_iff.mpr hall]
  rfl

theorem split_pointed {whole : List Char} (h : ∀ c ∈ whole, c ≠ '.') (places : List Char) :
    split (whole ++ '.' :: places) = (whole, places) := by
  have hall : ∀ c ∈ whole, decide (c ≠ '.') = true := fun c hc => decide_eq_true (h c hc)
  unfold split
  rw [List.takeWhile_append_of_pos hall, List.dropWhile_append_of_pos hall]
  simp

theorem ne_point_of_isDigit {c : Char} (h : c.isDigit = true) : c ≠ '.' := by
  rintro rfl
  cases h

/-- A text is its whole part, or the point and the places follow. -/
theorem eq_of_split {chars whole places : List Char} (h : split chars = (whole, places)) :
    chars = whole ∧ places = [] ∨ chars = whole ++ '.' :: places := by
  cases hrest : chars.dropWhile (· ≠ '.') with
  | nil =>
      have hall := List.dropWhile_eq_nil_iff.mp hrest
      rw [split_whole fun c hc => of_decide_eq_true (hall c hc)] at h
      cases h
      exact .inl ⟨rfl, rfl⟩
  | cons c rest =>
      have hc : c = '.' := by
        have hfirst := List.head?_dropWhile_not (fun c : Char => decide (c ≠ '.')) chars
        rw [hrest] at hfirst
        simpa using hfirst
      have hchars := List.takeWhile_append_dropWhile (p := fun c : Char => decide (c ≠ '.'))
        (l := chars)
      unfold split at h
      rw [hrest] at h hchars
      cases h
      rw [hc] at hchars
      exact .inr hchars.symm

/-- What the parts of a decimal denote together, as a fixed-point fraction. -/
def scaled (whole places : List Char) : Nat :=
  number whole * wad + number places * 10 ^ (precision - places.length)

theorem cast_scaled {places : List Char} (whole : List Char) (h : places.length ≤ precision) :
    (scaled whole places : ℚ) =
      (number whole + number places / 10 ^ places.length) * 10 ^ 18 := by
  have hpow : (10 : ℚ) ^ 18 = 10 ^ (precision - places.length) * 10 ^ places.length := by
    rw [← pow_add, Nat.sub_add_cancel h]
    rfl
  have hplaces : (10 : ℚ) ^ places.length ≠ 0 := by positivity
  have hwad : (wad : ℚ) = 10 ^ 18 := by norm_num [wad]
  rw [scaled, Nat.cast_add, Nat.cast_mul, Nat.cast_mul, hwad, add_mul, Nat.cast_pow, Nat.cast_ofNat]
  congr 1
  rw [hpow]
  field_simp

/-- A decimal denotes what its parts denote. -/
theorem denotes_iff {chars whole places : List Char} (h : split chars = (whole, places)) {q : ℚ} :
    Denotes chars q ↔ (∀ c ∈ whole, c.isDigit = true) ∧ (∀ c ∈ places, c.isDigit = true) ∧
      places.length ≤ precision ∧ q = number whole + number places / 10 ^ places.length := by
  constructor
  · intro hq
    cases hq with
    | whole hdigits =>
        rw [split_whole fun c hc => ne_point_of_isDigit (hdigits c hc)] at h
        cases h
        refine ⟨hdigits, nofun, Nat.zero_le _, ?_⟩
        simp [number]
    | pointed hwhole hplaces hprecise =>
        rw [split_pointed fun c hc => ne_point_of_isDigit (hwhole c hc)] at h
        cases h
        exact ⟨hwhole, hplaces, hprecise, rfl⟩
  · rintro ⟨hwhole, hplaces, hprecise, rfl⟩
    rcases eq_of_split h with ⟨rfl, rfl⟩ | rfl
    · have hdigits := Denotes.whole hwhole
      simpa [number] using hdigits
    · exact .pointed hwhole hplaces hprecise

/-!
# Reading
-/

theorem part_eq_ok_iff {text : String} {chars : List Char} {n : Nat}
    (hsign : chars.head? ≠ some '+') :
    part text chars = .ok n ↔
      (∀ c ∈ chars, c.isDigit = true) ∧ n = number chars ∧ n ≤ largest := by
  unfold part number
  split
  · rename_i hempty
    rw [hempty, Except.ok.injEq, eq_comm]
    constructor
    · rintro rfl
      exact ⟨nofun, rfl, Nat.zero_le _⟩
    · exact fun h => h.2.1
  · rename_i hne
    rw [mapError_eq_ok_iff, Text.Numeral.read_eq_ok_iff hsign]
    exact and_iff_right hne

theorem number_padded (places : List Char) :
    number (padded places) = number places * 10 ^ (precision - places.length) := by
  unfold number padded
  rw [Nat.ofDigitChars_append, Nat.ofDigitChars_replicate_zero, Nat.mul_comm]

/-- Filling places up with zeros neither hides nor adds a character that is no digit. -/
theorem isDigit_padded_iff {places : List Char} :
    (∀ c ∈ padded places, c.isDigit = true) ↔ ∀ c ∈ places, c.isDigit = true := by
  unfold padded
  rw [List.forall_mem_append]
  refine and_iff_left fun c hc => ?_
  rw [List.eq_of_mem_replicate hc]
  rfl

theorem head?_padded {places : List Char} (h : places ≠ []) :
    (padded places).head? = places.head? :=
  List.head?_append_of_ne_nil _ h

/-- Eighteen places always fit. -/
theorem number_padded_le {places : List Char} (hdigits : ∀ c ∈ places, c.isDigit = true)
    (hprecise : places.length ≤ precision) :
    number places * 10 ^ (precision - places.length) ≤ largest := by
  have hlt := ofDigitChars_lt (isDigit_padded_iff.mpr hdigits)
  have hlength : (padded places).length = precision := by
    rw [padded, List.length_append, List.length_replicate, Nat.add_sub_cancel' hprecise]
  have hfit : 10 ^ precision ≤ largest := by decide
  rw [hlength] at hlt
  rw [← number_padded]
  exact Nat.le_trans (Nat.le_of_lt hlt) hfit

theorem part_places_eq_ok_iff {text : String} {places : List Char} {n : Nat}
    (hsign : places.head? ≠ some '+') (hprecise : places.length ≤ precision) :
    part text (if places = [] then [] else padded places) = .ok n ↔
      (∀ c ∈ places, c.isDigit = true) ∧
        n = number places * 10 ^ (precision - places.length) := by
  split
  · rename_i hempty
    rw [part_eq_ok_iff (by simp), hempty]
    simp [number]
    omega
  · rename_i hne
    rw [part_eq_ok_iff (head?_padded hne ▸ hsign), isDigit_padded_iff, number_padded]
    constructor
    · exact fun h => ⟨h.1, h.2.1⟩
    · rintro ⟨hdigits, rfl⟩
      exact ⟨hdigits, rfl, number_padded_le hdigits hprecise⟩

/-- Reading succeeds exactly on the parts of a decimal whose fixed-point fraction fits. -/
theorem parse_eq_ok_iff {text : String} {w : BitVec 128} {whole places : List Char}
    (hsplit : split text.toList = (whole, places)) (hunsigned : Unsigned text) :
    parse text = .ok w ↔ (∀ c ∈ whole, c.isDigit = true) ∧ (∀ c ∈ places, c.isDigit = true) ∧
      places.length ≤ precision ∧ w.toNat = scaled whole places := by
  rcases hunsigned with ⟨hwhole, hplaces⟩
  rw [hsplit] at hwhole hplaces
  unfold parse
  rw [hsplit]
  dsimp only
  constructor
  · intro h
    split at h
    · cases h
    · rename_i hsize
      have hprecise : places.length ≤ precision :=
        Nat.le_trans (length_le_utf8ByteSize places) (Nat.le_of_not_lt hsize)
      simp only [bind_eq_ok_iff, mapError_eq_ok_iff, part_eq_ok_iff hwhole,
        part_places_eq_ok_iff hplaces hprecise, Arithmetic.wide_eq_ok_iff] at h
      rcases h with ⟨m, ⟨hdigits, rfl, -⟩, n, ⟨hplaceDigits, rfl⟩, hw⟩
      exact ⟨hdigits, hplaceDigits, hprecise, hw⟩
  · rintro ⟨hdigits, hplaceDigits, hprecise, hw⟩
    have hlargest : number whole ≤ largest := by
      have hfit : scaled whole places < wideSize := hw ▸ w.isLt
      have hscale : number whole * 1 ≤ number whole * wad := Nat.mul_le_mul_left _ (by decide)
      unfold scaled at hfit
      unfold largest
      omega
    rw [if_neg (by rw [utf8ByteSize_digits hplaceDigits]; omega),
      (part_eq_ok_iff hwhole).mpr ⟨hdigits, rfl, hlargest⟩, ok_bind,
      (part_places_eq_ok_iff hplaces hprecise).mpr ⟨hplaceDigits, rfl⟩, ok_bind,
      mapError_eq_ok_iff, Arithmetic.wide_eq_ok_iff]
    exact hw

/-- Of texts without signs of their own on either part, exactly the decimals of at most
eighteen places whose number fits in 128 bits as a fixed-point fraction are prices, and a
price is that number. -/
theorem price_iff_decimal {text : String} (hunsigned : Unsigned text) :
    (∀ w : BitVec 128, parse text = .ok w ↔
      ∃ q, Denotes text.toList q ∧ (w.toNat : ℚ) = q * 10 ^ 18) ∧
    ((∃ w, parse text = .ok w) ↔ ∃ q, Denotes text.toList q ∧ q * 10 ^ 18 < 2 ^ 128) := by
  rcases hsplit : split text.toList with ⟨whole, places⟩
  have hprice : ∀ w : BitVec 128, parse text = .ok w ↔
      ∃ q, Denotes text.toList q ∧ (w.toNat : ℚ) = q * 10 ^ 18 := by
    intro w
    simp only [parse_eq_ok_iff hsplit hunsigned, denotes_iff hsplit]
    constructor
    · rintro ⟨hwhole, hplaces, hprecise, hw⟩
      exact ⟨_, ⟨hwhole, hplaces, hprecise, rfl⟩, by rw [hw, cast_scaled whole hprecise]⟩
    · rintro ⟨q, ⟨hwhole, hplaces, hprecise, rfl⟩, hw⟩
      rw [← cast_scaled whole hprecise] at hw
      exact ⟨hwhole, hplaces, hprecise, by exact_mod_cast hw⟩
  refine ⟨hprice, ?_⟩
  constructor
  · rintro ⟨w, hw⟩
    rcases (hprice w).mp hw with ⟨q, hq, hvalue⟩
    refine ⟨q, hq, ?_⟩
    rw [← hvalue]
    exact_mod_cast w.isLt
  · rintro ⟨q, hq, hfit⟩
    rcases (denotes_iff hsplit).mp hq with ⟨-, -, hprecise, hvalue⟩
    rw [hvalue, ← cast_scaled whole hprecise] at hfit
    have hword : scaled whole places < wideSize := by exact_mod_cast hfit
    rcases Arithmetic.exists_wide .overflow hword with ⟨w, -, hw⟩
    exact ⟨w, (hprice w).mpr ⟨q, hq, by rw [hw, hvalue, cast_scaled whole hprecise]⟩⟩

/-- Two thousand and a half is a price, and the least decimal beyond 128 bits is none. -/
theorem price_iff_decimal_at_limit :
    Unsigned "2000.5" ∧ parse "2000.5" = .ok 2000500000000000000000#128 ∧
    Unsigned "340282366920938463463.374607431768211456" ∧
    ¬ ∃ w, parse "340282366920938463463.374607431768211456" = .ok w := by
  have hhalf : Unsigned "2000.5" := ⟨by decide +kernel, by decide +kernel⟩
  have hlimit : Unsigned "340282366920938463463.374607431768211456" :=
    ⟨by decide +kernel, by decide +kernel⟩
  refine ⟨hhalf, ?_, hlimit, ?_⟩
  · have hparts : split "2000.5".toList = ("2000".toList, "5".toList) := by decide +kernel
    have hwhole : number "2000".toList = 2000 := by decide +kernel
    have hplaces : number "5".toList = 5 := by decide +kernel
    have hlength : "5".toList.length = 1 := by decide +kernel
    have hdigits : (∀ c ∈ "2000".toList, c.isDigit = true) ∧ ∀ c ∈ "5".toList, c.isDigit = true :=
      ⟨List.all_eq_true.mp (by decide +kernel), List.all_eq_true.mp (by decide +kernel)⟩
    have hdenotes := (denotes_iff hparts).mpr ⟨hdigits.1, hdigits.2, by decide +kernel, rfl⟩
    rw [hwhole, hplaces, hlength] at hdenotes
    exact ((price_iff_decimal hhalf).1 _).mpr ⟨_, hdenotes, by norm_num⟩
  · intro h
    rcases (price_iff_decimal hlimit).2.mp h with ⟨q, hq, hfit⟩
    have hparts : split "340282366920938463463.374607431768211456".toList =
        ("340282366920938463463".toList, "374607431768211456".toList) := by decide +kernel
    have hwhole : number "340282366920938463463".toList = 340282366920938463463 := by
      decide +kernel
    have hplaces : number "374607431768211456".toList = 374607431768211456 := by decide +kernel
    have hlength : "374607431768211456".toList.length = 18 := by decide +kernel
    rw [((denotes_iff hparts).mp hq).2.2.2, hwhole, hplaces, hlength] at hfit
    norm_num at hfit

/-- A sign behind the point takes the place of a digit: one and a twentieth is read where no
number is written. -/
theorem price_of_signed_place :
    parse "1.+5" = .ok 1050000000000000000#128 ∧ ∀ q, ¬ Denotes "1.+5".toList q := by
  refine ⟨by decide +kernel, fun q hq => ?_⟩
  have hsplit : split "1.+5".toList = (['1'], ['+', '5']) := by decide
  exact absurd (((denotes_iff hsplit).mp hq).2.1 '+' (by decide)) (by decide)

end Price

end SwapPricing
