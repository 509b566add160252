import Mathlib.Data.List.TakeWhile
import Mathlib.Data.Nat.Digits.Lemmas
import SwapPricing.Text.Base58

/-!
# Positional notation

Changing the base of a digit string and changing it back gives the same string,
because the leading zeros are carried over and the other digits are those of the
value.  So base58 reads back the bytes that it writes, and writes the text that it reads.
-/

namespace SwapPricing
namespace Text
namespace Base58

/-!
# Digits and values
-/

theorem value_eq_ofDigits (base : Nat) (ds : List Nat) :
    value base ds = Nat.ofDigits base ds.reverse := by
  unfold value
  rw [Nat.ofDigits_eq_foldr, List.foldr_reverse]
  congr 1
  funext total digit
  rw [Nat.mul_comm, Nat.add_comm]
  rfl

theorem digitsBefore_eq {base : Nat} (hbase : 1 < base) (n : Nat) (tail : List Nat) :
    digitsBefore base n tail = (Nat.digits base n).reverse ++ tail := by
  fun_induction digitsBefore base n tail with
  | case1 n tail hstop =>
      have hzero : n = 0 := by omega
      rw [hzero, Nat.digits_zero]
      rfl
  | case2 n tail hgo ih =>
      have hpos : 0 < n := by omega
      rw [ih, Nat.digits_def' hbase hpos]
      simp

theorem digits_eq {base : Nat} (hbase : 1 < base) (n : Nat) :
    digits base n = (Nat.digits base n).reverse := by
  unfold digits
  rw [digitsBefore_eq hbase, List.append_nil]

theorem value_digits {base : Nat} (hbase : 1 < base) (n : Nat) :
    value base (digits base n) = n := by
  rw [value_eq_ofDigits, digits_eq hbase, List.reverse_reverse, Nat.ofDigits_digits]

theorem digits_value {base : Nat} (hbase : 1 < base) {ds : List Nat}
    (hlt : ∀ d ∈ ds, d < base) (hhead : ds.head? ≠ some 0) :
    digits base (value base ds) = ds := by
  rw [value_eq_ofDigits, digits_eq hbase, Nat.digits_ofDigits base hbase, List.reverse_reverse]
  · intro d hd
    exact hlt d (List.mem_reverse.mp hd)
  · intro hne hlast
    apply hhead
    rw [← List.getLast?_reverse, List.getLast?_eq_some_getLast hne, hlast]

theorem digits_lt {base : Nat} (hbase : 1 < base) {n d : Nat} (hd : d ∈ digits base n) :
    d < base := by
  rw [digits_eq hbase, List.mem_reverse] at hd
  exact Nat.digits_lt_base hbase hd

theorem head?_digits_ne_zero {base : Nat} (hbase : 1 < base) (n : Nat) :
    (digits base n).head? ≠ some 0 := by
  rw [digits_eq hbase, List.head?_reverse]
  intro hlast
  by_cases hn : n = 0
  · rw [hn, Nat.digits_zero] at hlast
    cases hlast
  · have hne : Nat.digits base n ≠ [] := Nat.digits_ne_nil_iff_ne_zero.mpr hn
    rw [List.getLast?_eq_some_getLast hne] at hlast
    exact Nat.getLast_digit_ne_zero base hn (Option.some.inj hlast)

/-!
# Leading zeros
-/

theorem value_append_zeros (base n : Nat) (ds : List Nat) :
    value base (List.replicate n 0 ++ ds) = value base ds := by
  rw [value_eq_ofDigits, value_eq_ofDigits, List.reverse_append, List.reverse_replicate,
    Nat.ofDigits_append_replicate_zero]

theorem leadingZeros_append {ds : List Nat} (hhead : ds.head? ≠ some 0) (n : Nat) :
    leadingZeros (List.replicate n 0 ++ ds) = n := by
  unfold leadingZeros
  have hnil : ds.takeWhile (· = 0) = [] := by
    cases ds with
    | nil => rfl
    | cons d rest =>
        have hd : d ≠ 0 := fun heq => hhead (by rw [heq]; rfl)
        simp [hd]
  rw [List.takeWhile_append_of_pos (by simp), hnil, List.append_nil, List.length_replicate]

theorem eq_zeros_append (ds : List Nat) :
    ds = List.replicate (leadingZeros ds) 0 ++ ds.dropWhile (· = 0) := by
  have hzeros : ds.takeWhile (· = 0) = List.replicate (leadingZeros ds) 0 := by
    apply List.eq_replicate_iff.mpr
    refine ⟨rfl, ?_⟩
    intro d hd
    simpa using List.mem_takeWhile_imp hd
  rw [← hzeros, List.takeWhile_append_dropWhile]

theorem head?_dropWhile_ne_zero (ds : List Nat) :
    (ds.dropWhile (· = 0)).head? ≠ some 0 := by
  intro h
  have hfirst := List.head?_dropWhile_not (fun d : Nat => decide (d = 0)) ds
  rw [h] at hfirst
  simp at hfirst

/-!
# Changing the base
-/

theorem rebase_append {source target : Nat} {ds : List Nat} (hhead : ds.head? ≠ some 0)
    (n : Nat) :
    rebase source target (List.replicate n 0 ++ ds) =
      List.replicate n 0 ++ digits target (value source ds) := by
  unfold rebase
  rw [leadingZeros_append hhead, value_append_zeros]

theorem rebase_rebase {source target : Nat} (hsource : 1 < source) (htarget : 1 < target)
    {ds : List Nat} (hlt : ∀ d ∈ ds, d < source) :
    rebase target source (rebase source target ds) = ds := by
  have hbody : ∀ d ∈ ds.dropWhile (· = 0), d < source := fun d hd =>
    hlt d ((List.dropWhile_suffix _).subset hd)
  -- The zeros in front are counted, and the rest has a first digit that is not zero in
  -- both bases, so the numeral of its value is unique.
  have hhead := head?_dropWhile_ne_zero ds
  rw [eq_zeros_append ds, rebase_append hhead,
    rebase_append (head?_digits_ne_zero htarget _), value_digits htarget,
    digits_value hsource hbody hhead]

theorem rebase_lt {source target : Nat} (htarget : 1 < target) {ds : List Nat} {d : Nat}
    (hd : d ∈ rebase source target ds) : d < target := by
  unfold rebase at hd
  rcases List.mem_append.mp hd with hzero | hdigit
  · rw [List.eq_of_mem_replicate hzero]
    omega
  · exact digits_lt htarget hdigit

/-!
# Text
-/

theorem digit?_character {digit : Nat} (h : digit < 58) :
    digit? (character digit) = some digit := by
  have hall : ∀ d < 58, digit? (character d) = some d := by decide +kernel
  exact hall digit h

theorem mapM_digit?_character {ds : List Nat} (h : ∀ d ∈ ds, d < 58) :
    (ds.map character).mapM digit? = some ds := by
  induction ds with
  | nil => rfl
  | cons d rest ih =>
      rw [List.map_cons, List.mapM_cons, digit?_character (h d List.mem_cons_self),
        ih fun d hd => h d (List.mem_cons_of_mem _ hd)]
      rfl

/-- Base58 reads back what it writes. -/
theorem decode?_encode (bytes : List UInt8) : decode? (encode bytes) = some bytes := by
  have hlt : ∀ d ∈ bytes.map UInt8.toNat, d < 256 := by
    intro d hd
    rcases List.mem_map.mp hd with ⟨byte, -, rfl⟩
    exact byte.toNat_lt
  have hofNat : UInt8.ofNat ∘ UInt8.toNat = id := funext fun _ => UInt8.ofNat_toNat
  unfold decode? encode
  rw [mapM_digit?_character fun d hd => rebase_lt (by decide) hd]
  show some ((rebase 58 256 (rebase 256 58 (bytes.map UInt8.toNat))).map UInt8.ofNat) = some bytes
  rw [rebase_rebase (by decide) (by decide) hlt, List.map_map, hofNat, List.map_id]

/-- The character of the digit that a character stands for is that character. -/
theorem digit?_eq_some {c : Char} {digit : Nat} (h : digit? c = some digit) :
    digit < 58 ∧ character digit = c := by
  rcases List.idxOf?_eq_some_iff.mp h with ⟨hlt, hc, -⟩
  have hlength : alphabet.length = 58 := by decide
  refine ⟨by omega, ?_⟩
  unfold character
  rw [List.getD_eq_getElem?_getD, List.getElem?_eq_getElem hlt, hc, Option.getD_some]

theorem mapM_digit?_eq_some {text : List Char} {ds : List Nat} (h : text.mapM digit? = some ds) :
    (∀ d ∈ ds, d < 58) ∧ ds.map character = text := by
  induction text generalizing ds with
  | nil =>
      cases h
      exact ⟨nofun, rfl⟩
  | cons c rest ih =>
      rw [List.mapM_cons] at h
      rcases Option.bind_eq_some_iff.mp h with ⟨d, hd, h⟩
      rcases Option.bind_eq_some_iff.mp h with ⟨tail, htail, h⟩
      cases h
      rcases digit?_eq_some hd with ⟨hlt, hcharacter⟩
      rcases ih htail with ⟨hall, hmap⟩
      exact ⟨List.forall_mem_cons.mpr ⟨hlt, hall⟩, by rw [List.map_cons, hcharacter, hmap]⟩

/-- Base58 writes what it reads: a text of the alphabet denotes the bytes that it is the
text of, and no others. -/
theorem decode?_eq_some_iff {text : List Char} {bytes : List UInt8} :
    decode? text = some bytes ↔ text = encode bytes := by
  constructor
  · intro h
    rcases Option.bind_eq_some_iff.mp h with ⟨ds, hds, h⟩
    cases h
    rcases mapM_digit?_eq_some hds with ⟨hlt, hmap⟩
    have hbytes : ((rebase 58 256 ds).map UInt8.ofNat).map UInt8.toNat = rebase 58 256 ds := by
      rw [List.map_map]
      conv_rhs => rw [← List.map_id (rebase 58 256 ds)]
      refine List.map_congr_left fun d hd => ?_
      exact UInt8.toNat_ofNat_of_lt' (rebase_lt (by decide) hd)
    unfold encode
    rw [hbytes, rebase_rebase (by decide) (by decide) hlt, hmap]
  · rintro rfl
    exact decode?_encode bytes

end Base58
end Text
end SwapPricing
