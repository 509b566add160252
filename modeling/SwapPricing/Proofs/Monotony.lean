import SwapPricing.Proofs.CostInverse

/-!
# Order of calculations

Every calculation of a trade is monotone in each of its amounts: more input and more
of the output asset buy more, more of the input asset buys less, and what rounds an
amount never changes the order of two of them.
-/

namespace SwapPricing
namespace Arithmetic

/-!
# Products over a divisor
-/

section Scaling

variable {a a' b b' d d' c c' : UInt64}

theorem mulDivFloor_mono (ha : a ≤ a') (hb : b ≤ b') (hd : d' ≤ d)
    (h : mulDivFloor a b d = .ok c) (h' : mulDivFloor a' b' d' = .ok c') : c ≤ c' := by
  rw [UInt64.le_iff_toNat_le] at ha hb hd ⊢
  rcases mulDivFloor_eq_ok_iff.mp h with ⟨-, hc⟩
  rcases mulDivFloor_eq_ok_iff.mp h' with ⟨hne, hc'⟩
  rw [hc, hc']
  exact Nat.div_le_div (Nat.mul_le_mul ha hb) hd fun hzero => hne (UInt64.toNat_inj.mp hzero)

theorem mulDivCeil_mono (ha : a ≤ a') (hb : b ≤ b') (hd : d' ≤ d)
    (h : mulDivCeil a b d = .ok c) (h' : mulDivCeil a' b' d' = .ok c') : c ≤ c' := by
  rw [UInt64.le_iff_toNat_le] at ha hb hd ⊢
  rcases mulDivCeil_eq_ok_iff.mp h with ⟨hne, hc⟩
  rcases mulDivCeil_eq_ok_iff.mp h' with ⟨hne', hc'⟩
  have hpos : 0 < d.toNat := Nat.pos_of_ne_zero fun hzero => hne (UInt64.toNat_inj.mp hzero)
  have hpos' : 0 < d'.toNat := Nat.pos_of_ne_zero fun hzero => hne' (UInt64.toNat_inj.mp hzero)
  rw [hc, ceilDiv_le_iff_le_mul hpos]
  calc a.toNat * b.toNat ≤ a'.toNat * b'.toNat := Nat.mul_le_mul ha hb
    _ ≤ d'.toNat * c'.toNat := (ceilDiv_le_iff_le_mul hpos').mp (Nat.le_of_eq hc'.symm)
    _ ≤ d.toNat * c'.toNat := Nat.mul_le_mul_right _ hd

theorem gain_mono (ha : a ≤ a') (hb : b ≤ b') (h : gain a b = .ok c) (h' : gain a' b' = .ok c') :
    c ≤ c' := by
  rw [UInt64.le_iff_toNat_le] at ha hb ⊢
  rw [gain_eq_ok_iff.mp h, gain_eq_ok_iff.mp h']
  exact Nat.add_le_add ha hb

theorem min_mono (ha : a ≤ a') (hb : b ≤ b') : min a b ≤ min a' b' :=
  Std.le_min_iff.mpr ⟨UInt64.le_trans Std.min_le_left ha, UInt64.le_trans Std.min_le_right hb⟩

theorem max_mono (ha : a ≤ a') (hb : b ≤ b') : max a b ≤ max a' b' := by
  show (if a ≤ b then b else a) ≤ if a' ≤ b' then b' else a'
  rw [UInt64.le_iff_toNat_le] at ha hb
  simp only [UInt64.le_iff_toNat_le]
  split <;> split <;> omega

end Scaling

/-!
# Fee rates
-/

section Rates

variable {amount more rate result result' : UInt64}

theorem deductRate_mono (hle : amount ≤ more) (h : deductRate amount rate = .ok result)
    (h' : deductRate more rate = .ok result') : result ≤ result' := by
  rcases bind_eq_ok_iff.mp h with ⟨share, hshare, hnet⟩
  rcases bind_eq_ok_iff.mp h' with ⟨share', hshare', hnet'⟩
  cases hshare.symm.trans hshare'
  exact mulDivFloor_mono hle (UInt64.le_refl _) (UInt64.le_refl _) hnet hnet'

theorem grossUp_mono (hle : amount ≤ more) (h : grossUp amount rate = .ok result)
    (h' : grossUp more rate = .ok result') : result ≤ result' := by
  rcases bind_eq_ok_iff.mp h with ⟨share, hshare, hgross⟩
  rcases bind_eq_ok_iff.mp h' with ⟨share', hshare', hgross'⟩
  cases hshare.symm.trans hshare'
  exact mulDivCeil_mono hle (UInt64.le_refl _) (UInt64.le_refl _) hgross hgross'

end Rates

/-!
# Constant product
-/

/-- Fractions are compared by their cross products. -/
theorem div_le_div_of_mul_le {n d n' d' : Nat} (hd : 0 < d) (hd' : 0 < d')
    (h : n * d' ≤ n' * d) : n / d ≤ n' / d' := by
  rw [Nat.le_div_iff_mul_le hd']
  refine Nat.le_of_mul_le_mul_right (c := d) ?_ hd
  calc n / d * d' * d = n / d * d * d' := Nat.mul_right_comm _ _ _
    _ ≤ n * d' := Nat.mul_le_mul_right _ (Nat.div_mul_le_self n d)
    _ ≤ n' * d := h

section Pool

variable {balanceIn balanceIn' balanceOut balanceOut' amount amount' result result' : UInt64}

theorem quoteExactIn_mono (hin : balanceIn' ≤ balanceIn) (hout : balanceOut ≤ balanceOut')
    (hamount : amount ≤ amount') (h : quoteExactIn balanceIn balanceOut amount = .ok result)
    (h' : quoteExactIn balanceIn' balanceOut' amount' = .ok result') : result ≤ result' := by
  rw [UInt64.le_iff_toNat_le] at hin hout hamount ⊢
  rcases quoteExactIn_eq_ok_iff.mp h with ⟨hpos, -, hresult⟩
  rcases quoteExactIn_eq_ok_iff.mp h' with ⟨hpos', -, hresult'⟩
  have hne : balanceIn.toNat ≠ 0 := fun hzero => hpos (UInt64.toNat_inj.mp hzero)
  have hne' : balanceIn'.toNat ≠ 0 := fun hzero => hpos' (UInt64.toNat_inj.mp hzero)
  rw [hresult, hresult']
  refine div_le_div_of_mul_le (by omega) (by omega) ?_
  -- Against the old balance the input and the reserve have grown; against the input
  -- itself only the reserve has.
  have hbalance : amount.toNat * balanceOut.toNat * balanceIn'.toNat ≤
      amount'.toNat * balanceOut'.toNat * balanceIn.toNat :=
    Nat.mul_le_mul (Nat.mul_le_mul hamount hout) hin
  have hinput : amount.toNat * balanceOut.toNat * amount'.toNat ≤
      amount'.toNat * balanceOut'.toNat * amount.toNat := by
    rw [Nat.mul_right_comm, Nat.mul_right_comm amount'.toNat, Nat.mul_comm amount'.toNat]
    exact Nat.mul_le_mul_left _ hout
  rw [Nat.mul_add, Nat.mul_add]
  exact Nat.add_le_add hbalance hinput

theorem quoteExactOut_mono (hin : balanceIn' ≤ balanceIn) (hout : balanceOut ≤ balanceOut')
    (hamount : amount' ≤ amount) (h : quoteExactOut balanceIn balanceOut amount = .ok result)
    (h' : quoteExactOut balanceIn' balanceOut' amount' = .ok result') : result' ≤ result := by
  rw [UInt64.le_iff_toNat_le] at hin hout hamount ⊢
  rcases quoteExactOut_eq_ok_iff.mp h with ⟨-, hlt, hresult⟩
  rcases quoteExactOut_eq_ok_iff.mp h' with ⟨-, hlt', hresult'⟩
  have hlt := UInt64.lt_iff_toNat_lt.mp hlt
  have hlt' := UInt64.lt_iff_toNat_lt.mp hlt'
  have hceil : amount.toNat * balanceIn.toNat ≤
      (balanceOut.toNat - amount.toNat) * result.toNat :=
    (ceilDiv_le_iff_le_mul (by omega)).mp (Nat.le_of_eq hresult.symm)
  rw [hresult', ceilDiv_le_iff_le_mul (by omega)]
  calc amount'.toNat * balanceIn'.toNat ≤ amount.toNat * balanceIn.toNat :=
        Nat.mul_le_mul hamount hin
    _ ≤ (balanceOut.toNat - amount.toNat) * result.toNat := hceil
    _ ≤ (balanceOut'.toNat - amount'.toNat) * result.toNat :=
        Nat.mul_le_mul_right _ (tsub_le_tsub hout hamount)

end Pool

end Arithmetic

/-!
# Amounts in order
-/

/-- The order in which the amounts of two trades are compared: upwards at a fixed
input, and downwards at a fixed output. -/
def Leg.Orders (fixed : Leg) (a b : UInt64) : Prop :=
  match fixed with
  | .input => a ≤ b
  | .output => b ≤ a

namespace Leg.Orders

variable {fixed : Leg} {a b a' b' : UInt64}

theorem refl (fixed : Leg) (a : UInt64) : fixed.Orders a a := by
  cases fixed <;> exact UInt64.le_refl a

/-- What keeps both directions keeps the order at either leg. -/
theorem lift (h : fixed.Orders a b) (hup : a ≤ b → a' ≤ b') (hdown : b ≤ a → b' ≤ a') :
    fixed.Orders a' b' := by
  cases fixed with
  | input => exact hup h
  | output => exact hdown h

end Leg.Orders

namespace Machine

theorem afterFee_mono {leg : Leg} {amount more rate left kept : UInt64} (hle : amount ≤ more)
    (h : afterFee leg amount rate = .ok left) (h' : afterFee leg more rate = .ok kept) :
    left ≤ kept := by
  cases leg with
  | input => exact Arithmetic.grossUp_mono hle h h'
  | output => exact Arithmetic.deductRate_mono hle h h'

theorem afterFees_mono {leg : Leg} {rates : List UInt64} {amount more left kept : UInt64}
    (hle : amount ≤ more) (h : afterFees leg rates amount = .ok left)
    (h' : afterFees leg rates more = .ok kept) : left ≤ kept := by
  induction rates generalizing amount more with
  | nil =>
      cases h
      cases h'
      exact hle
  | cons rate rest ih =>
      rcases afterFees_cons.mp h with ⟨after, hafter, hrest⟩
      rcases afterFees_cons.mp h' with ⟨after', hafter', hrest'⟩
      exact ih (afterFee_mono hle hafter hafter') hrest hrest'

/-- A pool that holds less input and more output answers no worse. -/
theorem poolAmount_orders {fixed : Leg}
    {balanceIn balanceIn' balanceOut balanceOut' amount amount' result result' : UInt64}
    (hin : balanceIn' ≤ balanceIn) (hout : balanceOut ≤ balanceOut')
    (hamount : fixed.Orders amount amount')
    (h : poolAmount fixed balanceIn balanceOut amount = .ok result)
    (h' : poolAmount fixed balanceIn' balanceOut' amount' = .ok result') :
    fixed.Orders result result' := by
  cases fixed with
  | input => exact Arithmetic.quoteExactIn_mono hin hout hamount h h'
  | output => exact Arithmetic.quoteExactOut_mono hin hout hamount h h'

end Machine
end SwapPricing
