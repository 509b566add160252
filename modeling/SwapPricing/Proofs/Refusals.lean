import SwapPricing.Machine.Fees
import SwapPricing.Machine.Guards
import SwapPricing.Machine.Reserves
import SwapPricing.Proofs.Rounding

/-!
# Refusals of calculations

A calculation that is given sound terms never leaves a width that nothing guards,
and never divides by zero.  What is left for it to fail with are amounts that are
too large or too small for an answer.
-/

namespace SwapPricing

/-- Whatever `x` fails with satisfies `P`. -/
def FailsOnly {ε α : Type} (P : ε → Prop) (x : Except ε α) : Prop :=
  ∀ e, x = .error e → P e

namespace FailsOnly

variable {ε α β : Type} {P Q : ε → Prop} {x y : Except ε α} {f : α → Except ε β}

theorem ok (a : α) : FailsOnly P (.ok a) :=
  nofun

theorem of_eq_ok {a : α} (h : x = .ok a) : FailsOnly P x := by
  rw [h]
  exact ok a

theorem error {e : ε} (h : P e) : FailsOnly P (.error e : Except ε α) := by
  intro reason hreason
  injection hreason with hreason
  exact hreason ▸ h

theorem bind (hx : FailsOnly P x) (hf : ∀ a, x = .ok a → FailsOnly P (f a)) :
    FailsOnly P (x >>= f) := by
  cases x with
  | error e => exact error (hx e rfl)
  | ok a => exact hf a rfl

theorem of_bind (h : FailsOnly P (x >>= f)) : FailsOnly P x := by
  rintro e rfl
  exact h e rfl

theorem of_bind_ok {a : α} (h : FailsOnly P (x >>= f)) (hx : x = .ok a) : FailsOnly P (f a) := by
  rw [hx] at h
  exact h

theorem map {g : α → β} (hx : FailsOnly P x) : FailsOnly P (x.map g) := by
  cases x with
  | error e => exact error (hx e rfl)
  | ok a => exact ok (g a)

theorem ite {c : Prop} {_ : Decidable c} (hx : c → FailsOnly P x) (hy : ¬ c → FailsOnly P y) :
    FailsOnly P (if c then x else y) := by
  split
  · rename_i hc
    exact hx hc
  · rename_i hc
    exact hy hc

theorem foldlM {g : α → β → Except ε α} {bs : List β} (h : ∀ b ∈ bs, ∀ a, FailsOnly P (g a b))
    (a : α) : FailsOnly P (bs.foldlM g a) := by
  induction bs generalizing a with
  | nil => exact ok a
  | cons b rest ih =>
      rcases List.forall_mem_cons.mp h with ⟨hfirst, hrest⟩
      exact bind (hfirst a) fun a' _ => ih hrest a'

theorem mono (h : FailsOnly P x) (hPQ : ∀ e, P e → Q e) : FailsOnly Q x :=
  fun e he => hPQ e (h e he)

end FailsOnly

/-- The amounts are too large or too small for an answer. -/
def MathError.OfAmounts (e : MathError) : Prop :=
  e = .overflow ∨ e = .insufficientLiquidity

namespace Arithmetic

open MathError (OfAmounts)

/-!
# Widths
-/

theorem failsOnly_wide (reason : MathError) (n : Nat) :
    FailsOnly (· = reason) (wide reason n) := by
  unfold wide
  split
  · exact .ok _
  · exact .error rfl

theorem failsOnly_word (reason : MathError) (n : Nat) :
    FailsOnly (· = reason) (word reason n) := by
  unfold word
  split
  · exact .ok _
  · exact .error rfl

theorem narrow_eq_overflow {n : Nat} (h : maxAmount < n) : narrow n = .error .overflow :=
  dif_neg (Nat.not_lt_of_le h)

/-!
# Scaling
-/

theorem failsOnly_narrow (n : Nat) : FailsOnly OfAmounts (narrow n) :=
  (failsOnly_word .overflow n).mono fun _ => Or.inl

theorem failsOnly_gain (a b : UInt64) : FailsOnly OfAmounts (gain a b) :=
  failsOnly_narrow _

theorem failsOnly_drain (a b : UInt64) : FailsOnly OfAmounts (drain a b) :=
  .ite (fun _ => .ok _) fun _ => .error (Or.inr rfl)

theorem failsOnly_difference {a b : UInt64} (h : b ≤ a) : FailsOnly OfAmounts (difference a b) :=
  .of_eq_ok (difference_eq_ok_iff.mpr ⟨h, rfl⟩)

theorem toNat_ne_zero {a : UInt64} (h : a ≠ 0) : a.toNat ≠ 0 :=
  fun hzero => h (UInt64.toNat_inj.mp hzero)

/-- A floored share fails only where it does not fit. -/
theorem mulDivFloor_eq (a b : UInt64) {d : UInt64} (hd : d ≠ 0) :
    mulDivFloor a b d = narrow (a.toNat * b.toNat / d.toNat) := by
  rw [mulDivFloor, if_neg hd, exact_mul, ok_bind, quotient_eq_ok (toNat_ne_zero hd), ok_bind]

theorem mulDivCeil_eq (a b : UInt64) {d : UInt64} (hd : d ≠ 0) :
    mulDivCeil a b d = narrow (a.toNat * b.toNat ⌈/⌉ d.toNat) := by
  rw [mulDivCeil, if_neg hd, exact_mul, ok_bind,
    quotientUp_eq_ok (mul_lt_wideSize a.toNat_lt b.toNat_lt) (toNat_ne_zero hd), ok_bind]

theorem failsOnly_mulDivFloor (a b : UInt64) {d : UInt64} (hd : d ≠ 0) :
    FailsOnly OfAmounts (mulDivFloor a b d) := by
  rw [mulDivFloor_eq a b hd]
  exact failsOnly_narrow _

theorem failsOnly_mulDivCeil (a b : UInt64) {d : UInt64} (hd : d ≠ 0) :
    FailsOnly OfAmounts (mulDivCeil a b d) := by
  rw [mulDivCeil_eq a b hd]
  exact failsOnly_narrow _

theorem failsOnly_deductRate (amount : UInt64) {rate : UInt64} (h : rate.toNat < bps) :
    FailsOnly OfAmounts (deductRate amount rate) := by
  rcases exists_deductRate amount (Nat.le_of_lt h) with ⟨net, hnet⟩
  exact .of_eq_ok hnet

theorem failsOnly_grossUp (amount : UInt64) {rate : UInt64} (h : rate.toNat < bps) :
    FailsOnly OfAmounts (grossUp amount rate) := by
  rcases exists_keptShare (Nat.le_of_lt h) with ⟨share, hshare, hkept⟩
  have hne : share ≠ 0 := by
    rintro rfl
    have hzero : (0 : UInt64).toNat = 0 := rfl
    omega
  unfold grossUp
  rw [hshare, ok_bind]
  exact failsOnly_mulDivCeil _ _ hne

theorem exists_progressiveRate (base slope cap amount balance : UInt64) :
    ∃ rate, progressiveRate base slope cap amount balance = .ok rate := by
  unfold progressiveRate
  by_cases hbalance : balance = 0
  · exact ⟨cap, if_pos hbalance⟩
  · rw [if_neg hbalance, exact_mul, ok_bind, quotient_eq_ok (toNat_ne_zero hbalance), ok_bind]
    have hle := Nat.min_le_right
      (min (base.toNat + slope.toNat * amount.toNat / balance.toNat) (wideSize - 1)) cap.toNat
    rcases exists_word .fault (Nat.lt_of_le_of_lt hle cap.toNat_lt) with ⟨rate, hrate, -⟩
    exact ⟨rate, hrate⟩

/-- A progressive rate keeps to its cap. -/
theorem progressiveRate_le {base slope cap amount balance rate : UInt64}
    (h : progressiveRate base slope cap amount balance = .ok rate) : rate.toNat ≤ cap.toNat := by
  unfold progressiveRate at h
  split at h
  · injection h with h
    exact Nat.le_of_eq (h ▸ rfl)
  · simp only [bind_eq_ok_iff] at h
    rcases h with ⟨product, -, growth, -, hword⟩
    rw [toNat_of_word_eq_ok hword]
    exact Nat.min_le_right _ _

/-!
# Powers
-/

theorem failsOnly_wadProduct (a b : Nat) : FailsOnly OfAmounts (wadProduct a b) := by
  unfold wadProduct within
  refine .bind (.ite (fun _ => .ok _) fun _ => .error (Or.inl rfl)) fun n _ => ?_
  exact .of_eq_ok (quotient_eq_ok (show wad ≠ 0 by decide))

theorem failsOnly_powerRounds (rounds result power exponent : Nat) :
    FailsOnly OfAmounts (powerRounds rounds result power exponent) := by
  induction rounds generalizing result power exponent with
  | zero => exact .ok _
  | succ rounds ih =>
      have hround : ∀ result power, FailsOnly OfAmounts
          (if result = 0 then .ok 0 else powerRounds rounds result power (exponent / 2)) :=
        fun _ _ => .ite (fun _ => .ok _) fun _ => ih _ _ _
      have hsquared : ∀ result, FailsOnly OfAmounts (do
          let power ← if exponent / 2 = 0 then .ok power else wadProduct power power
          if result = 0 then .ok 0 else powerRounds rounds result power (exponent / 2)) :=
        fun result => .ite (fun _ => hround result power)
          fun _ => .bind (failsOnly_wadProduct _ _) fun square _ => hround result square
      exact .ite (fun _ => .ok _) fun _ => .ite
        (fun _ => .bind (failsOnly_wadProduct _ _) fun product _ => hsquared product)
        fun _ => hsquared result

theorem failsOnly_wadPower (base exponent : UInt64) :
    FailsOnly OfAmounts (wadPower base exponent) :=
  .bind (failsOnly_powerRounds _ _ _ _) fun _ _ => failsOnly_narrow _

/-!
# Pools
-/

theorem failsOnly_quoteExactIn (balanceIn balanceOut amountIn : UInt64) :
    FailsOnly OfAmounts (quoteExactIn balanceIn balanceOut amountIn) := by
  by_cases hempty : balanceIn = 0 ∨ balanceOut = 0
  · unfold quoteExactIn
    rw [if_pos hempty]
    exact .error (Or.inr rfl)
  · rcases not_or.mp hempty with ⟨hin, hout⟩
    rcases exists_quoteExactIn hin hout amountIn with ⟨amountOut, hamount⟩
    exact .of_eq_ok hamount

theorem failsOnly_quoteExactOut (balanceIn balanceOut amountOut : UInt64) :
    FailsOnly OfAmounts (quoteExactOut balanceIn balanceOut amountOut) := by
  refine .ite (fun _ => .error (Or.inr rfl)) fun _ => .ite (fun _ => .error (Or.inr rfl))
    fun hle => ?_
  have hlt : amountOut.toNat < balanceOut.toNat :=
    UInt64.lt_iff_toNat_lt.mp (UInt64.not_le.mp hle)
  rw [exact_mul, ok_bind, minus_eq_ok (Nat.le_of_lt hlt), ok_bind,
    quotientUp_eq_ok (mul_lt_wideSize amountOut.toNat_lt balanceIn.toNat_lt) (by omega), ok_bind]
  exact failsOnly_narrow _

/-- The capital that balances make up at the valuation `v` of the input asset. -/
def capital (v balanceIn balanceOut : UInt64) : Nat :=
  v.toNat * balanceIn.toNat + (wad - v.toNat) * balanceOut.toNat

/-- A capital fits in 128 bits, since the weights of the assets add up to one. -/
theorem capital_lt_wideSize {v : UInt64} (hv : v.toNat ≤ wad) (balanceIn balanceOut : UInt64) :
    capital v balanceIn balanceOut < wideSize := by
  have hin : v.toNat * balanceIn.toNat ≤ v.toNat * UInt64.size :=
    Nat.mul_le_mul_left _ (Nat.le_of_lt balanceIn.toNat_lt)
  have hout : (wad - v.toNat) * balanceOut.toNat ≤ (wad - v.toNat) * UInt64.size :=
    Nat.mul_le_mul_left _ (Nat.le_of_lt balanceOut.toNat_lt)
  calc capital v balanceIn balanceOut
      ≤ v.toNat * UInt64.size + (wad - v.toNat) * UInt64.size := Nat.add_le_add hin hout
    _ = wad * UInt64.size := by rw [← Nat.add_mul, Nat.add_sub_cancel' hv]
    _ < wideSize := by decide

/-- Of a rebalance only the outcomes may leave their width. -/
theorem rebalance_eq (balanceIn balanceOut : UInt64) {v : UInt64} (hv : v ≠ 0)
    (hlt : v.toNat < wad) :
    rebalance balanceIn balanceOut v = (do
      let newIn ← narrow (capital v balanceIn balanceOut / (2 * v.toNat))
      let newOut ← narrow (capital v balanceIn balanceOut / (2 * (wad - v.toNat)))
      .ok (newIn, newOut)) := by
  have hpos := toNat_ne_zero hv
  have hcapital := capital_lt_wideSize (Nat.le_of_lt hlt) balanceIn balanceOut
  have hleft := Nat.lt_of_le_of_lt (Nat.le_add_right _ _) hcapital
  have hright := Nat.lt_of_le_of_lt (Nat.le_add_left _ _) hcapital
  have hbound : 2 * wad < wideSize := by decide
  have hdivisors : 2 * v.toNat < wideSize ∧ 2 * (wad - v.toNat) < wideSize := by omega
  unfold capital at hcapital hleft hright ⊢
  unfold rebalance
  rw [if_neg (by omega), minus_eq_ok (Nat.le_of_lt hlt), ok_bind, exact_eq_ok hleft, ok_bind,
    exact_eq_ok hright, ok_bind, exact_eq_ok hcapital, ok_bind, exact_eq_ok hdivisors.1, ok_bind,
    quotient_eq_ok (by omega), ok_bind]
  refine bind_congr_of_ok fun newIn _ => ?_
  rw [exact_eq_ok hdivisors.2, ok_bind, quotient_eq_ok (by omega), ok_bind]

theorem failsOnly_rebalance (balanceIn balanceOut : UInt64) {v : UInt64} (hv : v ≠ 0)
    (hlt : v.toNat < wad) : FailsOnly OfAmounts (rebalance balanceIn balanceOut v) := by
  rw [rebalance_eq balanceIn balanceOut hv hlt]
  refine .bind (failsOnly_narrow _) fun newIn _ => ?_
  exact .bind (failsOnly_narrow _) fun newOut _ => .ok _

theorem failsOnly_clampDelta (current target : UInt64) (maxDelta : UInt16) :
    FailsOnly OfAmounts (clampDelta current target maxDelta.toUInt64) := by
  have hfit : bps + maxDelta.toUInt64.toNat < UInt64.size := by
    have hlt := maxDelta.toNat_lt
    have hnat : maxDelta.toUInt64.toNat = maxDelta.toNat := UInt16.toNat_toUInt64 maxDelta
    have hsize : bps + 2 ^ 16 < UInt64.size := by decide
    omega
  unfold clampDelta
  refine .bind (failsOnly_mulDivCeil _ _ (by decide)) fun low _ => ?_
  rw [word_eq_ok hfit, ok_bind]
  exact .ok _

end Arithmetic

namespace Machine

open MathError (OfAmounts)
open Arithmetic (bps wad)

/-!
# Calculations of instructions
-/

theorem failsOnly_supplyShare (balance : UInt64) {supply : UInt64} (h : supply ≠ 0) :
    FailsOnly OfAmounts (supplyShare balance supply) := by
  have hproduct : balance.toNat * wad < Arithmetic.wideSize :=
    Arithmetic.mul_lt_wideSize balance.toNat_lt (by decide)
  have hfit : min (balance.toNat * wad / supply.toNat) Arithmetic.maxAmount < UInt64.size :=
    Nat.lt_of_le_of_lt (Nat.min_le_right _ _) (by decide)
  unfold supplyShare
  rw [Arithmetic.exact_eq_ok hproduct, ok_bind,
    Arithmetic.quotient_eq_ok (Arithmetic.toNat_ne_zero h), ok_bind]
  exact .of_eq_ok (Arithmetic.word_eq_ok hfit)

theorem failsOnly_askedFor {terms : Sale} (h : terms.balanceOut ≠ 0) (prior : SaleState)
    (available now : UInt64) : FailsOnly OfAmounts (askedFor terms prior available now) := by
  have hwad : Arithmetic.wadWord ≠ 0 := by decide
  have hfaded : ∀ raised gap, FailsOnly OfAmounts (do
      let faded ← Arithmetic.mulDivCeil raised (← Arithmetic.wadPower terms.decay gap)
        Arithmetic.wadWord
      if faded = 0 then .error .insufficientLiquidity else .ok faded) := by
    intro raised gap
    refine .bind (Arithmetic.failsOnly_wadPower _ _) fun factor _ => ?_
    refine .bind (Arithmetic.failsOnly_mulDivCeil _ _ hwad) fun faded _ => ?_
    exact .ite (fun _ => .error (Or.inr rfl)) fun _ => .ok _
  unfold askedFor
  refine .bind (Arithmetic.failsOnly_mulDivCeil _ _ h) fun share _ => .ite (fun _ => ?_) fun _ => ?_
  · exact .bind (Arithmetic.failsOnly_mulDivCeil _ _ hwad) fun raised _ => hfaded raised _
  · exact hfaded share _

theorem failsOnly_settledFee (leg : Leg) {rate : UInt64} (h : rate.toNat < bps)
    (carried : Option UInt64) (amount : UInt64) :
    FailsOnly OfAmounts (settledFee leg rate carried amount) := by
  cases leg with
  | input =>
      cases carried with
      | some fee => exact .bind (Arithmetic.failsOnly_gain _ _) fun _ _ => .ok _
      | none =>
          refine .bind (Arithmetic.failsOnly_grossUp _ h) fun gross hgross => ?_
          exact .bind (Arithmetic.failsOnly_difference (Arithmetic.le_grossUp hgross))
            fun _ _ => .ok _
  | output =>
      cases carried with
      | some requested => exact .ok _
      | none =>
          refine .bind (Arithmetic.failsOnly_deductRate _ h) fun net hnet => ?_
          exact .bind (Arithmetic.failsOnly_difference (Arithmetic.deductRate_le hnet))
            fun _ _ => .ok _

end Machine
end SwapPricing
