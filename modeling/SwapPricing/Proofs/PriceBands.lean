import Mathlib
import SwapPricing.Proofs.Roots

/-!
# Price bands

The virtual growth of a balance depends on one bound of the band only, through the root of
its ratio to the price.  A wider band has larger ratios, so it never is too narrow where a
band inside it is not, and its growths are no larger, but for the one place where roots
coarsen.
-/

namespace SwapPricing
namespace Arithmetic

/-!
# One side of a band
-/

/-- The virtual growth of a balance on the side of a band where the larger one of its
bound and the price is `num`, and the smaller one `den`. -/
def sideGrowth (balance : UInt64) (num den : BitVec 128) : Except MathError UInt64 := do
  bandGrowth balance (← sqrtWad (← ratioWad num den))

theorem bandGrowth_eq_narrow {balance : UInt64} {root : BitVec 128} (h : wad < root.toNat) :
    bandGrowth balance root = narrow (balance.toNat * wad / (root.toNat - wad)) := by
  have hproduct : balance.toNat * wad < wideSize :=
    mul_lt_wideSize balance.toNat_lt (by decide)
  rw [bandGrowth, if_neg (Nat.not_le_of_lt h), exact_eq_ok hproduct, ok_bind,
    minus_eq_ok (Nat.le_of_lt h), ok_bind, quotient_eq_ok (by omega), ok_bind]

theorem bandGrowth_eq_ok_iff {balance growth : UInt64} {root : BitVec 128} :
    bandGrowth balance root = .ok growth ↔
      wad < root.toNat ∧ growth.toNat = balance.toNat * wad / (root.toNat - wad) := by
  rcases Nat.lt_or_ge wad root.toNat with hroot | hroot
  · rw [bandGrowth_eq_narrow hroot, narrow_eq_ok_iff]
    simp [hroot]
  · rw [bandGrowth, if_pos hroot]
    simp [Nat.not_lt_of_le hroot]

variable {balance growth growth' : UInt64} {num den num' den' : BitVec 128}

theorem sideGrowth_eq_ok_iff :
    sideGrowth balance num den = .ok growth ↔
      den.toNat ≠ 0 ∧ wadRatio num.toNat den.toNat < wideSize ∧
        wad < wadRoot (wadRatio num.toNat den.toNat) ∧
        growth.toNat =
          balance.toNat * wad / (wadRoot (wadRatio num.toNat den.toNat) - wad) := by
  simp only [sideGrowth, bind_eq_ok_iff, ratioWad_eq_ok_iff, sqrtWad_eq_ok_iff,
    bandGrowth_eq_ok_iff]
  constructor
  · intro h
    rcases h with ⟨ratio, ⟨hden, hratio⟩, root, hroot, hwad, hgrowth⟩
    rw [hroot, hratio] at hwad hgrowth
    exact ⟨hden, hratio ▸ ratio.isLt, hwad, hgrowth⟩
  · intro h
    rcases h with ⟨hden, hfit, hwad, hgrowth⟩
    rcases exists_wide .overflow hfit with ⟨ratio, -, hratio⟩
    rcases exists_sqrtWad ratio with ⟨root, -, hroot⟩
    rw [← hratio, ← hroot] at hwad hgrowth
    exact ⟨ratio, ⟨hden, hratio⟩, root, hroot, hwad, hgrowth⟩

/-- The root of a ratio that is not below one that exceeds one exceeds one as well. -/
theorem lt_wadRoot_of_le {x y : Nat} (hle : x ≤ y) (h : wad < wadRoot x) :
    wad < wadRoot y := by
  rcases Nat.lt_or_ge (y * wad) wideSize with hy | hy
  · have hfine : ¬ RootsCoarsen x y := fun hcoarse => absurd hy (Nat.not_lt_of_le hcoarse.2.1)
    exact Nat.lt_of_lt_of_le h (wadRoot_mono hle hfine)
  · rw [wadRoot_of_le hy]
    have hlarge := Nat.mul_le_mul_right 1000000000 (le_sqrt_of_wide hy)
    exact Nat.lt_of_lt_of_le (by decide) hlarge

/-- A side whose ratio is no smaller than that of a side with a growth fails only where
a width is left. -/
theorem failsOnly_sideGrowth (hden : den'.toNat ≠ 0)
    (hratio : wadRatio num.toNat den.toNat ≤ wadRatio num'.toNat den'.toNat)
    (h : sideGrowth balance num den = .ok growth) :
    FailsOnly (· = .overflow) (sideGrowth balance num' den') := by
  rcases sideGrowth_eq_ok_iff.mp h with ⟨-, -, hroot, -⟩
  refine .bind ?_ fun ratio hok => ?_
  · rw [ratioWad_eq hden]
    exact failsOnly_wide _ _
  · rcases ratioWad_eq_ok_iff.mp hok with ⟨-, hnat⟩
    rcases exists_sqrtWad ratio with ⟨root, hsqrt, hvalue⟩
    rw [hsqrt, ok_bind, bandGrowth_eq_narrow]
    · exact failsOnly_word _ _
    · rw [hvalue, hnat]
      exact lt_wadRoot_of_le hratio hroot

/-- A larger ratio has no larger growth, unless roots coarsen in between. -/
theorem sideGrowth_anti
    (hratio : wadRatio num.toNat den.toNat ≤ wadRatio num'.toNat den'.toNat)
    (hcoarse : ¬ RootsCoarsen (wadRatio num.toNat den.toNat) (wadRatio num'.toNat den'.toNat))
    (h : sideGrowth balance num den = .ok growth)
    (h' : sideGrowth balance num' den' = .ok growth') : growth' ≤ growth := by
  rcases sideGrowth_eq_ok_iff.mp h with ⟨-, -, hroot, hgrowth⟩
  rcases sideGrowth_eq_ok_iff.mp h' with ⟨-, -, -, hgrowth'⟩
  rw [UInt64.le_iff_toNat_le, hgrowth, hgrowth']
  exact Nat.div_le_div_left (Nat.sub_le_sub_right (wadRoot_mono hratio hcoarse) wad) (by omega)

/-- A divisor that loses less than its `k`-th part makes a quotient grow by less than its
`k`-th part and one. -/
theorem div_le_of_loss (n k loss : Nat) {d d' : Nat} (hd : 0 < d) (hk : 0 < k)
    (hloss : d ≤ d' + loss) (hpart : k * loss ≤ d') :
    n / d' ≤ n / d + (n / d + 1) / k + 1 := by
  have hnext : n < d * (n / d + 1) := Nat.lt_mul_div_succ n hd
  have hcount : n / d + 1 ≤ k * ((n / d + 1) / k + 1) :=
    Nat.le_of_lt (Nat.lt_mul_div_succ _ hk)
  refine Nat.le_of_lt_succ (Nat.div_lt_of_lt_mul ?_)
  calc n < d * (n / d + 1) := hnext
    _ ≤ (d' + loss) * (n / d + 1) := Nat.mul_le_mul_right _ hloss
    _ = d' * (n / d + 1) + loss * (n / d + 1) := Nat.add_mul _ _ _
    _ ≤ d' * (n / d + 1) + loss * (k * ((n / d + 1) / k + 1)) :=
        Nat.add_le_add_left (Nat.mul_le_mul_left _ hcount) _
    _ = d' * (n / d + 1) + k * loss * ((n / d + 1) / k + 1) := by ring
    _ ≤ d' * (n / d + 1) + d' * ((n / d + 1) / k + 1) :=
        Nat.add_le_add_left (Nat.mul_le_mul_right _ hpart) _
    _ = d' * (n / d + (n / d + 1) / k + 1 + 1) := by ring

/-- Where roots coarsen, a larger ratio has at most one part in 17446744073 more of growth,
and one. -/
theorem sideGrowth_slack
    (hratio : wadRatio num.toNat den.toNat ≤ wadRatio num'.toNat den'.toNat)
    (h : sideGrowth balance num den = .ok growth)
    (h' : sideGrowth balance num' den' = .ok growth') :
    growth'.toNat ≤ growth.toNat + (growth.toNat + 1) / 17446744073 + 1 := by
  by_cases hcoarse :
      RootsCoarsen (wadRatio num.toNat den.toNat) (wadRatio num'.toNat den'.toNat)
  · rcases sideGrowth_eq_ok_iff.mp h with ⟨-, -, hroot, hgrowth⟩
    rcases sideGrowth_eq_ok_iff.mp h' with ⟨-, -, -, hgrowth'⟩
    have hloss := wadRoot_lt_of_coarsen hcoarse
    have hlarge := Nat.mul_le_mul_right 1000000000 (le_sqrt_of_wide hcoarse.2.1)
    rw [← wadRoot_of_le hcoarse.2.1] at hlarge
    have hwad : wad = 1000000000000000000 := rfl
    rw [hgrowth, hgrowth']
    exact div_le_of_loss _ 17446744073 1000000000 (by omega) (by decide) (by omega) (by omega)
  · have hle := UInt64.le_iff_toNat_le.mp (sideGrowth_anti hratio hcoarse h h')
    omega

/-!
# Bands
-/

section Bands

variable {balanceA balanceB : UInt64} {price bottom top : BitVec 128} {deltas : UInt64 × UInt64}

theorem bandDeltas_eq_ok_iff :
    bandDeltas balanceA balanceB price bottom top = .ok deltas ↔
      (0 < bottom.toNat ∧ bottom.toNat < price.toNat ∧ price.toNat < top.toNat) ∧
        sideGrowth balanceA top price = .ok deltas.1 ∧
        sideGrowth balanceB price bottom = .ok deltas.2 := by
  unfold bandDeltas sideGrowth
  split
  · rename_i hrefused
    simp only [reduceCtorEq, false_iff]
    omega
  · rename_i hinside
    have hwithin : 0 < bottom.toNat ∧ bottom.toNat < price.toNat ∧ price.toNat < top.toNat := by
      omega
    simp only [hwithin, bind_eq_ok_iff, Except.ok.injEq, true_and]
    constructor
    · intro h
      rcases h with ⟨above, habove, upper, hupper, below, hbelow, lower, hlower, _, hA, _, hB, rfl⟩
      exact ⟨⟨above, habove, upper, hupper, hA⟩, below, hbelow, lower, hlower, hB⟩
    · intro h
      rcases h with ⟨⟨above, habove, upper, hupper, hA⟩, below, hbelow, lower, hlower, hB⟩
      exact ⟨above, habove, upper, hupper, below, hbelow, lower, hlower, _, hA, _, hB, rfl⟩

/-- A band around the price fails with what one of its sides fails with. -/
theorem failsOnly_bandDeltas {P : MathError → Prop} (hbottom : 0 < bottom.toNat)
    (hprice : bottom.toNat < price.toNat) (htop : price.toNat < top.toNat)
    (hA : FailsOnly P (sideGrowth balanceA top price))
    (hB : FailsOnly P (sideGrowth balanceB price bottom)) :
    FailsOnly P (bandDeltas balanceA balanceB price bottom top) := by
  unfold bandDeltas
  rw [if_neg (by omega)]
  refine .bind hA.of_bind fun above habove => ?_
  have hroot := hA.of_bind_ok habove
  refine .bind hroot.of_bind fun upper hupper => ?_
  refine .bind hB.of_bind fun below hbelow => ?_
  have hroot' := hB.of_bind_ok hbelow
  refine .bind hroot'.of_bind fun lower hlower => ?_
  refine .bind (hroot.of_bind_ok hupper) fun growthA _ => ?_
  exact .bind (hroot'.of_bind_ok hlower) fun growthB _ => .ok _

end Bands

/-- A wider band is never too narrow where a band inside it is not, and needs no more
virtual growth on either side, unless roots coarsen between the two ratios of that side.
Even there it needs at most one part in 17446744073 more, and one. -/
theorem wider_band_needs_no_more {balanceA balanceB : UInt64}
    {price bottom top bottom' top' : BitVec 128} {deltas : UInt64 × UInt64}
    (hpos : 0 < bottom'.toNat) (hbottom : bottom'.toNat ≤ bottom.toNat)
    (htop : top.toNat ≤ top'.toNat)
    (h : bandDeltas balanceA balanceB price bottom top = .ok deltas) :
    FailsOnly (· = .overflow) (bandDeltas balanceA balanceB price bottom' top') ∧
    ∀ deltas', bandDeltas balanceA balanceB price bottom' top' = .ok deltas' →
      (¬ RootsCoarsen (wadRatio top.toNat price.toNat) (wadRatio top'.toNat price.toNat) →
        deltas'.1 ≤ deltas.1) ∧
      (¬ RootsCoarsen (wadRatio price.toNat bottom.toNat) (wadRatio price.toNat bottom'.toNat) →
        deltas'.2 ≤ deltas.2) ∧
      deltas'.1.toNat ≤ deltas.1.toNat + (deltas.1.toNat + 1) / 17446744073 + 1 ∧
      deltas'.2.toNat ≤ deltas.2.toNat + (deltas.2.toNat + 1) / 17446744073 + 1 := by
  rcases bandDeltas_eq_ok_iff.mp h with ⟨⟨hlow, hprice, hhigh⟩, hA, hB⟩
  have habove := wadRatio_mono htop price.toNat
  have hbelow := wadRatio_anti price.toNat hpos hbottom
  constructor
  · exact failsOnly_bandDeltas hpos (by omega) (by omega)
      (failsOnly_sideGrowth (by omega) habove hA) (failsOnly_sideGrowth (by omega) hbelow hB)
  · intro deltas' h'
    rcases bandDeltas_eq_ok_iff.mp h' with ⟨-, hA', hB'⟩
    exact ⟨fun hfine => sideGrowth_anti habove hfine hA hA',
      fun hfine => sideGrowth_anti hbelow hfine hB hB',
      sideGrowth_slack habove hA hA', sideGrowth_slack hbelow hB hB'⟩

/-- Around a price of one, the band from a quarter to four needs less than the band from
nine to eleven tenths. -/
theorem wider_band_needs_no_more_around_one :
    bandDeltas 1000000 1000000 1000000000000000000#128 900000000000000000#128
        1100000000000000000#128 = .ok (20488088, 18486832) ∧
    bandDeltas 1000000 1000000 1000000000000000000#128 250000000000000000#128
        4000000000000000000#128 = .ok (1000000, 1000000) ∧
    (1000000 : UInt64) ≤ 20488088 ∧ (1000000 : UInt64) ≤ 18486832 := by
  have hnarrow : bandDeltas 1000000 1000000 1000000000000000000#128 900000000000000000#128
      1100000000000000000#128 = .ok (20488088, 18486832) := by decide +kernel
  have hwide : bandDeltas 1000000 1000000 1000000000000000000#128 250000000000000000#128
      4000000000000000000#128 = .ok (1000000, 1000000) := by decide +kernel
  have hmore := (wider_band_needs_no_more (by decide) (by decide) (by decide) hnarrow).2 _ hwide
  exact ⟨hnarrow, hwide, hmore.1 fun h => absurd h.2.1 (by decide),
    hmore.2.1 fun h => absurd h.2.1 (by decide)⟩

/-- Where roots coarsen, a band that is wider by one unit needs more. -/
theorem wider_band_needs_more :
    bandDeltas 1000000000000000000 1000000000000000000 1000000000000000000#128
        250000000000000000#128 340282366920938463463#128 =
      .ok (57317284862732475, 1000000000000000000) ∧
    bandDeltas 1000000000000000000 1000000000000000000 1000000000000000000#128
        250000000000000000#128 340282366920938463464#128 =
      .ok (57317284865063544, 1000000000000000000) ∧
    (57317284862732475 : UInt64) < 57317284865063544 := by
  decide +kernel

end Arithmetic
end SwapPricing
