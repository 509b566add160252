import Mathlib
import SwapPricing.Proofs.Foreseen

/-!
# Capital under valuations

The balances of a trade make up a capital at the valuation of the input asset.  Moving
them to that valuation floors each half of the capital and never adds to it.  Where both
moves are bounded, the side that gives away its surplus is the larger one, so it gives
no less than the other side gains, but for the rounding of its bound.
-/

namespace SwapPricing
namespace Arithmetic

/-!
# Rebalancing
-/

/-- Both halves of a capital, floored to whole units of their assets, fall short of it by
less than the weights of one unit of each. -/
theorem halves_near {v w c : Nat} (hv : 0 < v) (hw : 0 < w) :
    v * (c / (2 * v)) + w * (c / (2 * w)) ≤ c ∧
      c < v * (c / (2 * v)) + w * (c / (2 * w)) + (v + w) := by
  have hin := Nat.mul_div_le c (2 * v)
  have hout := Nat.mul_div_le c (2 * w)
  have hin' := Nat.lt_mul_div_succ c (show 0 < 2 * v by omega)
  have hout' := Nat.lt_mul_div_succ c (show 0 < 2 * w by omega)
  rw [Nat.mul_add, Nat.mul_assoc] at hin' hout'
  rw [Nat.mul_assoc] at hin hout
  omega

section Rebalance

variable {balanceIn balanceOut v newIn newOut : UInt64}

theorem rebalance_eq_ok_iff (hv : v ≠ 0) (hlt : v.toNat < wad) :
    rebalance balanceIn balanceOut v = .ok (newIn, newOut) ↔
      newIn.toNat = capital v balanceIn balanceOut / (2 * v.toNat) ∧
        newOut.toNat = capital v balanceIn balanceOut / (2 * (wad - v.toNat)) := by
  rw [rebalance_eq balanceIn balanceOut hv hlt]
  simp only [bind_eq_ok_iff, narrow_eq_ok_iff, Except.ok.injEq, Prod.mk.injEq]
  constructor
  · intro h
    rcases h with ⟨_, hin, _, hout, rfl, rfl⟩
    exact ⟨hin, hout⟩
  · intro h
    rcases h with ⟨hin, hout⟩
    exact ⟨newIn, hin, newOut, hout, rfl, rfl⟩

/-- A rebalance keeps the capital but for less than one unit of value. -/
theorem capital_near_of_rebalance (hv : v ≠ 0) (hlt : v.toNat < wad)
    (h : rebalance balanceIn balanceOut v = .ok (newIn, newOut)) :
    capital v newIn newOut ≤ capital v balanceIn balanceOut ∧
      capital v balanceIn balanceOut < capital v newIn newOut + wad := by
  have hpos := Nat.pos_of_ne_zero (toNat_ne_zero hv)
  rcases (rebalance_eq_ok_iff hv hlt).mp h with ⟨hin, hout⟩
  have hnear := halves_near (c := capital v balanceIn balanceOut) hpos (Nat.sub_pos_of_lt hlt)
  rw [← hin, ← hout, Nat.add_sub_cancel' (Nat.le_of_lt hlt)] at hnear
  exact hnear

/-- Half of the capital is more of an asset than an amount can hold. -/
def HalvesOverflow (v balanceIn balanceOut : UInt64) : Prop :=
  maxAmount < capital v balanceIn balanceOut / (2 * v.toNat) ∨
    maxAmount < capital v balanceIn balanceOut / (2 * (wad - v.toNat))

theorem rebalance_eq_overflow (hv : v ≠ 0) (hlt : v.toNat < wad)
    (h : HalvesOverflow v balanceIn balanceOut) :
    rebalance balanceIn balanceOut v = .error .overflow := by
  rw [rebalance_eq balanceIn balanceOut hv hlt]
  rcases Nat.lt_or_ge maxAmount (capital v balanceIn balanceOut / (2 * v.toNat)) with hin | hin
  · rw [narrow_eq_overflow hin, error_bind]
  · have hout := h.resolve_left (Nat.not_lt_of_le hin)
    have hfit := Nat.lt_of_le_of_lt hin (show maxAmount < UInt64.size by decide)
    rw [narrow, word_eq_ok hfit, ok_bind, narrow_eq_overflow hout, error_bind]

theorem exists_rebalance (hv : v ≠ 0) (hlt : v.toNat < wad)
    (h : ¬ HalvesOverflow v balanceIn balanceOut) :
    ∃ newIn newOut, rebalance balanceIn balanceOut v = .ok (newIn, newOut) := by
  rcases not_or.mp h with ⟨hin, hout⟩
  have hsize : maxAmount < UInt64.size := by decide
  rcases exists_word .overflow (Nat.lt_of_le_of_lt (Nat.le_of_not_lt hin) hsize) with
    ⟨newIn, -, hnewIn⟩
  rcases exists_word .overflow (Nat.lt_of_le_of_lt (Nat.le_of_not_lt hout) hsize) with
    ⟨newOut, -, hnewOut⟩
  exact ⟨newIn, newOut, (rebalance_eq_ok_iff hv hlt).mpr ⟨hnewIn, hnewOut⟩⟩

end Rebalance

/-!
# Bounded moves
-/

/-- `new` is `old` moved towards `target` as far as `maxDelta` basis points of `old`
allow. -/
structure MovedTowards (maxDelta : Nat) (old target new : UInt64) : Prop where
  least : old.toNat * (bps - maxDelta) ⌈/⌉ bps ≤ new.toNat
  most : new.toNat ≤ old.toNat * (bps + maxDelta) / bps
  between : old ≤ new ∧ new ≤ target ∨ target ≤ new ∧ new ≤ old
  lowest : target < new → new.toNat = old.toNat * (bps - maxDelta) ⌈/⌉ bps
  highest : new < target → new.toNat = old.toNat * (bps + maxDelta) / bps

/-- The bounds of a move lie around where it starts. -/
theorem bounds_around (old maxDelta : Nat) :
    old * (bps - maxDelta) ⌈/⌉ bps ≤ old ∧ old ≤ old * (bps + maxDelta) / bps := by
  constructor
  · rw [ceilDiv_le_iff_le_mul (by decide), Nat.mul_comm]
    exact Nat.mul_le_mul_right old (Nat.sub_le _ _)
  · rw [Nat.le_div_iff_mul_le (by decide)]
    exact Nat.mul_le_mul_left old (Nat.le_add_right _ _)

theorem exists_lowerBound (old maxDelta : UInt64) :
    ∃ low, mulDivCeil old (UInt64.ofNat (bps - maxDelta.toNat)) bpsWord = .ok low ∧
      low.toNat = old.toNat * (bps - maxDelta.toNat) ⌈/⌉ bps := by
  have hkept : (UInt64.ofNat (bps - maxDelta.toNat)).toNat = bps - maxDelta.toNat :=
    UInt64.toNat_ofNat_of_lt'
      (Nat.lt_of_le_of_lt (Nat.sub_le _ _) (show bps < UInt64.size by decide))
  have hlow := (bounds_around old.toNat maxDelta.toNat).1
  rcases exists_word .overflow (Nat.lt_of_le_of_lt hlow old.toNat_lt) with ⟨low, -, hnat⟩
  have hvalue : low.toNat = old.toNat * (UInt64.ofNat (bps - maxDelta.toNat)).toNat ⌈/⌉
      bpsWord.toNat := by
    rw [hkept]
    exact hnat
  exact ⟨low, mulDivCeil_eq_ok_iff.mpr ⟨by decide, hvalue⟩, hnat⟩

/-- The upper bound of a move, which is dropped where it does not fit. -/
theorem toNat_upperBound (old share : UInt64) :
    ((mulDivFloor old share bpsWord).toOption.getD (UInt64.ofNat maxAmount)).toNat =
      min (old.toNat * share.toNat / bps) maxAmount := by
  have hbps : bpsWord.toNat = bps := rfl
  have hmax : maxAmount < UInt64.size := by decide
  rcases Nat.lt_or_ge maxAmount (old.toNat * share.toNat / bps) with hwide | hfit
  · have hrefused : mulDivFloor old share bpsWord = .error .overflow := by
      rw [mulDivFloor_eq old share (by decide), hbps, narrow_eq_overflow hwide]
    rw [hrefused, Nat.min_eq_right (Nat.le_of_lt hwide)]
    exact UInt64.toNat_ofNat_of_lt' hmax
  · rcases exists_word .overflow (Nat.lt_of_le_of_lt hfit hmax) with ⟨high, -, hhigh⟩
    have hok : mulDivFloor old share bpsWord = .ok high :=
      mulDivFloor_eq_ok_iff.mpr ⟨by decide, hhigh⟩
    rw [hok, Nat.min_eq_left hfit]
    exact hhigh

/-- What a clamp picks is the nearest to its target between the bounds. -/
theorem toNat_nearest (low high target : UInt64) (h : low ≤ high) :
    (if target < low then low else if max high low < target then max high low else target).toNat =
      max low.toNat (min target.toNat high.toNat) := by
  have hmax : max high low = high := by
    show (if high ≤ low then low else high) = high
    split
    · rename_i hle
      exact UInt64.le_antisymm h hle
    · rfl
  rw [UInt64.le_iff_toNat_le] at h
  rw [hmax]
  split
  · rename_i hbelow
    rw [UInt64.lt_iff_toNat_lt] at hbelow
    omega
  · rename_i hlow
    rw [UInt64.lt_iff_toNat_lt] at hlow
    split
    · rename_i habove
      rw [UInt64.lt_iff_toNat_lt] at habove
      omega
    · rename_i hhigh
      rw [UInt64.lt_iff_toNat_lt] at hhigh
      omega

/-- A clamp of less than the whole amount takes the nearest amount to its target. -/
theorem exists_clampDelta (old target : UInt64) {maxDelta : UInt16} (h : maxDelta.toNat < bps) :
    ∃ new, clampDelta old target maxDelta.toUInt64 = .ok new ∧
      new.toNat = max (old.toNat * (bps - maxDelta.toNat) ⌈/⌉ bps)
        (min target.toNat (old.toNat * (bps + maxDelta.toNat) / bps)) := by
  have hnat : maxDelta.toUInt64.toNat = maxDelta.toNat := UInt16.toNat_toUInt64 maxDelta
  have hsize : 2 * bps < UInt64.size := by decide
  rcases exists_lowerBound old maxDelta.toUInt64 with ⟨low, hlow, hlowNat⟩
  have hfit : bps + maxDelta.toUInt64.toNat < UInt64.size := by omega
  rcases exists_word .fault hfit with ⟨share, hshare, hshareNat⟩
  have hhighNat := toNat_upperBound old share
  rw [hshareNat] at hhighNat
  rw [hnat] at hlowNat hhighNat
  -- Amounts lie below the largest one, so it makes no difference where the upper bound is
  -- dropped.
  have hold : old.toNat ≤ maxAmount := Nat.le_sub_one_of_lt old.toNat_lt
  have htarget : target.toNat ≤ maxAmount := Nat.le_sub_one_of_lt target.toNat_lt
  have hbounds := bounds_around old.toNat maxDelta.toNat
  have hle : low ≤ (mulDivFloor old share bpsWord).toOption.getD (UInt64.ofNat maxAmount) := by
    rw [UInt64.le_iff_toNat_le, hhighNat, hlowNat]
    omega
  unfold clampDelta
  rw [hlow, ok_bind, hshare, ok_bind]
  refine ⟨_, rfl, ?_⟩
  rw [toNat_nearest _ _ _ hle, hhighNat, hlowNat]
  omega

section Moves

variable {v balanceIn balanceOut fairIn fairOut newIn newOut : UInt64}

theorem movedTowards_of_clampDelta {old target new : UInt64} {maxDelta : UInt16}
    (h : maxDelta.toNat < bps) (hok : clampDelta old target maxDelta.toUInt64 = .ok new) :
    MovedTowards maxDelta.toNat old target new := by
  rcases exists_clampDelta old target h with ⟨_, hnew, hvalue⟩
  rw [hok, Except.ok.injEq] at hnew
  subst hnew
  have hbounds := bounds_around old.toNat maxDelta.toNat
  constructor
  case between =>
    simp only [UInt64.le_iff_toNat_le]
    omega
  case least => omega
  case most => omega
  all_goals
    rw [UInt64.lt_iff_toNat_lt]
    omega

/-- Where one side grows by at most a share of its value, and the other side is worth no
less and shrinks by that share up to rounding, the capital grows by less than one unit of
the shrinking side. -/
theorem weighted_lt_of_moves {v w b d x x' y y' : Nat} (hw : 0 < w) (hd : d ≤ b)
    (hgrown : x' * b ≤ x * (b + d)) (hshrunk : y' * b < y * (b - d) + b) (hle : v * x ≤ w * y) :
    v * x' + w * y' < v * x + w * y + w := by
  obtain ⟨kept, rfl⟩ := Nat.exists_eq_add_of_le hd
  rw [Nat.add_sub_cancel_left] at hshrunk
  have hgain : v * x' * (d + kept) ≤ v * x * (d + kept) + v * x * d := by
    calc v * x' * (d + kept) = v * (x' * (d + kept)) := Nat.mul_assoc _ _ _
      _ ≤ v * (x * (d + kept + d)) := Nat.mul_le_mul_left v hgrown
      _ = v * x * (d + kept) + v * x * d := by ring
  have hloss : w * y' * (d + kept) + w * y * d < w * y * (d + kept) + w * (d + kept) := by
    calc w * y' * (d + kept) + w * y * d = w * (y' * (d + kept)) + w * y * d := by ring
      _ < w * (y * kept + (d + kept)) + w * y * d :=
          Nat.add_lt_add_right (Nat.mul_lt_mul_of_pos_left hshrunk hw) _
      _ = w * y * (d + kept) + w * (d + kept) := by ring
  have hshare : v * x * d ≤ w * y * d := Nat.mul_le_mul_right d hle
  apply Nat.lt_of_mul_lt_mul_right (a := d + kept)
  calc (v * x' + w * y') * (d + kept) = v * x' * (d + kept) + w * y' * (d + kept) :=
        Nat.add_mul _ _ _
    _ < v * x * (d + kept) + w * y * (d + kept) + w * (d + kept) := by omega
    _ = (v * x + w * y + w) * (d + kept) := by ring

theorem MovedTowards.mul_le {old target new : UInt64} {maxDelta : Nat}
    (h : MovedTowards maxDelta old target new) :
    new.toNat * bps ≤ old.toNat * (bps + maxDelta) :=
  (Nat.le_div_iff_mul_le (by decide)).mp h.most

/-- A move that stops short of a lower target has used up its bound. -/
theorem MovedTowards.mul_lt {old target new : UInt64} {maxDelta : Nat}
    (h : MovedTowards maxDelta old target new) (hshort : target < new) :
    new.toNat * bps < old.toNat * (bps - maxDelta) + bps := by
  have hfloor := Nat.div_mul_le_self (old.toNat * (bps - maxDelta) + bps - 1) bps
  rw [← Nat.ceilDiv_eq_add_pred_div, ← h.lowest hshort] at hfloor
  have hbps : 0 < bps := by decide
  omega

/-- A move that stops short of a lower target started above it. -/
theorem MovedTowards.target_lt {old target new : UInt64} {maxDelta : Nat}
    (h : MovedTowards maxDelta old target new) (hshort : target < new) : target < old := by
  rcases h.between with ⟨-, hle⟩ | ⟨-, hle⟩
  · exact absurd hshort (UInt64.not_lt.mpr hle)
  · exact UInt64.lt_of_lt_of_le hshort hle

/-- A side above its half of the capital is worth no less than the rest. -/
theorem rest_le_of_half_lt {v x rest : Nat} (hv : 0 < v) (h : (v * x + rest) / (2 * v) < x) :
    rest ≤ v * x := by
  rw [Nat.div_lt_iff_lt_mul (by omega)] at h
  have hdouble : x * (2 * v) = v * x + v * x := by ring
  omega

/-- Bounded moves towards the fair balances add less than one unit of value. -/
theorem capital_lt_of_movedTowards (hv : v ≠ 0) (hlt : v.toNat < wad) {maxDelta : Nat}
    (hbound : maxDelta ≤ bps) (hfair : rebalance balanceIn balanceOut v = .ok (fairIn, fairOut))
    (hin : MovedTowards maxDelta balanceIn fairIn newIn)
    (hout : MovedTowards maxDelta balanceOut fairOut newOut) :
    capital v newIn newOut < capital v balanceIn balanceOut + wad := by
  have hpos := Nat.pos_of_ne_zero (toNat_ne_zero hv)
  have hrest : 0 < wad - v.toNat := Nat.sub_pos_of_lt hlt
  rcases (rebalance_eq_ok_iff hv hlt).mp hfair with ⟨hfairIn, hfairOut⟩
  have hkept := (capital_near_of_rebalance hv hlt hfair).1
  by_cases hshortIn : fairIn < newIn
  · -- The input is above its half of the capital and shrinks as far as it may.
    have hhalf := UInt64.lt_iff_toNat_lt.mp (hin.target_lt hshortIn)
    rw [hfairIn] at hhalf
    have hle := rest_le_of_half_lt hpos hhalf
    have hmoved := weighted_lt_of_moves hpos hbound hout.mul_le (hin.mul_lt hshortIn) hle
    unfold capital
    omega
  · by_cases hshortOut : fairOut < newOut
    · have hhalf := UInt64.lt_iff_toNat_lt.mp (hout.target_lt hshortOut)
      rw [hfairOut, capital, Nat.add_comm] at hhalf
      have hle := rest_le_of_half_lt hrest hhalf
      have hmoved := weighted_lt_of_moves hrest hbound hin.mul_le (hout.mul_lt hshortOut) hle
      unfold capital
      omega
    · -- Neither side is above its half of the capital.
      have hleIn := UInt64.le_iff_toNat_le.mp (UInt64.not_lt.mp hshortIn)
      have hleOut := UInt64.le_iff_toNat_le.mp (UInt64.not_lt.mp hshortOut)
      have hvalue : capital v newIn newOut ≤ capital v fairIn fairOut :=
        Nat.add_le_add (Nat.mul_le_mul_left _ hleIn) (Nat.mul_le_mul_left _ hleOut)
      omega

end Moves

end Arithmetic

namespace Machine

open Arithmetic (bps wad wadWord rebalance capital HalvesOverflow MovedTowards)

/-!
# Valuations by an oracle
-/

section Oracles

variable {setup : Setup} {s s' : State}

/-- A bounded revaluation moves both balances towards those of the valuation of the
input asset. -/
theorem revalue_bounded_eq_ok {op : Opcode} {valuation : UInt64} {maxDelta : UInt16}
    (hbound : maxDelta.toNat < bps) (h : revalue setup op valuation (some maxDelta) s = .ok s') :
    (valuation ≠ 0 ∧ valuation < wadWord) ∧ ∃ fairIn fairOut newIn newOut,
      rebalance s.registers.balanceIn s.registers.balanceOut
          (setup.query.orient valuation (wadWord - valuation)).1 = .ok (fairIn, fairOut) ∧
        MovedTowards maxDelta.toNat s.registers.balanceIn fairIn newIn ∧
        MovedTowards maxDelta.toNat s.registers.balanceOut fairOut newOut ∧
        s' = s.setBalances newIn newOut := by
  simp only [revalue, bind_eq_ok_iff, check_eq_ok_iff, calculate_eq_ok_iff, pure_eq_ok_iff,
    Arithmetic.difference_eq_ok_iff] at h
  rcases h with
    ⟨-, hvalid, complement, ⟨-, rfl⟩, ⟨fairIn, fairOut⟩, hfair, newIn, hin, newOut, hout, rfl⟩
  exact ⟨hvalid, fairIn, fairOut, newIn, newOut, hfair,
    Arithmetic.movedTowards_of_clampDelta hbound hin,
    Arithmetic.movedTowards_of_clampDelta hbound hout, rfl⟩

theorem exists_reading_of_valuationOracle {op : Opcode} {oracle : Address} {maxAge : UInt32}
    {maxDelta : Option UInt16}
    (h : valuationOracle setup op oracle (some maxAge) maxDelta s = .ok s') :
    ∃ reading, setup.environment.oracle? oracle = some reading ∧
      revalue setup op reading.value maxDelta s = .ok s' := by
  simp only [valuationOracle, bind_eq_ok_iff, demand_eq_ok_iff] at h
  rcases h with ⟨-, -, reading, hreading, -, -, h⟩
  exact ⟨reading, hreading, h⟩

end Oracles

/-- Revaluations keep the capital.  Moving both balances to a valuation fails only where
half of the capital does not fit in an amount, and otherwise loses less than one unit of
value and gains nothing.  A bounded valuation moves each balance towards where the
unbounded one would, within its bound, and gains less than one unit of value. -/
theorem revaluation_keeps_capital :
    (∀ balanceIn balanceOut v : UInt64, v ≠ 0 → v < wadWord →
      (HalvesOverflow v balanceIn balanceOut ∧
        rebalance balanceIn balanceOut v = .error .overflow) ∨
      ¬ HalvesOverflow v balanceIn balanceOut ∧ ∃ newIn newOut,
        rebalance balanceIn balanceOut v = .ok (newIn, newOut) ∧
        capital v newIn newOut ≤ capital v balanceIn balanceOut ∧
        capital v balanceIn balanceOut < capital v newIn newOut + wad) ∧
    ∀ (setup : Setup) (offset : Nat) (oracle : Address) (maxAge : UInt32) (maxDelta : UInt16)
      (s s' : State), maxDelta.toNat < bps →
      execute setup offset (.valuationBounded oracle maxAge maxDelta) s = .ok s' →
      ∃ reading v fairIn fairOut newIn newOut,
        setup.environment.oracle? oracle = some reading ∧
        (reading.value ≠ 0 ∧ reading.value < wadWord) ∧
        v = (setup.query.orient reading.value (wadWord - reading.value)).1 ∧
        rebalance s.registers.balanceIn s.registers.balanceOut v = .ok (fairIn, fairOut) ∧
        MovedTowards maxDelta.toNat s.registers.balanceIn fairIn newIn ∧
        MovedTowards maxDelta.toNat s.registers.balanceOut fairOut newOut ∧
        s' = s.setBalances newIn newOut ∧
        capital v newIn newOut < capital v s.registers.balanceIn s.registers.balanceOut + wad := by
  constructor
  · intro balanceIn balanceOut v hv hlt
    have hbelow := UInt64.lt_iff_toNat_lt.mp hlt
    by_cases hhalves : HalvesOverflow v balanceIn balanceOut
    · exact .inl ⟨hhalves, Arithmetic.rebalance_eq_overflow hv hbelow hhalves⟩
    · rcases Arithmetic.exists_rebalance hv hbelow hhalves with ⟨newIn, newOut, hnew⟩
      exact .inr ⟨hhalves, newIn, newOut, hnew,
        Arithmetic.capital_near_of_rebalance hv hbelow hnew⟩
  · intro setup offset oracle maxAge maxDelta s s' hbound h
    rcases exists_reading_of_valuationOracle h with ⟨reading, hreading, hrevalued⟩
    rcases revalue_bounded_eq_ok hbound hrevalued with
      ⟨hvalid, fairIn, fairOut, newIn, newOut, hfair, hin, hout, rfl⟩
    rcases (orient_of_both (P := fun v => v ≠ 0 ∧ v < wadWord) setup.query
      ⟨hvalid, valid_complement hvalid⟩).1 with ⟨hpos, hlt⟩
    exact ⟨reading, _, fairIn, fairOut, newIn, newOut, hreading, hvalid, rfl, hfair, hin, hout, rfl,
      Arithmetic.capital_lt_of_movedTowards hpos (UInt64.lt_iff_toNat_lt.mp hlt)
        (Nat.le_of_lt hbound) hfair hin hout⟩

def unevenBytes : List UInt8 :=
  Operation.recorded 7 (.staticBalances [(.single 65, 1000), (.single 66, 3000)]) ++
    Operation.recorded 29 (.valuationBounded (.single 79) 60 100) ++
    Operation.recorded 10 .solve

/-- A pool with three times as much output as input, moved towards the valuation of an
oracle. -/
def unevenPool : Program where
  id := .single 80
  bytes := unevenBytes.toArray
  records := #[⟨0, .staticBalances [(.single 65, 1000), (.single 66, 3000)]⟩,
    ⟨82, .valuationBounded (.single 79) 60 100⟩, ⟨122, .solve⟩]

/-- An oracle values both assets alike. -/
def evenSetup : Setup where
  program := unevenPool
  query := Query.simulated .input (.single 65) (.single 66) 100
  environment := Observations.environment { Observations.atTime 100 with
    oracles := Table.empty.insert (.single 79) ⟨500000000000000000, 90⟩ }
  external := .absent

/-- The state in which the pool is revalued. -/
def unevenState : State :=
  { (State.initial evenSetup.query .empty).setBalances 1000 3000 with next := 2, steps := 2 }

theorem capital_kept_by_uneven_pool :
    Program.decode .full (.single 80) unevenBytes = .ok unevenPool ∧
    (rebalance 1000 1000 200000000000000000 = .ok (2500, 625) ∧
      capital 200000000000000000 2500 625 ≤ capital 200000000000000000 1000 1000 ∧
      capital 200000000000000000 1000 1000 < capital 200000000000000000 2500 625 + wad) ∧
    execute evenSetup 82 (.valuationBounded (.single 79) 60 100) unevenState =
      .ok (unevenState.setBalances 1010 2970) ∧
    ∃ fairIn fairOut, rebalance 1000 3000 500000000000000000 = .ok (fairIn, fairOut) ∧
      MovedTowards 100 1000 fairIn 1010 ∧ MovedTowards 100 3000 fairOut 2970 ∧
      capital 500000000000000000 1010 2970 < capital 500000000000000000 1000 3000 + wad := by
  have hfair : rebalance 1000 1000 200000000000000000 = .ok (2500, 625) := by rfl
  have hmoved : execute evenSetup 82 (.valuationBounded (.single 79) 60 100) unevenState =
      .ok (unevenState.setBalances 1010 2970) := by rfl
  refine ⟨by cbv, ⟨hfair, ?_⟩, hmoved, ?_⟩
  · rcases revaluation_keeps_capital.1 1000 1000 200000000000000000 (by decide) (by decide) with
      ⟨-, hfailed⟩ | ⟨-, newIn, newOut, hnew, hkept⟩
    · cases hfair.symm.trans hfailed
    · cases hfair.symm.trans hnew
      exact hkept
  · rcases revaluation_keeps_capital.2 _ _ _ _ _ _ _ (by decide) hmoved with
      ⟨reading, v, fairIn, fairOut, newIn, newOut, hreading, -, hv, hbalances, hin, hout, hnew,
        hcapital⟩
    cases hreading
    have hvaluation : v = 500000000000000000 := hv
    have hnewIn : 1010 = newIn := congrArg (·.registers.balanceIn) hnew
    have hnewOut : 2970 = newOut := congrArg (·.registers.balanceOut) hnew
    subst hvaluation hnewIn hnewOut
    exact ⟨fairIn, fairOut, hbalances, hin, hout, hcapital⟩

end Machine
end SwapPricing
