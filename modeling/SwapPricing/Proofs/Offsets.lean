import SwapPricing.Proofs.Changes

/-!
# Offsets and schedules

An offset fades in proportion to the time since its update.  The longer its
period, the more is left of it, and at the moment of its update all of it is.  The
output of a sale unlocks in proportion to the time since its start.
-/

namespace SwapPricing

/-!
# What is left of an offset
-/

/-- What is left of an offset, as a natural number. -/
def DecayOffset.remaining (offset : DecayOffset) (now : UInt64) (period : UInt32) : Nat :=
  offset.amount.toNat * (period.toNat - (now.toNat - offset.updatedAt.toNat)) / period.toNat

namespace DecayOffset

variable (offset : DecayOffset) (now : UInt64)

theorem remaining_le (period : UInt32) : offset.remaining now period ≤ offset.amount.toNat := by
  apply Nat.div_le_of_le_mul
  rw [Nat.mul_comm]
  exact Nat.mul_le_mul_right _ (Nat.sub_le _ _)

theorem exists_current (period : UInt32) :
    ∃ left, offset.current now period = .ok left ∧ left.toNat = offset.remaining now period := by
  unfold current
  simp only
  split
  · rename_i hover
    refine ⟨0, rfl, ?_⟩
    unfold remaining
    rcases hover with hzero | hle
    · rw [hzero]
      exact (Nat.div_zero _).symm
    · rw [Nat.sub_eq_zero_of_le hle, Nat.mul_zero, Nat.zero_div]
      rfl
  · rename_i hwithin
    have hperiod : period.toNat ≠ 0 := fun hzero => hwithin (Or.inl (UInt32.toNat_inj.mp hzero))
    have hfactor : period.toNat - (now.toNat - offset.updatedAt.toNat) < UInt64.size :=
      Nat.lt_of_le_of_lt (Nat.sub_le _ _) (Nat.lt_trans period.toNat_lt (by decide))
    have hexact := Arithmetic.exact_eq_ok
      (Arithmetic.mul_lt_wideSize offset.amount.toNat_lt hfactor)
    have hfit : offset.remaining now period < UInt64.size :=
      Nat.lt_of_le_of_lt (offset.remaining_le now period) offset.amount.toNat_lt
    rw [hexact, ok_bind, Arithmetic.quotient_eq_ok hperiod, ok_bind]
    exact Arithmetic.exists_word .fault hfit

theorem remaining_mono {period longer : UInt32} (hperiod : period ≠ 0) (h : period ≤ longer) :
    offset.remaining now period ≤ offset.remaining now longer := by
  have hpos : 0 < period.toNat := Nat.pos_of_ne_zero fun hzero =>
    hperiod (UInt32.toNat_inj.mp hzero)
  have hle : period.toNat ≤ longer.toNat := UInt32.le_iff_toNat_le.mp h
  unfold remaining
  generalize now.toNat - offset.updatedAt.toNat = elapsed
  generalize offset.amount.toNat = amount
  rw [Nat.le_div_iff_mul_le (Nat.lt_of_lt_of_le hpos hle)]
  -- Cross-multiplied, the longer period loses no larger part of the amount.
  have hparts : (period.toNat - elapsed) * longer.toNat ≤
      (longer.toNat - elapsed) * period.toNat := by
    rw [Nat.sub_mul, Nat.sub_mul, Nat.mul_comm longer.toNat]
    exact Nat.sub_le_sub_left (Nat.mul_le_mul_left elapsed hle) _
  apply Nat.le_of_mul_le_mul_right _ hpos
  calc amount * (period.toNat - elapsed) / period.toNat * longer.toNat * period.toNat
      = amount * (period.toNat - elapsed) / period.toNat * period.toNat * longer.toNat :=
        Nat.mul_right_comm _ _ _
    _ ≤ amount * (period.toNat - elapsed) * longer.toNat :=
        Nat.mul_le_mul_right _ (Nat.div_mul_le_self _ _)
    _ ≤ amount * (longer.toNat - elapsed) * period.toNat := by
        rw [Nat.mul_assoc, Nat.mul_assoc]
        exact Nat.mul_le_mul_left amount hparts

/-- The later, the less is left. -/
theorem remaining_anti {now later : UInt64} (h : now ≤ later) (period : UInt32) :
    offset.remaining later period ≤ offset.remaining now period := by
  have hle : now.toNat ≤ later.toNat := UInt64.le_iff_toNat_le.mp h
  unfold remaining
  apply Nat.div_le_div_right
  apply Nat.mul_le_mul_left
  omega

theorem remaining_eq_zero {now : UInt64} {period : UInt32}
    (h : offset.updatedAt.toNat + period.toNat ≤ now.toNat) : offset.remaining now period = 0 := by
  have hover : period.toNat - (now.toNat - offset.updatedAt.toNat) = 0 := by omega
  unfold remaining
  rw [hover, Nat.mul_zero, Nat.zero_div]

theorem remaining_at_update (amount : UInt64) {period : UInt32} (hperiod : period ≠ 0) :
    (DecayOffset.mk amount now).remaining now period = amount.toNat := by
  have hpos : 0 < period.toNat := Nat.pos_of_ne_zero fun hzero =>
    hperiod (UInt32.toNat_inj.mp hzero)
  unfold remaining
  rw [Nat.sub_self, Nat.sub_zero, Nat.mul_div_cancel _ hpos]

end DecayOffset

def remainingOf (offset? : Option DecayOffset) (now : UInt64) (period : UInt32) : Nat :=
  match offset? with
  | none => 0
  | some offset => offset.remaining now period

theorem remainingOf_mono (offset? : Option DecayOffset) (now : UInt64) {period longer : UInt32}
    (hperiod : period ≠ 0) (h : period ≤ longer) :
    remainingOf offset? now period ≤ remainingOf offset? now longer := by
  cases offset? with
  | none => exact Nat.le_refl _
  | some offset => exact offset.remaining_mono now hperiod h

theorem remainingOf_anti (offset? : Option DecayOffset) {now later : UInt64} (h : now ≤ later)
    (period : UInt32) : remainingOf offset? later period ≤ remainingOf offset? now period := by
  cases offset? with
  | none => exact Nat.le_refl _
  | some offset => exact offset.remaining_anti h period

namespace Machine

theorem exists_offsetNow (setup : Setup) (period : UInt32) (side : Side) (s : State) :
    ∃ left, offsetNow setup period side s = .ok left ∧
      left.toNat =
        remainingOf (s.journal.offset? setup.program.id side) setup.environment.now period := by
  unfold offsetNow
  cases s.journal.offset? setup.program.id side with
  | none => exact ⟨0, rfl, rfl⟩
  | some offset =>
      rcases offset.exists_current setup.environment.now period with ⟨left, hcurrent, hleft⟩
      exact ⟨left, calculate_eq_ok_iff.mpr hcurrent, hleft⟩

/-- The sides whose offsets a trade raises. -/
def Setup.lockedSide (setup : Setup) : Side :=
  ⟨setup.query.assetIn, .output⟩

def Setup.restoredSide (setup : Setup) : Side :=
  ⟨setup.query.assetOut, .input⟩

/-- What a side would hold with `amount` added to it. -/
def raisedTo (setup : Setup) (j : Order.Journal) (period : UInt32) (side : Side)
    (amount : UInt64) : Nat :=
  remainingOf (j.offset? setup.program.id side) setup.environment.now period + amount.toNat

def shiftedTo (setup : Setup) (locked restored : UInt64) (j : Order.Journal) : Order.Journal :=
  (j.setOffset setup.program.id setup.lockedSide ⟨locked, setup.environment.now⟩).setOffset
    setup.program.id setup.restoredSide ⟨restored, setup.environment.now⟩

/-- Recording a trade as offsets fails only where an offset overflows. -/
theorem settleDecay_cases (setup : Setup) (period : UInt32) (s : State) :
    (∃ locked restored : UInt64,
      locked.toNat =
        raisedTo setup s.journal period setup.lockedSide s.registers.amountIn ∧
      restored.toNat =
        raisedTo setup s.journal period setup.restoredSide s.registers.amountOut ∧
      settleDecay setup period s =
        .ok (s.write setup.query.mode (shiftedTo setup locked restored))) ∨
    ((UInt64.size ≤ raisedTo setup s.journal period setup.lockedSide s.registers.amountIn ∨
        UInt64.size ≤
          raisedTo setup s.journal period setup.restoredSide s.registers.amountOut) ∧
      settleDecay setup period s = .error (.arithmetic .decay .overflow)) := by
  rcases exists_offsetNow setup period setup.lockedSide s with ⟨left, hleft, hleftNat⟩
  rcases exists_offsetNow setup period setup.restoredSide s with ⟨right, hright, hrightNat⟩
  have hsettle : settleDecay setup period s = (do
      let locked ← calculate .decay (Arithmetic.gain left s.registers.amountIn)
      let restored ← calculate .decay (Arithmetic.gain right s.registers.amountOut)
      return s.write setup.query.mode (shiftedTo setup locked restored)) := by
    unfold settleDecay
    simp only [show (⟨setup.query.assetIn, .output⟩ : Side) = setup.lockedSide from rfl,
      show (⟨setup.query.assetOut, .input⟩ : Side) = setup.restoredSide from rfl, hleft, hright]
    rfl
  unfold raisedTo
  rw [hsettle, ← hleftNat, ← hrightNat]
  rcases Nat.lt_or_ge (left.toNat + s.registers.amountIn.toNat) UInt64.size with hlocked | hlocked
  · rcases Arithmetic.exists_word .overflow hlocked with ⟨locked, hgainIn, hlockedNat⟩
    have hgainIn : Arithmetic.gain left s.registers.amountIn = .ok locked := hgainIn
    rw [hgainIn]
    rcases Nat.lt_or_ge (right.toNat + s.registers.amountOut.toNat) UInt64.size with
      hrestored | hrestored
    · rcases Arithmetic.exists_word .overflow hrestored with ⟨restored, hgainOut, hrestoredNat⟩
      have hgainOut : Arithmetic.gain right s.registers.amountOut = .ok restored := hgainOut
      rw [hgainOut]
      exact Or.inl ⟨locked, restored, hlockedNat, hrestoredNat, rfl⟩
    · rw [Arithmetic.gain_eq_overflow hrestored]
      exact Or.inr ⟨Or.inr hrestored, rfl⟩
  · rw [Arithmetic.gain_eq_overflow hlocked]
    exact Or.inr ⟨Or.inl hlocked, rfl⟩

end Machine

/-!
# What a sale has released
-/

/-- What a sale has released `elapsed` seconds after its start. -/
def Sale.released (terms : Sale) (elapsed : Nat) : Nat :=
  terms.balanceOut.toNat * min elapsed terms.duration.toNat / terms.duration.toNat

theorem Sale.released_le (terms : Sale) (elapsed : Nat) :
    terms.released elapsed ≤ terms.balanceOut.toNat := by
  apply Nat.div_le_of_le_mul
  rw [Nat.mul_comm terms.duration.toNat]
  exact Nat.mul_le_mul_left _ (Nat.min_le_right _ _)

/-- What a sale has released at a time. -/
def Sale.releasedAt (terms : Sale) (time : UInt64) : Nat :=
  terms.released (time.toNat - terms.start.toNat)

namespace Machine

theorem unlocked_eq_ok_iff {terms : Sale} {elapsed : Nat} {w : UInt64} :
    unlocked terms elapsed = .ok w ↔ terms.duration ≠ 0 ∧ w.toNat = terms.released elapsed := by
  have hfactor : min elapsed terms.duration.toNat < UInt64.size :=
    Nat.lt_of_le_of_lt (Nat.min_le_right _ _) (Nat.lt_trans terms.duration.toNat_lt (by decide))
  have hexact := Arithmetic.exact_eq_ok
    (Arithmetic.mul_lt_wideSize terms.balanceOut.toNat_lt hfactor)
  unfold unlocked
  rw [hexact, ok_bind]
  by_cases hduration : terms.duration = 0
  · simp [hduration, Arithmetic.quotient, error_bind]
  · have hnat : terms.duration.toNat ≠ 0 := fun h => hduration (UInt32.toNat_inj.mp h)
    rw [Arithmetic.quotient_eq_ok hnat, ok_bind, Arithmetic.word_eq_ok_iff]
    exact (and_iff_right hduration).symm

theorem exists_unlocked {terms : Sale} (h : terms.duration ≠ 0) (elapsed : Nat) :
    ∃ w, unlocked terms elapsed = .ok w := by
  have hfit := Nat.lt_of_le_of_lt (terms.released_le elapsed) terms.balanceOut.toNat_lt
  rcases Arithmetic.exists_word .fault hfit with ⟨w, -, hw⟩
  exact ⟨w, unlocked_eq_ok_iff.mpr ⟨h, hw⟩⟩

end Machine
end SwapPricing
