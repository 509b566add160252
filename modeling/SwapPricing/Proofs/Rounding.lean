import Mathlib.Algebra.Order.Floor.Div
import Mathlib.Tactic.Ring
import SwapPricing.Arithmetic.Pool

/-!
# Closed forms of calculations

A calculation that succeeds has the value that its formula has over the natural
numbers.  A cut and its gross amount form a Galois connection, and so do the two
pool formulas: whatever one of them reaches, the other one asks for.
-/

namespace SwapPricing

/-!
# Results
-/

theorem ok_bind {ε α β : Type} (a : α) (f : α → Except ε β) :
    (Except.ok a >>= f) = f a :=
  rfl

theorem error_bind {ε α β : Type} (e : ε) (f : α → Except ε β) :
    (Except.error e >>= f) = .error e :=
  rfl

theorem bind_eq_ok_iff {ε α β : Type} {x : Except ε α} {f : α → Except ε β} {b : β} :
    (x >>= f) = .ok b ↔ ∃ a, x = .ok a ∧ f a = .ok b := by
  cases x with
  | error e => simp [error_bind]
  | ok a => simp [ok_bind]

theorem pure_eq_ok_iff {ε α : Type} {a b : α} : (pure a : Except ε α) = .ok b ↔ a = b := by
  simp [pure, Except.pure]

theorem bind_congr_of_ok {ε α β : Type} {x : Except ε α} {f g : α → Except ε β}
    (h : ∀ a, x = .ok a → f a = g a) : (x >>= f) = (x >>= g) := by
  cases x with
  | error e => rfl
  | ok a => exact h a rfl

theorem bind_eq_map {ε α β γ : Type} {x : Except ε α} {f : α → Except ε γ} {g : α → Except ε β}
    {k : β → γ} (h : ∀ a, f a = (g a).map k) : (x >>= f) = (x >>= g).map k := by
  cases x with
  | error e => rfl
  | ok a => exact h a

theorem map_bind_eq_map {ε α β : Type} {x : Except ε α} {k : α → α} {l : β → β}
    {f g : α → Except ε β} (h : ∀ a, x = .ok a → f (k a) = (g a).map l) :
    (x.map k >>= f) = (x >>= g).map l := by
  cases x with
  | error e => rfl
  | ok a => exact h a rfl

theorem map_eq_ok_iff {ε α β : Type} {f : α → β} {x : Except ε α} {b : β} :
    x.map f = .ok b ↔ ∃ a, x = .ok a ∧ f a = b := by
  cases x with
  | error e => simp [Except.map]
  | ok a => simp [Except.map]

theorem mapError_eq_ok_iff {ε ε' α : Type} {x : Except ε α} {g : ε → ε'} {a : α} :
    x.mapError g = .ok a ↔ x = .ok a := by
  cases x <;> simp [Except.mapError]

namespace Arithmetic

/-!
# Steps
-/

theorem word_eq_ok_iff {reason : MathError} {n : Nat} {w : UInt64} :
    word reason n = .ok w ↔ w.toNat = n := by
  constructor
  · exact toNat_of_word_eq_ok
  · intro h
    subst h
    rw [word_eq_ok w.toNat_lt]
    simp

theorem narrow_eq_ok_iff {n : Nat} {w : UInt64} : narrow n = .ok w ↔ w.toNat = n :=
  word_eq_ok_iff

theorem exists_word (reason : MathError) {n : Nat} (h : n < UInt64.size) :
    ∃ w, word reason n = .ok w ∧ w.toNat = n :=
  ⟨UInt64.ofNatLT n h, word_eq_ok h, by simp⟩

theorem exact_eq_ok {n : Nat} (h : n < wideSize) : exact n = .ok n :=
  within_eq_ok h

/-- The product of two amounts fits in 128 bits. -/
theorem mul_lt_wideSize {m n : Nat} (hm : m < UInt64.size) (hn : n < UInt64.size) :
    m * n < wideSize := by
  have hmul : m * n ≤ (UInt64.size - 1) * (UInt64.size - 1) :=
    Nat.mul_le_mul (by omega) (by omega)
  exact Nat.lt_of_le_of_lt hmul (by decide)

theorem exact_mul (a b : UInt64) : exact (a.toNat * b.toNat) = .ok (a.toNat * b.toNat) :=
  exact_eq_ok (mul_lt_wideSize a.toNat_lt b.toNat_lt)

theorem quotientUp_eq_ok {n d : Nat} (hn : n < wideSize) (hd : d ≠ 0) :
    quotientUp n d = .ok (n ⌈/⌉ d) := by
  have hpos : 0 < d := Nat.pos_of_ne_zero hd
  rw [quotientUp, if_neg hd, Nat.ceilDiv_eq_add_pred_div]
  by_cases hmod : n % d = 0
  · have hdvd : d ∣ n := Nat.dvd_of_mod_eq_zero hmod
    rcases hdvd with ⟨k, rfl⟩
    rw [if_pos hmod, Nat.mul_div_cancel_left k hpos]
    have hlow : d * k + d - 1 = (d - 1) + d * k := by omega
    rw [hlow, Nat.add_mul_div_left _ _ hpos, Nat.div_eq_of_lt (by omega), Nat.zero_add]
  · have hup : (n + d - 1) / d = n / d + 1 := by
      have hsplit : n + d - 1 = (n % d - 1) + d * (n / d + 1) := by
        have := Nat.div_add_mod n d
        rw [Nat.mul_add]
        omega
      have hlt : n % d < d := Nat.mod_lt n hpos
      rw [hsplit, Nat.add_mul_div_left _ _ hpos, Nat.div_eq_of_lt (by omega), Nat.zero_add]
    have hfit : n / d + 1 < wideSize := by
      have hne : d ≠ 1 := by
        rintro rfl
        exact hmod (Nat.mod_one n)
      have hhalf : n / d ≤ n / 2 := Nat.div_le_div_left (by omega) (by omega)
      have hwide : wideSize = 340282366920938463463374607431768211456 := rfl
      omega
    rw [if_neg hmod, hup, exact_eq_ok hfit]

theorem gain_eq_ok_iff {a b c : UInt64} : gain a b = .ok c ↔ c.toNat = a.toNat + b.toNat :=
  narrow_eq_ok_iff

theorem gain_eq_overflow {a b : UInt64} (h : UInt64.size ≤ a.toNat + b.toNat) :
    gain a b = .error .overflow :=
  dif_neg (Nat.not_lt_of_le h)

theorem drain_eq_ok_iff {a b c : UInt64} : drain a b = .ok c ↔ b ≤ a ∧ c = a - b := by
  unfold drain
  split
  · simp_all [eq_comm]
  · simp_all

theorem difference_eq_ok_iff {a b c : UInt64} :
    difference a b = .ok c ↔ b ≤ a ∧ c = a - b := by
  unfold difference
  split
  · simp_all [eq_comm]
  · simp_all

theorem toNat_sub_add {a b : UInt64} (h : b ≤ a) : (a - b).toNat + b.toNat = a.toNat := by
  have hle : b.toNat ≤ a.toNat := UInt64.le_iff_toNat_le.mp h
  rw [UInt64.toNat_sub_of_le a b h]
  omega

/-!
# Products over a divisor
-/

theorem mulDivFloor_eq_ok_iff {a b d c : UInt64} :
    mulDivFloor a b d = .ok c ↔ d ≠ 0 ∧ c.toNat = a.toNat * b.toNat / d.toNat := by
  unfold mulDivFloor
  by_cases hd : d = 0
  · simp [hd]
  · have hnat : d.toNat ≠ 0 := fun h => hd (UInt64.toNat_inj.mp h)
    simp only [hd, if_false, exact_mul, ok_bind, quotient_eq_ok hnat, narrow_eq_ok_iff, ne_eq,
      not_false_eq_true, true_and]

theorem mulDivCeil_eq_ok_iff {a b d c : UInt64} :
    mulDivCeil a b d = .ok c ↔ d ≠ 0 ∧ c.toNat = a.toNat * b.toNat ⌈/⌉ d.toNat := by
  unfold mulDivCeil
  by_cases hd : d = 0
  · simp [hd]
  · have hnat : d.toNat ≠ 0 := fun h => hd (UInt64.toNat_inj.mp h)
    have hfit : a.toNat * b.toNat < wideSize := mul_lt_wideSize a.toNat_lt b.toNat_lt
    simp only [hd, if_false, exact_mul, ok_bind, quotientUp_eq_ok hfit hnat, narrow_eq_ok_iff,
      ne_eq, not_false_eq_true, true_and]

/-!
# Fee rates
-/

theorem keptShare_eq_ok_iff {rate share : UInt64} :
    keptShare rate = .ok share ↔ rate.toNat ≤ bps ∧ share.toNat = bps - rate.toNat := by
  unfold keptShare
  by_cases hrate : rate.toNat ≤ bps
  · simp [hrate, word_eq_ok_iff]
  · simp [hrate]

theorem exists_keptShare {rate : UInt64} (h : rate.toNat ≤ bps) :
    ∃ share, keptShare rate = .ok share ∧ share.toNat = bps - rate.toNat := by
  have hfit : bps - rate.toNat < UInt64.size :=
    Nat.lt_of_le_of_lt (Nat.sub_le _ _) (show bps < UInt64.size by decide)
  rcases exists_word .fault hfit with ⟨share, hshare, hnat⟩
  exact ⟨share, by simp [keptShare, h, hshare], hnat⟩

theorem deductRate_eq_ok_iff {amount rate net : UInt64} :
    deductRate amount rate = .ok net ↔
      rate.toNat ≤ bps ∧ net.toNat = amount.toNat * (bps - rate.toNat) / bps := by
  unfold deductRate
  rw [bind_eq_ok_iff]
  constructor
  · rintro ⟨share, hshare, hnet⟩
    rcases keptShare_eq_ok_iff.mp hshare with ⟨hrate, hkept⟩
    have hvalue := (mulDivFloor_eq_ok_iff.mp hnet).2
    rw [hkept] at hvalue
    exact ⟨hrate, hvalue⟩
  · rintro ⟨hrate, hnet⟩
    rcases exists_keptShare hrate with ⟨share, hshare, hkept⟩
    refine ⟨share, hshare, mulDivFloor_eq_ok_iff.mpr ⟨by decide, ?_⟩⟩
    rw [hkept]
    exact hnet

theorem grossUp_eq_ok_iff {amount rate gross : UInt64} :
    grossUp amount rate = .ok gross ↔
      rate.toNat < bps ∧ gross.toNat = amount.toNat * bps ⌈/⌉ (bps - rate.toNat) := by
  unfold grossUp
  rw [bind_eq_ok_iff]
  constructor
  · rintro ⟨share, hshare, hgross⟩
    rcases keptShare_eq_ok_iff.mp hshare with ⟨hrate, hkept⟩
    rcases mulDivCeil_eq_ok_iff.mp hgross with ⟨hne, hvalue⟩
    have hpos : share.toNat ≠ 0 := fun h => hne (UInt64.toNat_inj.mp h)
    rw [hkept] at hvalue
    exact ⟨by omega, hvalue⟩
  · rintro ⟨hrate, hgross⟩
    rcases exists_keptShare (Nat.le_of_lt hrate) with ⟨share, hshare, hkept⟩
    have hne : share ≠ 0 := by
      rintro rfl
      have hzero : (0 : UInt64).toNat = 0 := rfl
      omega
    refine ⟨share, hshare, mulDivCeil_eq_ok_iff.mpr ⟨hne, ?_⟩⟩
    rw [hkept]
    exact hgross

/-- A cut never fails for a rate of at most one. -/
theorem exists_deductRate (amount : UInt64) {rate : UInt64} (h : rate.toNat ≤ bps) :
    ∃ net, deductRate amount rate = .ok net := by
  have hle : amount.toNat * (bps - rate.toNat) / bps ≤ amount.toNat := by
    apply Nat.div_le_of_le_mul
    rw [Nat.mul_comm]
    exact Nat.mul_le_mul_right _ (Nat.sub_le _ _)
  rcases exists_word .overflow (Nat.lt_of_le_of_lt hle amount.toNat_lt) with ⟨net, -, hnet⟩
  exact ⟨net, deductRate_eq_ok_iff.mpr ⟨h, hnet⟩⟩

theorem deductRate_le {amount rate net : UInt64} (h : deductRate amount rate = .ok net) :
    net ≤ amount := by
  rw [UInt64.le_iff_toNat_le, (deductRate_eq_ok_iff.mp h).2]
  apply Nat.div_le_of_le_mul
  rw [Nat.mul_comm]
  exact Nat.mul_le_mul_right _ (Nat.sub_le _ _)

theorem le_grossUp {amount rate gross : UInt64} (h : grossUp amount rate = .ok gross) :
    amount ≤ gross := by
  rcases grossUp_eq_ok_iff.mp h with ⟨hrate, hgross⟩
  have hpos : 0 < bps - rate.toNat := by omega
  have hceil : amount.toNat * bps ≤ (bps - rate.toNat) * gross.toNat := by
    rw [← ceilDiv_le_iff_le_mul hpos, hgross]
  have hshare : (bps - rate.toNat) * gross.toNat ≤ bps * gross.toNat :=
    Nat.mul_le_mul_right _ (Nat.sub_le _ _)
  have hbps : 0 < bps := by decide
  rw [UInt64.le_iff_toNat_le]
  apply Nat.le_of_mul_le_mul_left _ hbps
  rw [Nat.mul_comm bps amount.toNat]
  exact Nat.le_trans hceil hshare

/-- A cut leaves at least `target` exactly of amounts that reach the gross
amount of `target`. -/
theorem le_deductRate_iff {amount rate net target : UInt64} (hrate : rate.toNat < bps)
    (h : deductRate amount rate = .ok net) :
    target ≤ net ↔ ∃ gross, grossUp target rate = .ok gross ∧ gross ≤ amount := by
  have hpos : 0 < bps - rate.toNat := by omega
  have hbps : 0 < bps := by decide
  have hnet := (deductRate_eq_ok_iff.mp h).2
  have hreach : target ≤ net ↔
      target.toNat * bps ⌈/⌉ (bps - rate.toNat) ≤ amount.toNat := by
    rw [UInt64.le_iff_toNat_le, hnet, Nat.le_div_iff_mul_le hbps, ceilDiv_le_iff_le_mul hpos,
      Nat.mul_comm amount.toNat]
  rw [hreach]
  constructor
  · intro hle
    rcases exists_word .overflow (Nat.lt_of_le_of_lt hle amount.toNat_lt) with ⟨gross, -, hgross⟩
    refine ⟨gross, grossUp_eq_ok_iff.mpr ⟨hrate, hgross⟩, ?_⟩
    rw [UInt64.le_iff_toNat_le, hgross]
    exact hle
  · rintro ⟨gross, hgross, hle⟩
    rw [← (grossUp_eq_ok_iff.mp hgross).2]
    exact UInt64.le_iff_toNat_le.mp hle

/-!
# Constant product
-/

theorem quoteExactIn_eq_ok_iff {balanceIn balanceOut amountIn amountOut : UInt64} :
    quoteExactIn balanceIn balanceOut amountIn = .ok amountOut ↔
      balanceIn ≠ 0 ∧ balanceOut ≠ 0 ∧
        amountOut.toNat =
          amountIn.toNat * balanceOut.toNat / (balanceIn.toNat + amountIn.toNat) := by
  unfold quoteExactIn
  by_cases hin : balanceIn = 0
  · simp [hin]
  by_cases hout : balanceOut = 0
  · simp [hout]
  have hnat : balanceIn.toNat ≠ 0 := fun h => hin (UInt64.toNat_inj.mp h)
  have hsum : balanceIn.toNat + amountIn.toNat < wideSize := by
    have h₁ := balanceIn.toNat_lt
    have h₂ := amountIn.toNat_lt
    have hwide : wideSize = 340282366920938463463374607431768211456 := rfl
    omega
  have hdivisor : balanceIn.toNat + amountIn.toNat ≠ 0 := by omega
  simp only [hin, hout, or_self, if_false, exact_mul, exact_eq_ok hsum, ok_bind,
    quotient_eq_ok hdivisor, narrow_eq_ok_iff, ne_eq, not_false_eq_true, true_and]

theorem quoteExactOut_eq_ok_iff {balanceIn balanceOut amountIn amountOut : UInt64} :
    quoteExactOut balanceIn balanceOut amountOut = .ok amountIn ↔
      balanceIn ≠ 0 ∧ amountOut < balanceOut ∧
        amountIn.toNat =
          amountOut.toNat * balanceIn.toNat ⌈/⌉ (balanceOut.toNat - amountOut.toNat) := by
  unfold quoteExactOut
  by_cases hin : balanceIn = 0
  · simp [hin]
  by_cases hle : balanceOut ≤ amountOut
  · simp [hin, hle]
  have hlt : amountOut < balanceOut := UInt64.not_le.mp hle
  have hnat : amountOut.toNat < balanceOut.toNat := UInt64.lt_iff_toNat_lt.mp hlt
  have hout : balanceOut ≠ 0 := by
    rintro rfl
    have hzero : (0 : UInt64).toNat = 0 := rfl
    omega
  have hdivisor : balanceOut.toNat - amountOut.toNat ≠ 0 := by omega
  have hfit : amountOut.toNat * balanceIn.toNat < wideSize :=
    mul_lt_wideSize amountOut.toNat_lt balanceIn.toNat_lt
  simp only [hin, hout, or_self, hle, if_false, exact_mul, minus_eq_ok (Nat.le_of_lt hnat),
    ok_bind, quotientUp_eq_ok hfit hdivisor, narrow_eq_ok_iff, ne_eq, not_false_eq_true, hlt,
    true_and]

/-- The pool pays for every input, and never all it holds. -/
theorem exists_quoteExactIn {balanceIn balanceOut : UInt64} (hin : balanceIn ≠ 0)
    (hout : balanceOut ≠ 0) (amountIn : UInt64) :
    ∃ amountOut, quoteExactIn balanceIn balanceOut amountIn = .ok amountOut := by
  have hnat : balanceIn.toNat ≠ 0 := fun h => hin (UInt64.toNat_inj.mp h)
  have hle : amountIn.toNat * balanceOut.toNat / (balanceIn.toNat + amountIn.toNat) ≤
      balanceOut.toNat := by
    apply Nat.div_le_of_le_mul
    exact Nat.mul_le_mul_right _ (by omega)
  rcases exists_word .overflow (Nat.lt_of_le_of_lt hle balanceOut.toNat_lt) with
    ⟨amountOut, -, hvalue⟩
  exact ⟨amountOut, quoteExactIn_eq_ok_iff.mpr ⟨hin, hout, hvalue⟩⟩

/-- The pool pays at least `target` exactly for inputs that reach what it asks
for `target`. -/
theorem le_quoteExactIn_iff {balanceIn balanceOut amountIn amountOut target : UInt64}
    (htarget : target ≠ 0) (h : quoteExactIn balanceIn balanceOut amountIn = .ok amountOut) :
    target ≤ amountOut ↔
      ∃ asked, quoteExactOut balanceIn balanceOut target = .ok asked ∧ asked ≤ amountIn := by
  rcases quoteExactIn_eq_ok_iff.mp h with ⟨hin, -, hvalue⟩
  have hnat : balanceIn.toNat ≠ 0 := fun h => hin (UInt64.toNat_inj.mp h)
  have hpos : 0 < target.toNat := by
    have : target.toNat ≠ 0 := fun h => htarget (UInt64.toNat_inj.mp h)
    omega
  have hreach : target ≤ amountOut ↔
      target.toNat * (balanceIn.toNat + amountIn.toNat) ≤
        amountIn.toNat * balanceOut.toNat := by
    rw [UInt64.le_iff_toNat_le, hvalue, Nat.le_div_iff_mul_le (by omega)]
  rw [hreach]
  constructor
  · intro hle
    have hlt : target.toNat < balanceOut.toNat := by
      by_contra hge
      have hcover : amountIn.toNat * balanceOut.toNat ≤ target.toNat * amountIn.toNat := by
        rw [Nat.mul_comm target.toNat]
        exact Nat.mul_le_mul_left _ (by omega)
      have hmore : 0 < target.toNat * balanceIn.toNat := Nat.mul_pos hpos (by omega)
      rw [Nat.mul_add] at hle
      omega
    have hceil : target.toNat * balanceIn.toNat ⌈/⌉ (balanceOut.toNat - target.toNat) ≤
        amountIn.toNat := by
      rw [ceilDiv_le_iff_le_mul (by omega), Nat.sub_mul, Nat.mul_comm balanceOut.toNat]
      rw [Nat.mul_add] at hle
      omega
    rcases exists_word .overflow (Nat.lt_of_le_of_lt hceil amountIn.toNat_lt) with
      ⟨asked, -, hasked⟩
    refine ⟨asked, quoteExactOut_eq_ok_iff.mpr ⟨hin, UInt64.lt_iff_toNat_lt.mpr hlt, hasked⟩, ?_⟩
    rw [UInt64.le_iff_toNat_le, hasked]
    exact hceil
  · rintro ⟨asked, hasked, hle⟩
    rcases quoteExactOut_eq_ok_iff.mp hasked with ⟨-, hlt, hnumber⟩
    have hlt := UInt64.lt_iff_toNat_lt.mp hlt
    have hle := UInt64.le_iff_toNat_le.mp hle
    rw [hnumber, ceilDiv_le_iff_le_mul (by omega), Nat.sub_mul, Nat.mul_comm balanceOut.toNat]
      at hle
    rw [Nat.mul_add]
    have hcover : target.toNat * amountIn.toNat ≤ amountIn.toNat * balanceOut.toNat := by
      rw [Nat.mul_comm target.toNat]
      exact Nat.mul_le_mul_left _ (by omega)
    omega

/-- A trade at a fixed input leaves a product that is no smaller. -/
theorem product_le_of_quoteExactIn {balanceIn balanceOut amountIn amountOut : UInt64}
    (h : quoteExactIn balanceIn balanceOut amountIn = .ok amountOut) :
    amountOut.toNat < balanceOut.toNat ∧
      balanceIn.toNat * balanceOut.toNat ≤
        (balanceIn.toNat + amountIn.toNat) * (balanceOut.toNat - amountOut.toNat) := by
  rcases quoteExactIn_eq_ok_iff.mp h with ⟨hin, hout, hvalue⟩
  have hinPos : 0 < balanceIn.toNat :=
    Nat.pos_of_ne_zero fun h => hin (UInt64.toNat_inj.mp h)
  have houtPos : 0 < balanceOut.toNat :=
    Nat.pos_of_ne_zero fun h => hout (UInt64.toNat_inj.mp h)
  have hfloor : amountOut.toNat * (balanceIn.toNat + amountIn.toNat) ≤
      amountIn.toNat * balanceOut.toNat := by
    rw [hvalue]
    exact Nat.div_mul_le_self _ _
  constructor
  · have hstrict : amountIn.toNat * balanceOut.toNat <
        balanceOut.toNat * (balanceIn.toNat + amountIn.toNat) := by
      have hmore : 0 < balanceOut.toNat * balanceIn.toNat := Nat.mul_pos houtPos hinPos
      rw [Nat.mul_add, Nat.mul_comm amountIn.toNat]
      omega
    exact Nat.lt_of_mul_lt_mul_right (Nat.lt_of_le_of_lt hfloor hstrict)
  · rw [Nat.mul_sub, Nat.add_mul, Nat.mul_comm _ amountOut.toNat]
    omega

/-- A trade at a fixed output leaves a product that is no smaller. -/
theorem product_le_of_quoteExactOut {balanceIn balanceOut amountIn amountOut : UInt64}
    (h : quoteExactOut balanceIn balanceOut amountOut = .ok amountIn) :
    amountOut.toNat < balanceOut.toNat ∧
      balanceIn.toNat * balanceOut.toNat ≤
        (balanceIn.toNat + amountIn.toNat) * (balanceOut.toNat - amountOut.toNat) := by
  rcases quoteExactOut_eq_ok_iff.mp h with ⟨-, hlt, hvalue⟩
  have hlt := UInt64.lt_iff_toNat_lt.mp hlt
  have hceil : amountOut.toNat * balanceIn.toNat ≤
      (balanceOut.toNat - amountOut.toNat) * amountIn.toNat := by
    rw [← ceilDiv_le_iff_le_mul (by omega), hvalue]
  refine ⟨hlt, ?_⟩
  have hkept : amountOut.toNat * balanceIn.toNat ≤ balanceOut.toNat * balanceIn.toNat :=
    Nat.mul_le_mul_right _ (Nat.le_of_lt hlt)
  rw [Nat.add_mul, Nat.mul_sub, Nat.mul_comm balanceIn.toNat, Nat.mul_comm balanceIn.toNat,
    Nat.mul_comm amountIn.toNat]
  omega

end Arithmetic
end SwapPricing
