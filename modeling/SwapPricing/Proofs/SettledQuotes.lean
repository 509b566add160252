import SwapPricing.Proofs.Executed
import SwapPricing.Proofs.Offsets
import SwapPricing.Proofs.Quoting

/-!
# Settlements of quotes

A settlement of a swap reads what the earlier ones have written, and that of its
quote reads the store.  They agree as long as nothing is read that has been
written, and otherwise the quote reads no more than the swap does, up to the
pace at which offsets fade.
-/

namespace SwapPricing

/-- What a quote cannot see a second time. -/
inductive Mark where
  | bit (bit : UInt32)
  | filled (leg : Leg)
  | decayed
  deriving DecidableEq

namespace Operation

def mark? : Instruction → Option Mark
  | invalidateBit bit => some (.bit bit)
  | fillCap leg _ => some (.filled leg)
  | decay _ => some .decayed
  | _ => none

def period? : Instruction → Option UInt32
  | decay period => some period
  | _ => none

theorem eq_decay_of_period? {i : Instruction} {period : UInt32} (h : i.period? = some period) :
    i = .decay period := by
  cases i with
  | decay own =>
      cases h
      rfl
  | _ => cases h

end Operation

namespace Machine

/-!
# Settling
-/

namespace Settlement

def mark? (work : Settlement) : Option Mark :=
  work.origin?.bind Operation.mark?

def period? (work : Settlement) : Option UInt32 :=
  work.origin?.bind Operation.period?

theorem eq_decay_of_period? {work : Settlement} {period : UInt32}
    (h : work.period? = some period) : work = .decay period := by
  cases work with
  | decay own =>
      cases h
      rfl
  | _ => cases h

end Settlement

section Settling

variable {setup : Setup} {store : Order.Store} {s : State}

theorem write_over {mode : ExecutionMode} {change change' : Order.Journal → Order.Journal} :
    (s.over store).write .simulate change' = (s.write mode change).over store := by
  cases mode <;> rfl

theorem settle_over_of_settlesAlike {work : Settlement}
    (h : SettlesAlike setup s.journal (.opened store) work) :
    settle setup.quoting work (s.over store) = (settle setup work s).map (State.over store) := by
  rw [quoting_eq, over_eq]
  exact settle_withJournal (transmits_over store setup.query.mode) h

/-- What is still to be settled reads nothing that has been written. -/
structure Unread (setup : Setup) (store : Order.Store) (works : List Settlement) (s : State) :
    Prop where
  offset : .decayed ∈ works.filterMap Settlement.mark? → ∀ side,
    s.journal.offset? setup.program.id side = store.offset? setup.program.id side
  filled : ∀ leg, .filled leg ∈ works.filterMap Settlement.mark? →
    s.journal.filled setup.program.id ⟨setup.query.asset leg, leg⟩ =
      store.filled setup.program.id ⟨setup.query.asset leg, leg⟩

theorem settle_over {work : Settlement} {rest : List Settlement}
    (hs : Unread setup store (work :: rest) s) :
    settle setup.quoting work (s.over store) = (settle setup work s).map (State.over store) := by
  apply settle_over_of_settlesAlike
  cases work with
  | decay period => exact fun side => (hs.offset List.mem_cons_self side).symm
  | fillCap leg cap => exact (hs.filled leg List.mem_cons_self).symm
  | _ => trivial

namespace Unread

variable {work : Settlement} {works rest : List Settlement} {s' : State}

theorem tail (hs : Unread setup store (work :: rest) s) : Unread setup store rest s := by
  have hsub : (rest.filterMap Settlement.mark?).Sublist
      ((work :: rest).filterMap Settlement.mark?) :=
    List.Sublist.filterMap _ (List.sublist_cons_self work rest)
  constructor
  · intro hmem
    exact hs.offset (hsub.subset hmem)
  · intro leg hmem
    exact hs.filled leg (hsub.subset hmem)

theorem write {mode : ExecutionMode} {change : Order.Journal → Order.Journal}
    (hoffset : .decayed ∈ works.filterMap Settlement.mark? → ∀ side,
      (change s.journal).offset? setup.program.id side =
        s.journal.offset? setup.program.id side)
    (hfilled : ∀ leg, .filled leg ∈ works.filterMap Settlement.mark? →
      (change s.journal).filled setup.program.id ⟨setup.query.asset leg, leg⟩ =
        s.journal.filled setup.program.id ⟨setup.query.asset leg, leg⟩)
    (hs : Unread setup store works s) : Unread setup store works (s.write mode change) := by
  cases mode with
  | simulate => exact hs
  | commit =>
      constructor
      · intro hmem side
        exact (hoffset hmem side).trans (hs.offset hmem side)
      · intro leg hmem
        exact (hfilled leg hmem).trans (hs.filled leg hmem)

theorem settle (hnodup : ((work :: rest).filterMap Settlement.mark?).Nodup)
    (h : Settled setup work s s') (hs : Unread setup store (work :: rest) s) :
    Unread setup store rest s' := by
  have htail := hs.tail
  cases h with
  | stored hin hout => exact htail.write (fun _ _ => rfl) fun _ _ => rfl
  | shifted =>
      have hmark : ∀ period, (Settlement.decay period).mark? = some .decayed := fun _ => rfl
      rw [List.filterMap_cons_some (hmark _), List.nodup_cons] at hnodup
      exact htail.write (fun hmem => absurd hmem hnodup.1) fun _ _ => rfl
  | sold => exact htail.write (fun _ _ => rfl) fun _ _ => rfl
  | charged hfee => exact ⟨htail.offset, htail.filled⟩
  | filled hcap =>
      rename_i leg cap
      have hmark : (Settlement.fillCap leg cap).mark? = some (.filled leg) := rfl
      rw [List.filterMap_cons_some hmark, List.nodup_cons] at hnodup
      refine htail.write (fun _ _ => rfl) ?_
      intro other hmem
      apply Order.Journal.filled_setFilled_of_ne
      intro heq
      injection heq with _ hleg
      exact hnodup.1 (hleg ▸ hmem)

end Unread

theorem settleAll_over {works : List Settlement}
    (hnodup : (works.filterMap Settlement.mark?).Nodup) (hs : Unread setup store works s) :
    settleAll setup.quoting works (s.over store) =
      (settleAll setup works s).map (State.over store) := by
  rw [quoting_eq, over_eq]
  apply settleAll_withJournal fun works s =>
    (works.filterMap Settlement.mark?).Nodup ∧ Unread setup store works s
  · intro work rest s hs
    exact settle_over hs.2
  · intro work rest s s' hsettled hs
    refine ⟨?_, hs.2.settle hs.1 hsettled⟩
    exact hs.1.sublist (List.Sublist.filterMap _ (List.sublist_cons_self work rest))
  · exact ⟨hnodup, hs⟩

/-!
# Settling a swap that succeeds

What a swap has written is no less than what its quote reads in its place,
unless the quote lets an offset fade over a longer period than that of the
settlement that wrote it.
-/

/-- The journal `j` is ahead of `store`.  Once a decay has been settled, the
first one over the period `first`, its offsets are those of this moment. -/
structure Ahead (setup : Setup) (store : Order.Store) (first : Option UInt32)
    (j : Order.Journal) : Prop where
  unsettled : first = none → ∀ side,
    j.offset? setup.program.id side = store.offset? setup.program.id side
  settled : ∀ period, first = some period → ∀ side,
    side = setup.lockedSide ∨ side = setup.restoredSide →
    ∃ amount, j.offset? setup.program.id side = some ⟨amount, setup.environment.now⟩ ∧
      remainingOf (store.offset? setup.program.id side) setup.environment.now period ≤
        amount.toNat
  filled : ∀ side,
    (store.filled setup.program.id side).toNat ≤ (j.filled setup.program.id side).toNat

namespace Ahead

variable {first : Option UInt32} {j : Order.Journal} {period : UInt32} {side : Side}

theorem of_onlyBits (hj : OnlyBits store j) : Ahead setup store none j where
  unsettled _ side := hj.offset? setup.program.id side
  settled period h := nomatch h
  filled side := by rw [hj.filled]

/-- The swap has at least as much left of an offset as was left when a decay was
settled first. -/
theorem remainingOf_le (hs : Ahead setup store first j) (hperiod : period ≠ 0)
    (hside : side = setup.lockedSide ∨ side = setup.restoredSide) :
    remainingOf (store.offset? setup.program.id side) setup.environment.now
        (first.getD period) ≤
      remainingOf (j.offset? setup.program.id side) setup.environment.now period := by
  cases hfirst : first with
  | none =>
      rw [hs.unsettled hfirst side]
      exact Nat.le_refl _
  | some earlier =>
      rcases hs.settled earlier hfirst side hside with ⟨amount, hoffset, hle⟩
      rw [hoffset]
      show _ ≤ (DecayOffset.mk amount setup.environment.now).remaining _ period
      rw [DecayOffset.remaining_at_update _ _ hperiod]
      exact hle

/-- A settled decay leaves the journal ahead. -/
theorem shifted {s : State} {locked restored : UInt64} (hperiod : period ≠ 0)
    (hlocked : locked.toNat =
      raisedTo setup s.journal period setup.lockedSide s.registers.amountIn)
    (hrestored : restored.toNat =
      raisedTo setup s.journal period setup.restoredSide s.registers.amountOut)
    (hs : Ahead setup store first s.journal) :
    Ahead setup store (some (first.getD period)) (shiftedTo setup locked restored s.journal) := by
  have hne : setup.lockedSide ≠ setup.restoredSide := by
    intro heq
    injection heq with _ hleg
    cases hleg
  refine ⟨nofun, ?_, hs.filled⟩
  intro earlier hearlier side hside
  cases hearlier
  have hle := hs.remainingOf_le hperiod hside
  rcases hside with rfl | rfl
  · refine ⟨locked, ?_, ?_⟩
    · unfold shiftedTo
      rw [Order.Journal.offset?_setOffset_of_ne _ _ hne, Order.Journal.offset?_setOffset_self]
    · rw [hlocked]
      exact Nat.le_trans hle (Nat.le_add_right _ _)
  · refine ⟨restored, ?_, ?_⟩
    · exact Order.Journal.offset?_setOffset_self _ _ _ _
    · rw [hrestored]
      exact Nat.le_trans hle (Nat.le_add_right _ _)

theorem write {s : State} {mode : ExecutionMode} {change : Order.Journal → Order.Journal}
    (hoffset : ∀ side, (change s.journal).offset? setup.program.id side =
      s.journal.offset? setup.program.id side)
    (hfilled : ∀ side, (s.journal.filled setup.program.id side).toNat ≤
      ((change s.journal).filled setup.program.id side).toNat)
    (hs : Ahead setup store first s.journal) :
    Ahead setup store first (s.write mode change).journal := by
  cases mode with
  | simulate => exact hs
  | commit =>
      constructor
      · intro hfirst side
        exact (hoffset side).trans (hs.unsettled hfirst side)
      · intro earlier hfirst side hside
        rcases hs.settled earlier hfirst side hside with ⟨amount, heq, hle⟩
        exact ⟨amount, (hoffset side).trans heq, hle⟩
      · intro side
        exact Nat.le_trans (hs.filled side) (hfilled side)

theorem settle {work : Settlement} {s s' : State} (hperiod : work.period? = none)
    (h : Settled setup work s s') (hs : Ahead setup store first s.journal) :
    Ahead setup store first s'.journal := by
  cases h with
  | stored hin hout => exact hs.write (fun _ => rfl) fun _ => Nat.le_refl _
  | shifted => cases hperiod
  | sold => exact hs.write (fun _ => rfl) fun _ => Nat.le_refl _
  | charged hfee => exact hs
  | filled hcap =>
      have hfit := Nat.lt_of_le_of_lt hcap (UInt64.toNat_lt _)
      exact hs.write (fun _ => rfl) fun side =>
        s.journal.filled_le_setFilled setup.program.id setup.program.id _ hfit side

theorem settleDecay {s s' : State} (hmode : setup.query.mode = .commit) (hperiod : period ≠ 0)
    (h : Machine.settleDecay setup period s = .ok s') (hs : Ahead setup store first s.journal) :
    Ahead setup store (some (first.getD period)) s'.journal := by
  rcases settleDecay_cases setup period s with
    ⟨locked, restored, hlocked, hrestored, hok⟩ | ⟨-, he⟩
  · have hs' : s' = s.write setup.query.mode (shiftedTo setup locked restored) :=
      Except.ok.inj (h.symm.trans hok)
    rw [hs', hmode]
    exact hs.shifted hperiod hlocked hrestored
  · cases h.symm.trans he

end Ahead

/-- A decay that the swap settles can fail to settle only in a quote over a
period longer than the first one. -/
theorem settleDecay_quoting {first : Option UInt32} {period : UInt32} {s' : State}
    (hperiod : period ≠ 0) (hs : Ahead setup store first s.journal)
    (h : settleDecay setup period s = .ok s') :
    settleDecay setup.quoting period (s.over store) = .ok (s'.over store) ∨
      settleDecay setup.quoting period (s.over store) =
          .error (.arithmetic .decay .overflow) ∧ first.getD period < period := by
  rcases settleDecay_cases setup period s with ⟨locked, restored, hlocked, hrestored, hok⟩ | ⟨-, he⟩
  · have heq : s' = s.write setup.query.mode (shiftedTo setup locked restored) :=
      Except.ok.inj (h.symm.trans hok)
    rcases settleDecay_cases setup.quoting period (s.over store) with
      ⟨lockedQ, restoredQ, -, -, hquote⟩ | ⟨hover, hquote⟩
    · refine Or.inl (hquote.trans ?_)
      rw [heq]
      exact congrArg Except.ok write_over
    · refine Or.inr ⟨hquote, ?_⟩
      rw [← UInt32.not_le]
      intro hle
      have hread : ∀ side, side = setup.lockedSide ∨ side = setup.restoredSide →
          remainingOf (store.offset? setup.program.id side) setup.environment.now period ≤
            remainingOf (s.journal.offset? setup.program.id side) setup.environment.now period :=
        fun side hside => Nat.le_trans (remainingOf_mono _ _ hperiod hle)
          (hs.remainingOf_le hperiod hside)
      rcases hover with hover | hover
      · have hsum := Nat.le_trans hover
          (Nat.add_le_add_right (hread setup.lockedSide (Or.inl rfl)) _)
        have hlt := locked.toNat_lt
        rw [hlocked] at hlt
        exact Nat.not_lt_of_le hsum hlt
      · have hsum := Nat.le_trans hover
          (Nat.add_le_add_right (hread setup.restoredSide (Or.inr rfl)) _)
        have hlt := restored.toNat_lt
        rw [hrestored] at hlt
        exact Nat.not_lt_of_le hsum hlt
  · cases h.symm.trans he

theorem settleFillCap_quoting {first : Option UInt32} {leg : Leg} {cap : UInt64} {s' : State}
    (hs : Ahead setup store first s.journal) (h : settleFillCap setup leg cap s = .ok s') :
    settleFillCap setup.quoting leg cap (s.over store) = .ok (s'.over store) := by
  simp only [settleFillCap, bind_eq_ok_iff, check_eq_ok_iff, pure_eq_ok_iff] at h ⊢
  rcases h with ⟨u, hcap, rfl⟩
  refine ⟨u, ?_, write_over⟩
  exact Nat.le_trans (Nat.add_le_add_right (hs.filled _) _) hcap

/-- Whatever but a decay the swap settles, its quote settles. -/
theorem settle_quoting {first : Option UInt32} {work : Settlement} {s' : State}
    (hperiod : work.period? = none) (hs : Ahead setup store first s.journal)
    (h : settle setup work s = .ok s') :
    settle setup.quoting work (s.over store) = .ok (s'.over store) := by
  cases work with
  | decay period => cases hperiod
  | fillCap leg cap => exact settleFillCap_quoting hs h
  | _ =>
      rw [settle_over_of_settlesAlike, h]
      · rfl
      · trivial

/-- A period that is longer than the first of `periods`. -/
def ExceedsFirst (periods : List UInt32) : Prop :=
  ∃ first ∈ periods.head?, ∃ period ∈ periods, first < period

theorem ExceedsFirst.of_lt {first : Option UInt32} {period : UInt32} (periods : List UInt32)
    (h : first.getD period < period) : ExceedsFirst (first.toList ++ period :: periods) := by
  cases first with
  | none => exact absurd h (UInt32.lt_irrefl period)
  | some earlier =>
      refine ⟨earlier, rfl, period, ?_, h⟩
      exact List.mem_cons_of_mem earlier List.mem_cons_self

theorem ExceedsFirst.cons {first : Option UInt32} {period : UInt32} {periods : List UInt32}
    (h : ExceedsFirst ((some (first.getD period)).toList ++ periods)) :
    ExceedsFirst (first.toList ++ period :: periods) := by
  cases first with
  | none => exact h
  | some earlier =>
      rcases h with ⟨head, hhead, longer, hmem, hlt⟩
      refine ⟨head, hhead, longer, ?_, hlt⟩
      rcases List.mem_cons.mp hmem with heq | hmem
      · exact heq ▸ List.mem_cons_self
      · exact List.mem_cons_of_mem earlier (List.mem_cons_of_mem period hmem)

/-- The result of a quote's settlements: that of the swap, or a failed decay. -/
def Predicts (store : Order.Store) (x : Run State) (s : State) (excuse : Prop) : Prop :=
  x = .ok (s.over store) ∨ x = .error (.arithmetic .decay .overflow) ∧ excuse

theorem settleAll_quoting (hmode : setup.query.mode = .commit) {works : List Settlement}
    {first : Option UInt32} {s' : State}
    (hperiods : ∀ period ∈ works.filterMap Settlement.period?, period ≠ 0)
    (hs : Ahead setup store first s.journal) (h : settleAll setup works s = .ok s') :
    Predicts store (settleAll setup.quoting works (s.over store)) s'
      (ExceedsFirst (first.toList ++ works.filterMap Settlement.period?)) := by
  induction works generalizing s first with
  | nil =>
      injection h with h
      exact Or.inl (congrArg (fun s => Except.ok (State.over store s)) h)
  | cons work rest ih =>
      unfold settleAll at h ⊢
      rw [bind_eq_ok_iff] at h
      rcases h with ⟨t, hwork, hrest⟩
      -- Only a decay moves `first`, which is the period of the first one settled.
      cases hperiod : work.period? with
      | none =>
          rw [settle_quoting hperiod hs hwork, ok_bind, List.filterMap_cons_none hperiod]
          rw [List.filterMap_cons_none hperiod] at hperiods
          exact ih hperiods (hs.settle hperiod (settle_eq_ok hwork)) hrest
      | some period =>
          have hdecay : work = .decay period := Settlement.eq_decay_of_period? hperiod
          subst hdecay
          have hnonzero := hperiods period List.mem_cons_self
          rcases settleDecay_quoting hnonzero hs hwork with hquote | ⟨hquote, hlt⟩
          · show Predicts store (settleDecay setup.quoting period (s.over store) >>= _) _ _
            rw [hquote, ok_bind]
            have hrestPeriods : ∀ later ∈ rest.filterMap Settlement.period?, later ≠ 0 :=
              fun later hmem => hperiods later (List.mem_cons_of_mem period hmem)
            rcases ih hrestPeriods (hs.settleDecay hmode hnonzero hwork) hrest with
              hresult | ⟨hresult, hexcuse⟩
            · exact Or.inl hresult
            · exact Or.inr ⟨hresult, hexcuse.cons⟩
          · show Predicts store (settleDecay setup.quoting period (s.over store) >>= _) _ _
            rw [hquote, error_bind]
            exact Or.inr ⟨rfl, .of_lt _ hlt⟩

end Settling

end Machine
end SwapPricing
