import SwapPricing.Trade

/-!
# Keys of order state

Every entry of the order state belongs to one program.  Its key is the program
together with what the entry is about, so no program can name an entry of
another one.  Keys are ordered by their parts, the program first.
-/

namespace SwapPricing

/-- What is called `subject` within the state of `program`. -/
structure Owned (σ : Type) where
  program : ProgramId
  subject : σ
  deriving DecidableEq

/-- An asset on one leg of a trade. -/
structure Side where
  asset : AssetId
  leg : Leg
  deriving DecidableEq

namespace Owned

theorem mk_ne_mk {σ : Type} {subject other : σ} (h : subject ≠ other) (program : ProgramId) :
    (⟨program, subject⟩ : Owned σ) ≠ ⟨program, other⟩ := by
  intro heq
  injection heq with _ hsubject
  exact h hsubject

variable {σ : Type} [Ord σ]

instance : Ord (Owned σ) where
  compare := compareLex (compareOn Owned.program) (compareOn Owned.subject)

theorem compare_def (a b : Owned σ) :
    compare a b = (compare a.program b.program).then (compare a.subject b.subject) :=
  rfl

instance [Std.TransOrd σ] : Std.TransOrd (Owned σ) :=
  inferInstanceAs (Std.TransCmp (compareLex (compareOn Owned.program) (compareOn Owned.subject)))

instance [Std.LawfulEqOrd σ] : Std.LawfulEqOrd (Owned σ) where
  eq_of_compare {a b} h := by
    cases a
    cases b
    rw [compare_def, Ordering.then_eq_eq] at h
    obtain ⟨hprogram, hsubject⟩ := h
    cases Std.LawfulEqCmp.eq_of_compare hprogram
    cases Std.LawfulEqCmp.eq_of_compare hsubject
    rfl
  compare_self {a} := by
    simp [compare_def, Std.ReflCmp.compare_self]

end Owned

namespace Side

instance : Ord Side where
  compare := compareLex (compareOn Side.asset) (compareOn Side.leg)

theorem compare_def (a b : Side) :
    compare a b = (compare a.asset b.asset).then (compare a.leg b.leg) :=
  rfl

instance : Std.TransOrd Side :=
  inferInstanceAs (Std.TransCmp (compareLex (compareOn Side.asset) (compareOn Side.leg)))

instance : Std.LawfulEqOrd Side where
  eq_of_compare {a b} h := by
    cases a
    cases b
    rw [compare_def, Ordering.then_eq_eq] at h
    obtain ⟨hasset, hleg⟩ := h
    cases Std.LawfulEqCmp.eq_of_compare hasset
    cases Std.LawfulEqCmp.eq_of_compare hleg
    rfl
  compare_self {a} := by
    simp [Std.ReflCmp.compare_self]

end Side
end SwapPricing
