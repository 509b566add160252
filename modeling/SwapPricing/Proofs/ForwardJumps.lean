import Mathlib
import SwapPricing.Proofs.Layout
import SwapPricing.Proofs.StepLimits
import SwapPricing.Proofs.StraightLine

/-!
# Forward jumps

A limit that a run keeps to does not bear on it.  Where every jump goes forward, a
run takes the records in the order of their offsets, so as many steps as there are
records are always enough.
-/

namespace SwapPricing

/-!
# Programs that go forward
-/

theorem extent_take_mono (is : List Instruction) {j k : Nat} (h : j ≤ k) :
    extent (is.take j) ≤ extent (is.take k) := by
  have hsplit := extent_append ((is.take k).take j) ((is.take k).drop j)
  rw [List.take_append_drop, List.take_take, Nat.min_eq_left h] at hsplit
  omega

/-- Whatever a record of a program does, it goes on at a later one. -/
structure Program.GoesForward (p : Program) : Prop where
  ascending : p.records.toList.Pairwise fun r other => r.offset < other.offset
  settled : ∀ r ∈ p.records, r.opcode ≠ .extruction
  ahead : ∀ {k j : Nat} {r : Record} {destination : UInt16}, p.records[k]? = some r →
    r.instruction.target? = some destination → p.indexOf destination.toNat = .ok j → k < j

/-- Conditional jumps go forward by decoding, so only the others need to be looked at. -/
theorem Program.goesForward_of_decode {set : InstructionSet} {id : ProgramId}
    {bytes : List UInt8} {program : Program}
    (hdecode : Program.decode set id bytes = .ok program)
    (hexternal : ∀ r ∈ program.records, r.opcode ≠ .extruction)
    (hjumps : ∀ r ∈ program.records, ∀ destination,
      r.instruction = .jump destination → r.offset < destination.toNat) :
    program.GoesForward := by
  rcases Program.exists_holds_of_decode hdecode with ⟨is, hencodes, hholds, -⟩
  refine ⟨hholds.ascending, hexternal, ?_⟩
  intro k j r destination hr htarget hindex
  have hmem := Array.mem_of_getElem? hr
  have hlater : r.offset < destination.toNat := by
    cases hi : r.instruction with
    | jump other =>
        rw [hi] at htarget
        cases htarget
        exact hjumps r hmem destination hi
    | jumpIfAsset leg asset other =>
        have hplaced : r ∈ Record.placed 0 is := by
          rw [hholds.records] at hmem
          exact List.mem_toArray.mp hmem
        refine (hencodes.aims r hplaced destination htarget).2 ?_
        rw [hi]
        rfl
    | _ =>
        rw [hi] at htarget
        cases htarget
  have hoffset : r.offset = extent (is.take k) := by
    rw [hholds.getElem?_records] at hr
    rcases Option.map_eq_some_iff.mp hr with ⟨i, -, rfl⟩
    rfl
  by_contra hle
  have hmono := extent_take_mono is (Nat.not_lt.mp hle)
  rw [(hholds.indexOf_eq_ok_iff.mp hindex).2, ← hoffset] at hmono
  exact absurd hlater (Nat.not_lt_of_le hmono)

namespace Machine

/-!
# Runs that go forward
-/

section Forward

variable {setup : Setup} {left : Nat} {r : Record} {s t : State}

theorem next_jump {program : Program} {offset : UInt16} (h : s.jump program offset = .ok t) :
    program.indexOf offset.toNat = .ok t.next := by
  unfold State.jump at h
  cases hindex : program.indexOf offset.toNat with
  | error reason =>
      rw [hindex] at h
      cases h
  | ok index =>
      rw [hindex] at h
      cases h
      rfl

/-- Every step goes on at a later record. -/
theorem lt_next_step (hforward : setup.program.GoesForward)
    (hr : setup.program.records[s.next]? = some r) (h : step setup r s = .ok t) :
    s.next < t.next := by
  have hstraight : r.instruction.isStraight = true → s.next < t.next := by
    intro hi
    rw [next_step hi h]
    exact Nat.lt_succ_self _
  rcases step_eq_ok h with ⟨entered, henter, hexecute⟩
  cases hi : r.instruction with
  | jump destination =>
      rw [hi] at hexecute
      exact hforward.ahead hr (by rw [hi]; rfl) (next_jump hexecute)
  | jumpIfAsset leg asset destination =>
      rw [hi] at hexecute
      have hjump : jumpIfAsset setup leg asset destination entered = .ok t := hexecute
      unfold jumpIfAsset at hjump
      split at hjump
      · exact hforward.ahead hr (by rw [hi]; rfl) (next_jump hjump)
      · cases hjump
        rw [next_enter henter]
        exact Nat.lt_succ_self _
  | extruction logic input =>
      refine absurd ?_ (hforward.settled r (Array.mem_of_getElem? hr))
      rw [Record.opcode, hi]
      rfl
  | _ => exact hstraight (by rw [hi]; rfl)

/-- What is fetched later stands later. -/
theorem exists_index_of_mem_fetchedFrom (hforward : setup.program.GoesForward)
    (hr : r ∈ fetchedFrom setup left s) :
    ∃ k, s.next ≤ k ∧ setup.program.records[k]? = some r := by
  fun_induction fetchedFrom setup left s with
  | case1 s => exact ⟨s.next, Nat.le_refl _, Option.mem_toList.mp hr⟩
  | case2 left s hnone => cases hr
  | case3 left s first hfirst t hstep ih =>
      rcases List.mem_cons.mp hr with rfl | hrest
      · exact ⟨s.next, Nat.le_refl _, hfirst⟩
      · rcases ih hrest with ⟨k, hle, hk⟩
        have hlt := lt_next_step hforward hfirst hstep
        exact ⟨k, by omega, hk⟩
  | case4 left s first hfirst e hstep =>
      obtain rfl := List.mem_singleton.mp hr
      exact ⟨s.next, Nat.le_refl _, hfirst⟩

/-- Records are fetched in the order of their offsets. -/
theorem pairwise_fetchedFrom (hforward : setup.program.GoesForward) (left : Nat) (s : State) :
    (fetchedFrom setup left s).Pairwise fun r other => r.offset < other.offset := by
  fun_induction fetchedFrom setup left s with
  | case1 s =>
      cases setup.program.records[s.next]? with
      | none => exact .nil
      | some r => exact List.pairwise_singleton _ r
  | case2 left s hnone => exact .nil
  | case3 left s r hr t hstep ih =>
      refine .cons ?_ ih
      intro other hother
      rcases exists_index_of_mem_fetchedFrom hforward hother with ⟨k, hle, hk⟩
      have hlt := lt_next_step hforward hr hstep
      rw [← Array.getElem?_toList] at hr hk
      rcases List.getElem?_eq_some_iff.mp hr with ⟨hfirst, rfl⟩
      rcases List.getElem?_eq_some_iff.mp hk with ⟨hlast, rfl⟩
      exact List.pairwise_iff_getElem.mp hforward.ascending s.next k hfirst hlast (by omega)
  | case4 left s r hr e hstep => exact List.pairwise_singleton _ r

theorem nodup_fetchedFrom (hforward : setup.program.GoesForward) (left : Nat) (s : State) :
    (fetchedFrom setup left s).Nodup := by
  refine (pairwise_fetchedFrom hforward left s).imp ?_
  rintro r other hlt rfl
  exact absurd hlt (Nat.lt_irrefl _)

/-- Going forward, a run fetches no more records than there are. -/
theorem length_fetchedFrom_le_size (hforward : setup.program.GoesForward) (left : Nat)
    (s : State) : (fetchedFrom setup left s).length ≤ setup.program.size := by
  have hsubset : fetchedFrom setup left s ⊆ setup.program.records.toList := by
    intro r hr
    rcases exists_index_of_mem_fetchedFrom hforward hr with ⟨k, -, hk⟩
    exact Array.mem_toList_iff.mpr (Array.mem_of_getElem? hk)
  have hle := ((nodup_fetchedFrom hforward left s).subperm hsubset).length_le
  rwa [Array.length_toList] at hle

theorem not_overruns_of_size_le (hforward : setup.program.GoesForward) {limit : UInt32}
    (hsize : setup.program.size ≤ limit.toNat) (store : Order.Store) :
    ¬ Overruns setup limit store := by
  rintro ⟨left, hlt⟩
  have hle := length_fetchedFrom_le_size hforward left (State.initial setup.query store)
  omega

end Forward

/-!
# Limits that are kept to
-/

/-- A run that does not fail with its limit ends the same way under a larger one. -/
theorem admitted_eq_of_le {setup : Setup} {mode : ExecutionMode} {limit limit' : UInt32}
    {store : Order.Store} (hle : limit ≤ limit')
    (h : (admitted setup mode limit store).map Outcome.ofState ≠
      .error (.stepLimitExceeded limit)) :
    admitted setup mode limit' store = admitted setup mode limit store := by
  by_cases haccepted : Accepted setup.query mode
  · rw [admitted_of_accepted setup store haccepted] at h
    rw [admitted_of_accepted setup store haccepted, admitted_of_accepted setup store haccepted]
    by_cases hover : Overruns setup limit store
    · -- Only behind the largest limit, an overrun has another name.
      by_cases hlimit : limit.toNat + 1 < UInt32.size
      · have hreport : limitError limit = .stepLimitExceeded limit := if_pos hlimit
        rw [run_of_overruns hover, hreport] at h
        exact absurd rfl h
      · have hfit := limit'.toNat_lt
        have hle := UInt32.le_iff_toNat_le.mp hle
        have hsize : UInt32.size = 2 ^ 32 := rfl
        obtain rfl : limit' = limit := UInt32.toNat_inj.mp (by omega)
        rfl
    · exact (run_eq_of_le hover hle).1
  · rcases admitted_of_refused setup store haccepted with ⟨e, -, hrefused⟩
    rw [hrefused limit', hrefused limit]

theorem swap_eq_of_admitted_eq {program : Program} {query : Query} {environment : Environment}
    {external : ExternalLogic} {limit limit' : UInt32} {store : Order.Store}
    (h : admitted ⟨program, query, environment, external⟩ .commit limit' store =
      admitted ⟨program, query, environment, external⟩ .commit limit store) :
    swap program query environment external limit' store =
      swap program query environment external limit store := by
  have hentered : (do accept query .commit
                      run ⟨program, query, environment, external⟩ limit' store : Run State) =
      (do accept query .commit
          run ⟨program, query, environment, external⟩ limit store : Run State) := h
  unfold swap
  simp only [hentered]

/-- Results do not depend on a limit that is kept to.  In a program without external
logic whose jumps go forward, no record is fetched twice, and as many steps as there
are records are enough. -/
theorem results_independent_of_limit (program : Program) (query : Query)
    (environment : Environment) (external : ExternalLogic) (store : Order.Store) :
    (∀ limit limit' : UInt32, limit ≤ limit' →
      (quote program query environment limit store ≠ .error (.stepLimitExceeded limit) →
        quote program query environment limit' store =
          quote program query environment limit store) ∧
      ((swap program query environment external limit store).1 ≠
          .error (.stepLimitExceeded limit) →
        swap program query environment external limit' store =
          swap program query environment external limit store)) ∧
    ∀ set id bytes, Program.decode set id bytes = .ok program →
      (∀ r ∈ program.records, r.opcode ≠ .extruction) →
      (∀ r ∈ program.records, ∀ destination,
        r.instruction = .jump destination → r.offset < destination.toNat) →
      ∀ limit : UInt32,
        (fetched ⟨program, query, environment, environment.quoteExternal⟩ limit store).Nodup ∧
        (fetched ⟨program, query, environment, external⟩ limit store).Nodup ∧
        (program.size ≤ limit.toNat →
          KeepsToLimit (quote program query environment limit store) ∧
          KeepsToLimit (swap program query environment external limit store).1) := by
  constructor
  · intro limit limit' hle
    simp only [quote_eq_admitted, fst_swap_eq_admitted]
    constructor
    · intro h
      rw [admitted_eq_of_le hle h]
    · intro h
      exact swap_eq_of_admitted_eq (admitted_eq_of_le hle h)
  · intro set id bytes hdecode hexternal hjumps limit
    have hforward := Program.goesForward_of_decode hdecode hexternal hjumps
    refine ⟨nodup_fetchedFrom hforward _ _, nodup_fetchedFrom hforward _ _, fun hsize => ?_⟩
    rw [quote_eq_admitted, fst_swap_eq_admitted]
    exact ⟨FailsOnly.map (keepsToLimit_admitted _ _ _ (not_overruns_of_size_le hforward hsize _)),
      FailsOnly.map (keepsToLimit_admitted _ _ _ (not_overruns_of_size_le hforward hsize _))⟩

def detourBytes : List UInt8 :=
  Operation.recorded 0 (.jump 7) ++ Operation.recorded 6 (.salt [1]) ++
    Operation.recorded 7 (.staticBalances [(.single 65, 1000000), (.single 66, 2000000)]) ++
    Operation.recorded 10 .solve

/-- A pool behind a salt that is jumped over. -/
def detour : Program where
  id := .single 80
  bytes := detourBytes.toArray
  records :=
    #[⟨0, .jump 7⟩, ⟨4, .salt [1]⟩,
      ⟨7, .staticBalances [(.single 65, 1000000), (.single 66, 2000000)]⟩, ⟨89, .solve⟩]

/-- Three steps are enough for the detour, and no limit is needed beyond its four
records. -/
theorem results_independent_of_limit_of_detour :
    Program.decode .full (.single 80) detourBytes = .ok detour ∧
      quote detour (Query.simulated .input (.single 65) (.single 66) 1000)
        (Observations.atTime 100).environment 3 .empty =
          .ok ⟨⟨1000000, 2000000, 1000, 1998⟩, [], 3⟩ ∧
      quote detour (Query.simulated .input (.single 65) (.single 66) 1000)
        (Observations.atTime 100).environment 1024 .empty =
          .ok ⟨⟨1000000, 2000000, 1000, 1998⟩, [], 3⟩ ∧
      (fetched ⟨detour, Query.simulated .input (.single 65) (.single 66) 1000,
        (Observations.atTime 100).environment, .absent⟩ 4 .empty).Nodup ∧
      KeepsToLimit (quote detour (Query.simulated .input (.single 65) (.single 66) 1000)
        (Observations.atTime 100).environment 4 .empty) := by
  have hdecode : Program.decode .full (.single 80) detourBytes = .ok detour := by cbv
  have hquote : quote detour (Query.simulated .input (.single 65) (.single 66) 1000)
      (Observations.atTime 100).environment 3 .empty =
        .ok ⟨⟨1000000, 2000000, 1000, 1998⟩, [], 3⟩ := by cbv
  have hexternal : ∀ r ∈ detour.records, r.opcode ≠ .extruction := by decide
  have hjumps : ∀ r ∈ detour.records, ∀ destination,
      r.instruction = .jump destination → r.offset < destination.toNat := by
    intro r hr destination hi
    simp only [detour, List.mem_toArray, List.mem_cons, List.not_mem_nil, or_false] at hr
    rcases hr with rfl | rfl | rfl | rfl
    · cases hi
      decide
    all_goals cases hi
  have hresults := results_independent_of_limit detour
    (Query.simulated .input (.single 65) (.single 66) 1000) (Observations.atTime 100).environment
    .absent .empty
  have hkept : quote detour (Query.simulated .input (.single 65) (.single 66) 1000)
      (Observations.atTime 100).environment 3 .empty ≠ .error (.stepLimitExceeded 3) := by
    rw [hquote]
    intro h
    cases h
  have hlarger := (hresults.1 3 1024 (by decide)).1 hkept
  have hforward := hresults.2 .full (.single 80) detourBytes hdecode hexternal hjumps 4
  exact ⟨hdecode, hquote, hlarger.trans hquote, hforward.1, (hforward.2.2 (by decide)).1⟩

end Machine
end SwapPricing
