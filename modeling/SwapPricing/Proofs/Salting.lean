import SwapPricing.Proofs.Foreseen
import SwapPricing.Proofs.Lockstep
import SwapPricing.Proofs.Placement

/-!
# Runs with salt

A salt does nothing, but it takes up a record, and like every record that is no
input fee it lets the waiting fees go.  So a run through a program with salt put in
keeps step with the run through the program without it, as long as no salt lets a
fee go that should still have waited for a fee of the maker.
-/

namespace SwapPricing

/-!
# Parts
-/

/-- A part of a whole with salt put in: one of its own, or a salt. -/
inductive Salted (α : Type) where
  | own (a : α)
  | added (bytes : List UInt8)
  deriving DecidableEq

namespace Salted

variable {α : Type} {parts : List (Salted α)} {k : Nat}

def own? : Salted α → Option α
  | own a => some a
  | added _ => none

/-- The whole without the salt. -/
def plain (parts : List (Salted α)) : List α :=
  parts.filterMap own?

/-- The number of own parts among the first `k`. -/
def kept (parts : List (Salted α)) (k : Nat) : Nat :=
  (plain (parts.take k)).length

theorem plain_append (front back : List (Salted α)) :
    plain (front ++ back) = plain front ++ plain back :=
  List.filterMap_append

theorem plain_take_append_drop (parts : List (Salted α)) (k : Nat) :
    plain (parts.take k) ++ plain (parts.drop k) = plain parts := by
  rw [← plain_append, List.take_append_drop]

theorem getElem?_plain {a : α} (h : parts[k]? = some (.own a)) :
    (plain parts)[kept parts k]? = some a := by
  unfold kept
  rw [← plain_take_append_drop parts k, List.getElem?_append_right (Nat.le_refl _), Nat.sub_self]
  rcases List.getElem?_eq_some_iff.mp h with ⟨hlt, hget⟩
  rw [List.drop_eq_getElem_cons hlt, hget]
  rfl

theorem take_kept (parts : List (Salted α)) (k : Nat) :
    (plain parts).take (kept parts k) = plain (parts.take k) := by
  rw [← plain_take_append_drop parts k]
  exact List.take_left

theorem drop_kept (parts : List (Salted α)) (k : Nat) :
    (plain parts).drop (kept parts k) = plain (parts.drop k) := by
  rw [← plain_take_append_drop parts k]
  exact List.drop_left

theorem kept_succ_of_own {a : α} (h : parts[k]? = some (.own a)) :
    kept parts (k + 1) = kept parts k + 1 := by
  unfold kept
  rw [List.take_add_one, h, plain_append, List.length_append]
  rfl

theorem kept_succ_of_added {bytes : List UInt8} (h : parts[k]? = some (.added bytes)) :
    kept parts (k + 1) = kept parts k := by
  unfold kept
  rw [List.take_add_one, h, plain_append, List.length_append]
  rfl

/-- Around an added salt, nothing but the salt is lost. -/
theorem split_of_added {bytes : List UInt8} (h : parts[k]? = some (.added bytes)) :
    parts = parts.take k ++ .added bytes :: parts.drop (k + 1) ∧
      plain (parts.drop k) = plain (parts.drop (k + 1)) := by
  rcases List.getElem?_eq_some_iff.mp h with ⟨hlt, hget⟩
  have hdrop : parts.drop k = .added bytes :: parts.drop (k + 1) := by
    rw [List.drop_eq_getElem_cons hlt, hget]
  constructor
  · rw [← hdrop, List.take_append_drop]
  · rw [hdrop]
    rfl

theorem kept_of_none (h : parts[k]? = none) : kept parts k = (plain parts).length := by
  unfold kept
  rw [List.take_of_length_le (List.getElem?_eq_none_iff.mp h)]

end Salted

namespace Machine

open Salted (plain kept)

/-!
# Waiting fees
-/

/-- Behind `before`, an input fee of a third party waits. -/
def Waits (before : List Opcode) : Prop :=
  Opcode.protocolFee .input ∈ before.reverse.takeWhile keepsWaiting

/-- In front of `after`, a fee that waits has still to wait for a fee of the maker. -/
def Overtakes (after : List Opcode) : Prop :=
  ∃ op ∈ after.takeWhile keepsWaiting, op ≠ .protocolFee .input

instance (before : List Opcode) : Decidable (Waits before) :=
  inferInstanceAs (Decidable (_ ∈ _))

instance (after : List Opcode) : Decidable (Overtakes after) :=
  inferInstanceAs (Decidable (∃ op ∈ after.takeWhile keepsWaiting, op ≠ .protocolFee .input))

theorem Waits.concat {before : List Opcode} {op : Opcode} (hop : keepsWaiting op = true)
    (h : Waits before) : Waits (before ++ [op]) := by
  unfold Waits
  rw [List.reverse_append, List.reverse_singleton, List.singleton_append,
    List.takeWhile_cons_of_pos hop]
  exact List.mem_cons_of_mem op h

theorem waits_concat_protocolFee (before : List Opcode) :
    Waits (before ++ [.protocolFee .input]) := by
  unfold Waits
  rw [List.reverse_append, List.reverse_singleton, List.singleton_append]
  exact List.mem_cons_self

theorem overtakes_cons_iff {op : Opcode} {after : List Opcode} (hop : keepsWaiting op = true) :
    Overtakes (op :: after) ↔ op ≠ .protocolFee .input ∨ Overtakes after := by
  unfold Overtakes
  rw [List.takeWhile_cons_of_pos hop]
  exact List.exists_mem_cons_iff _ op _

/-- A fee waits only while the trade is unsolved, and only behind its record. -/
def FeesWait (is : List Instruction) (s : State) : Prop :=
  s.pending ≠ [] → s.solved = false ∧ Waits ((is.take s.next).map Operation.opcode)

section Waiting

variable {setup : Setup} {s t : State}

theorem pending_change {i : Instruction} (hi : keepsWaiting i.opcode = false)
    (h : Change setup i s t) : t.pending = s.pending := by
  cases h with
  | opened hfee hsolved hopening => exact pending_opening hopening
  | held hsolved => cases hi
  | marked hclear =>
      unfold State.write
      cases setup.query.mode <;> rfl
  | _ => rfl

theorem pending_step {r : Record} (hr : keepsWaiting r.opcode = false)
    (h : step setup r s = .ok t) : t.pending = [] := by
  rcases step_eq_ok h with ⟨u, henter, hexecute⟩
  rw [pending_change hr (execute_eq_ok hexecute), Matched.pending_enter hr henter]

theorem FeesWait.step {is : List Instruction} {r : Record} (h : setup.program.Holds is)
    (hr : setup.program.records[s.next]? = some r) (hstep : step setup r s = .ok t)
    (hs : FeesWait is s) : FeesWait is t := by
  intro hne
  cases hwaits : keepsWaiting r.opcode with
  | false => exact absurd (pending_step hwaits hstep) hne
  | true =>
      have htake : (is.take t.next).map Operation.opcode =
          (is.take s.next).map Operation.opcode ++ [r.opcode] := by
        rw [h.getElem?_records] at hr
        rcases Option.map_eq_some_iff.mp hr with ⟨i, hi, rfl⟩
        rw [next_step (isStraight_of_keepsWaiting hwaits) hstep, List.take_add_one, hi,
          List.map_append]
        rfl
      rw [htake]
      rw [step_of_keepsWaiting hwaits] at hstep
      cases hheld : r.instruction.heldFee? with
      | some fee =>
          have hprotocol := eq_of_heldFee? hheld
          rw [hprotocol] at hstep
          simp only [execute, protocolFee, bind_eq_ok_iff, pure_eq_ok_iff,
            requireUnsolved_eq_ok_iff] at hstep
          rcases hstep with ⟨-, hsolved, rfl⟩
          have hop : r.opcode = .protocolFee .input := by
            rw [Record.opcode, hprotocol]
            rfl
          rw [hop]
          exact ⟨hsolved, waits_concat_protocolFee _⟩
      | none =>
          rcases opening_of_maker hwaits hheld hstep with ⟨hsolved, rate, hopening⟩
          have hpending := pending_opening hopening
          rw [hpending] at hne
          refine ⟨?_, (hs hne).2.concat hwaits⟩
          cases hopening <;> exact hsolved

end Waiting

/-!
# Programs with salt
-/

/-- Instructions that differ at most in where they jump. -/
inductive Twin (Aligned : UInt16 → UInt16 → Prop) : Instruction → Instruction → Prop where
  | straight {i : Instruction} (hi : i.isStraight = true) : Twin Aligned i i
  | jump {destination destination' : UInt16} (h : Aligned destination destination') :
      Twin Aligned (.jump destination) (.jump destination')
  | jumpIfAsset {leg : Leg} {asset : AssetId} {destination destination' : UInt16}
      (h : Aligned destination destination') :
      Twin Aligned (.jumpIfAsset leg asset destination) (.jumpIfAsset leg asset destination')

theorem Twin.opcode_eq {Aligned : UInt16 → UInt16 → Prop} {i i' : Instruction}
    (h : Twin Aligned i i') : i'.opcode = i.opcode := by
  cases h <;> rfl

section Programs

variable {α : Type}

/-- Offsets at which the programs go on with the same own part. -/
def Aligned (p p' : Program) (parts : List (Salted α)) (offset offset' : UInt16) : Prop :=
  ∃ k, p'.indexOf offset'.toNat = .ok k ∧ p.indexOf offset.toNat = .ok (kept parts k)

/-- `p'` is `p` with the salt that `parts` adds, none of which lets a fee go that has
still to wait for a fee of the maker. -/
structure AddsSalt (p p' : Program) (is is' : List Instruction) (parts : List (Salted α)) :
    Prop where
  holds : p.Holds is
  holds' : p'.Holds is'
  id_eq : p'.id = p.id
  inRange : ∀ i ∈ is, i.InRange
  length_eq : is.length = (plain parts).length
  length_eq' : is'.length = parts.length
  added : ∀ {k : Nat} {bytes : List UInt8}, parts[k]? = some (.added bytes) →
    is'[k]? = some (.salt bytes)
  own : ∀ {k : Nat} {a : α}, parts[k]? = some (.own a) →
    ∃ i i', is[kept parts k]? = some i ∧ is'[k]? = some i' ∧ i.opcode ≠ .twap ∧
      Twin (Aligned p p' parts) i i'
  apart : ∀ {k : Nat} {bytes : List UInt8}, parts[k]? = some (.added bytes) →
    Waits ((is.take (kept parts k)).map Operation.opcode) →
      ¬ Overtakes ((is.drop (kept parts k)).map Operation.opcode)

/-- The run with salt has come as far as the run without it.  It may have let some of
the waiting fees go, but only those that no fee of the maker will come before. -/
structure InStep (setup : Setup) (is : List Instruction) (parts : List (Salted α))
    (s s' : State) : Prop where
  next_eq : kept parts s'.next = s.next
  rates : RatesBounded s
  waits : FeesWait is s
  ahead : ∃ early late, s.pending = early ++ late ∧
    (openHeld setup early { s with pending := late }).map State.unplaced = .ok s'.unplaced ∧
      (early ≠ [] → ¬ Overtakes ((is.drop s.next).map Operation.opcode))

/-- States at the same own part that differ in their places alone. -/
structure Abreast (parts : List (Salted α)) (s s' : State) : Prop where
  elsewhere : Elsewhere s s'
  next_eq : kept parts s'.next = s.next

namespace InStep

variable {setup : Setup} {p' : Program} {is is' : List Instruction} {parts : List (Salted α)}
  {s s' t t' : State}

theorem of_abreast (h : Abreast parts s s') (hrates : RatesBounded s)
    (hwaits : FeesWait is s) : InStep setup is parts s s' where
  next_eq := h.next_eq
  rates := hrates
  waits := hwaits
  ahead := ⟨[], s.pending, rfl, congrArg Except.ok h.elsewhere.symm, fun hne => absurd rfl hne⟩

theorem next_succ (h : InStep setup is parts s s') {a : α}
    (hpart : parts[s'.next]? = some (.own a)) : kept parts (s'.next + 1) = s.next + 1 := by
  rw [Salted.kept_succ_of_own hpart, h.next_eq]

theorem exists_release (h : InStep setup is parts s s') : ∃ u, release setup s = .ok u := by
  rw [release_eq_openHeld]
  cases hpending : s.pending with
  | nil => exact ⟨_, rfl⟩
  | cons fee rest =>
      have hne : s.pending ≠ [] := by
        rw [hpending]
        exact List.cons_ne_nil fee rest
      have hsolved : ({ s with pending := [] } : State).solved = false := (h.waits hne).1
      rcases exists_openHeld setup (hpending ▸ h.rates.pending) hsolved with ⟨u, levied, hu, -⟩
      exact ⟨u, hu⟩

theorem unsolved (h : InStep setup is parts s s') (hne : s.pending ≠ []) :
    s.solved = false ∧ s'.solved = false := by
  have hsolved := (h.waits hne).1
  rcases h.ahead with ⟨early, late, hpending, hopen, -⟩
  have hrates : ∀ fee ∈ early, fee.rate.toNat < Arithmetic.bps := by
    intro fee hfee
    refine h.rates.pending fee ?_
    rw [hpending]
    exact List.mem_append_left late hfee
  have hstart : ({ s with pending := late } : State).solved = false := hsolved
  rcases exists_openHeld setup hrates hstart with ⟨u, levied, hu, husolved, -⟩
  rw [hu] at hopen
  have helsewhere : Elsewhere u s' := (Except.ok.inj hopen).symm
  exact ⟨hsolved, helsewhere.solved_eq.trans husolved⟩

/-- Letting the fees go evens out the runs. -/
theorem released (h : InStep setup is parts s s') :
    Together Elsewhere (release setup s) (release setup s') := by
  rcases h.ahead with ⟨early, late, hpending, hopen, -⟩
  rcases map_eq_ok_iff.mp hopen with ⟨t, ht, helsewhere⟩
  have hlate : t.pending = late := by
    have hkeeps : ∀ fee ∈ early, ∀ {u u' : State},
        openFee setup (.protocolFee .input) .input fee.rate.toUInt64 (some fee.recipient) u =
          .ok u' → u.pending = late → u'.pending = late := by
      intro fee hfee u u' hfirst hu
      rw [pending_opening (openFee_eq_ok hfirst).2, hu]
    exact openAll_keeps hkeeps ht rfl
  have hlate' : s'.pending = late := by
    rw [← hlate]
    exact (congrArg State.pending helsewhere).symm
  have hearly : openHeld setup early { s with pending := [] } =
      .ok (t.resumed (fun _ => []) id id) := by
    have hcleared : ({ s with pending := [] } : State) =
        State.resumed (fun _ => []) id id { s with pending := late } := rfl
    rw [hcleared]
    exact (openAll_resumed early _).trans (congrArg (Except.map _) ht)
  have hrelease : release setup s = openHeld setup late (t.resumed (fun _ => []) id id) := by
    rw [release_eq_openHeld, hpending]
    unfold openHeld at hearly ⊢
    rw [List.foldlM_append, hearly]
    rfl
  rw [hrelease, release_eq_openHeld, hlate']
  have hcleared : Elsewhere (t.resumed (fun _ => []) id id) { s' with pending := [] } :=
    congrArg (State.resumed (fun _ => []) id id) helsewhere.symm
  exact hcleared.together fun s next steps => openAll_resumed late s

end InStep

/-!
# Steps
-/

section Steps

variable {setup : Setup} {p' : Program} {is is' : List Instruction} {parts : List (Salted α)}
  {s s' : State}

theorem jump_together (h : Abreast parts s s') {destination destination' : UInt16}
    (haligned : Aligned setup.program p' parts destination destination') :
    Together (Abreast parts) (s.jump setup.program destination) (s'.jump p' destination') := by
  rcases haligned with ⟨k, hindex', hindex⟩
  unfold State.jump
  rw [hindex, hindex']
  exact .go ⟨h.elsewhere, rfl⟩

/-- Twins do the same to states that are abreast. -/
theorem execute_together (hid : p'.id = setup.program.id) {i i' : Instruction}
    (htwin : Twin (Aligned setup.program p' parts) i i') (htwap : i.opcode ≠ .twap)
    (h : Abreast parts s s') (offset offset' : Nat) :
    Together (Abreast parts) (execute setup offset i s)
      (execute (setup.onto p') offset' i' s') := by
  cases htwin with
  | straight hi =>
      rw [execute_onto hid hi, execute_offset htwap offset' offset]
      refine (h.elsewhere.together fun _ _ _ => execute_moved hi).mono ?_
      intro t t' ht ht' helsewhere
      have hnext := next_change hi (execute_eq_ok ht)
      have hnext' := next_change hi (execute_eq_ok ht')
      exact ⟨helsewhere, by rw [hnext, hnext', h.next_eq]⟩
  | jump haligned => exact jump_together h haligned
  | jumpIfAsset haligned =>
      rename_i leg asset destination destination'
      show Together _ (jumpIfAsset setup leg asset destination s)
        (jumpIfAsset (setup.onto p') leg asset destination' s')
      unfold jumpIfAsset
      have hquery : (setup.onto p').query = setup.query := rfl
      rw [hquery]
      split
      · exact jump_together h haligned
      · exact .go h

theorem enter_of_not_keepsWaiting {r : Record} (hr : keepsWaiting r.opcode = false) (s : State) :
    enter setup r s = (release setup s).map (State.moved (· + 1) (· + 1)) := by
  unfold enter releaseBefore
  rw [hr]
  exact release_moved

/-- An added salt lets all fees go, and changes nothing else. -/
theorem step_added (hsalt : AddsSalt setup.program p' is is' parts) (h : InStep setup is parts s s')
    {bytes : List UInt8} (hpart : parts[s'.next]? = some (.added bytes)) {r : Record}
    (hr : p'.records[s'.next]? = some r) :
    ∃ t', step (setup.onto p') r s' = .ok t' ∧ InStep setup is parts s t' := by
  have hnow := hsalt.holds'.record_eq hr (hsalt.added hpart)
  subst hnow
  rcases h.exists_release with ⟨u, hu⟩
  rcases h.released.outcomes with ⟨e, herror, -⟩ | ⟨w, u', hw, hu', helsewhere⟩
  · rw [hu] at herror
    cases herror
  · cases hu.symm.trans hw
    have hstep : step (setup.onto p') ⟨extent (is'.take s'.next), .salt bytes⟩ s' =
        .ok (u'.moved (· + 1) (· + 1)) := by
      unfold step
      rw [enter_onto, enter_of_not_keepsWaiting rfl, hu']
      rfl
    have hnext : kept parts (u'.moved (· + 1) (· + 1)).next = s.next := by
      rw [next_step rfl hstep, Salted.kept_succ_of_added hpart, h.next_eq]
    refine ⟨_, hstep, hnext, h.rates, h.waits, s.pending, [], ?_, ?_, ?_⟩
    · exact (List.append_nil _).symm
    · rw [release_eq_openHeld] at hu
      rw [hu]
      exact congrArg Except.ok helsewhere.symm
    · intro hne
      have hwaits := (h.waits hne).2
      rw [← h.next_eq] at hwaits ⊢
      exact hsalt.apart hpart hwaits

theorem enter_together (h : InStep setup is parts s s') {a : α}
    (hpart : parts[s'.next]? = some (.own a)) {r r' : Record}
    (hr : keepsWaiting r.opcode = false) (hr' : keepsWaiting r'.opcode = false) :
    Together (Abreast parts) (enter setup r s) (enter setup r' s') := by
  have htogether : Together Elsewhere (enter setup r s) (enter setup r' s') := by
    rw [enter_of_not_keepsWaiting hr, enter_of_not_keepsWaiting hr']
    exact h.released.map fun _ _ helsewhere => helsewhere
  refine htogether.mono ?_
  intro t t' ht ht' helsewhere
  refine ⟨helsewhere, ?_⟩
  rw [next_enter ht, next_enter ht', h.next_succ hpart]

/-- A fee that joins the waiting ones is let go behind those that went early. -/
theorem InStep.hold (h : InStep setup is parts s s') {a : α}
    (hpart : parts[s'.next]? = some (.own a)) {rate : UInt16} {recipient : Address}
    (hop : (is.drop s.next).map Operation.opcode =
      .protocolFee .input :: (is.drop (s.next + 1)).map Operation.opcode)
    {t t' : State} (ht : t = s.resumed (· ++ [⟨rate, recipient⟩]) (· + 1) (· + 1))
    (ht' : t' = s'.resumed (· ++ [⟨rate, recipient⟩]) (· + 1) (· + 1)) (hrates : RatesBounded t)
    (hwaits : FeesWait is t) : InStep setup is parts t t' := by
  subst ht ht'
  rcases h.ahead with ⟨early, late, hpending, hopen, hbehind⟩
  refine ⟨h.next_succ hpart, hrates, hwaits, early, late ++ [⟨rate, recipient⟩], ?_, ?_, ?_⟩
  · show s.pending ++ _ = _
    rw [hpending, List.append_assoc]
  · rcases map_eq_ok_iff.mp hopen with ⟨u, hu, helsewhere⟩
    have hresumed : openHeld setup early
        (State.resumed (· ++ [⟨rate, recipient⟩]) (· + 1) (· + 1) { s with pending := late }) =
          .ok (u.resumed (· ++ [⟨rate, recipient⟩]) (· + 1) (· + 1)) :=
      (openAll_resumed early _).trans (congrArg (Except.map _) hu)
    refine (congrArg (Except.map State.unplaced) hresumed).trans ?_
    exact congrArg (fun u => Except.ok (State.resumed (· ++ [⟨rate, recipient⟩]) id id u)) helsewhere
  · intro hne hovertakes
    refine hbehind hne ?_
    rw [hop]
    exact (overtakes_cons_iff rfl).mpr (Or.inr hovertakes)

theorem InStep.of_step (hsalt : AddsSalt setup.program p' is is' parts)
    (h : InStep setup is parts s s') {r : Record}
    (hr : setup.program.records[s.next]? = some r) {x' : Run State}
    (htogether : Together (Abreast parts) (step setup r s) x') :
    Together (InStep setup is parts) (step setup r s) x' := by
  have hrange := hsalt.inRange _ (hsalt.holds.mem_records (Array.mem_of_getElem? hr))
  refine htogether.mono ?_
  intro t t' ht _ ht'
  exact .of_abreast ht' (h.rates.step hrange ht) (h.waits.step hsalt.holds hr ht)

/-- Where fees went early, the only input fees still to come are ones that wait. -/
theorem opcode_of_early {early : List PendingFee} (hearly : early ≠ [])
    (hbehind : early ≠ [] → ¬ Overtakes ((is.drop s.next).map Operation.opcode))
    {i : Instruction} (hwaits : keepsWaiting i.opcode = true) (hi : is[s.next]? = some i) :
    i.opcode = .protocolFee .input ∧ (is.drop s.next).map Operation.opcode =
      .protocolFee .input :: (is.drop (s.next + 1)).map Operation.opcode := by
  have hop : (is.drop s.next).map Operation.opcode =
      i.opcode :: (is.drop (s.next + 1)).map Operation.opcode := by
    rcases List.getElem?_eq_some_iff.mp hi with ⟨hlt, hget⟩
    rw [List.drop_eq_getElem_cons hlt, hget, List.map_cons]
  have hnot := hbehind hearly
  rw [hop, overtakes_cons_iff hwaits] at hnot
  have hprotocol : i.opcode = .protocolFee .input :=
    Classical.not_not.mp fun hne => hnot (Or.inl hne)
  exact ⟨hprotocol, hprotocol ▸ hop⟩

theorem step_waiting_together (hsalt : AddsSalt setup.program p' is is' parts)
    (h : InStep setup is parts s s') {a : α} (hpart : parts[s'.next]? = some (.own a))
    {i : Instruction} (hwaits : keepsWaiting i.opcode = true) (hi : is[s.next]? = some i)
    {offset : Nat} (hr : setup.program.records[s.next]? = some ⟨offset, i⟩) (offset' : Nat) :
    Together (InStep setup is parts) (step setup ⟨offset, i⟩ s)
      (step (setup.onto p') ⟨offset', i⟩ s') := by
  have hstep (setup : Setup) (offset : Nat) (s : State) :
      step setup ⟨offset, i⟩ s = execute setup offset i (s.moved (· + 1) (· + 1)) :=
    step_of_keepsWaiting hwaits
  rcases h.ahead with ⟨early, late, hpending, hopen, hbehind⟩
  cases early with
  | nil =>
      -- The same fees wait in both runs, so the states differ in their places alone.
      refine h.of_step hsalt hr ?_
      rw [hstep, hstep]
      refine execute_together hsalt.id_eq (.straight (isStraight_of_keepsWaiting hwaits))
        (offset_of_keepsWaiting hwaits) ⟨?_, h.next_succ hpart⟩ _ _
      rw [List.nil_append] at hpending
      subst hpending
      exact (Except.ok.inj hopen).symm
  | cons first rest =>
      -- Some fees went early, so the amounts differ, but this fee does not look at them.
      have hearly : first :: rest ≠ [] := List.cons_ne_nil first rest
      rcases opcode_of_early hearly hbehind hwaits hi with ⟨hprotocol, hop⟩
      have hne : s.pending ≠ [] := by
        rw [hpending]
        exact List.cons_ne_nil first (rest ++ late)
      rcases h.unsolved hne with ⟨hsolved, hsolved'⟩
      cases i with
      | protocolFee leg rate recipient =>
          cases hprotocol
          have hheld := (hstep setup offset s).trans
            (protocolFee_of_unsolved setup rate recipient hsolved)
          have hheld' := (hstep (setup.onto p') offset' s').trans
            (protocolFee_of_unsolved (setup.onto p') rate recipient hsolved')
          have hrange := hsalt.inRange _ (hsalt.holds.mem_records (Array.mem_of_getElem? hr))
          rw [hheld, hheld']
          exact .go (h.hold hpart hop rfl rfl (h.rates.step hrange hheld)
            (h.waits.step hsalt.holds hr hheld))
      | _ => cases hprotocol

/-- An own record does the same in both runs. -/
theorem step_together (hsalt : AddsSalt setup.program p' is is' parts)
    (h : InStep setup is parts s s') {a : α} (hpart : parts[s'.next]? = some (.own a))
    {r r' : Record} (hr : setup.program.records[s.next]? = some r)
    (hr' : p'.records[s'.next]? = some r') :
    Together (InStep setup is parts) (step setup r s) (step (setup.onto p') r' s') := by
  rcases hsalt.own hpart with ⟨i, i', hi, hi', htwap, htwin⟩
  rw [h.next_eq] at hi
  have hnow := hsalt.holds.record_eq hr hi
  have hnow' := hsalt.holds'.record_eq hr' hi'
  subst hnow hnow'
  cases hwaits : keepsWaiting i.opcode with
  | false =>
      have hwaits' : keepsWaiting i'.opcode = false := by
        rw [htwin.opcode_eq]
        exact hwaits
      refine h.of_step hsalt hr ?_
      refine (enter_together h hpart ?_ ?_).bind ?_
      · exact hwaits
      · exact hwaits'
      · intro t t' _ _ ht
        exact execute_together hsalt.id_eq htwin htwap ht _ _
  | true =>
      cases htwin with
      | straight hstraight => exact step_waiting_together hsalt h hpart hwaits hi hr _
      | jump haligned => cases hwaits
      | jumpIfAsset haligned => cases hwaits

/-!
# Runs
-/

theorem finishSteps_together (h : InStep setup is parts s s') :
    Together Elsewhere (finishSteps setup s) (finishSteps setup s') := by
  refine h.released.bind ?_
  intro u u' _ _ helsewhere
  rw [helsewhere.solved_eq]
  split
  · exact .go helsewhere
  · exact .fail _

namespace AddsSalt

theorem exists_record (hsalt : AddsSalt setup.program p' is is' parts) {k : Nat}
    {part : Salted α} (hpart : parts[k]? = some part) :
    ∃ r, (setup.onto p').program.records[k]? = some r := by
  show ∃ r, p'.records[k]? = some r
  rcases List.getElem?_eq_some_iff.mp hpart with ⟨hlt, -⟩
  rw [← hsalt.length_eq', ← hsalt.holds'.size_eq] at hlt
  exact ⟨_, Array.getElem?_eq_getElem hlt⟩

theorem exists_own_record (hsalt : AddsSalt setup.program p' is is' parts) {k : Nat} {a : α}
    (hpart : parts[k]? = some (.own a)) : ∃ r, setup.program.records[kept parts k]? = some r := by
  rcases hsalt.own hpart with ⟨i, -, hi, -⟩
  rw [hsalt.holds.getElem?_records, hi]
  exact ⟨_, rfl⟩

end AddsSalt

theorem runSteps_together_of_none (hsalt : AddsSalt setup.program p' is is' parts)
    (h : InStep setup is parts s s') (hpart : parts[s'.next]? = none) (limit : UInt32)
    (left left' : Nat) :
    Together Elsewhere (runSteps setup limit left s >>= finishSteps setup)
      (runSteps (setup.onto p') limit left' s' >>= finishSteps (setup.onto p')) := by
  have hnone : setup.program.records[s.next]? = none := by
    rw [Array.getElem?_eq_none_iff, hsalt.holds.size_eq, hsalt.length_eq, ← h.next_eq,
      Salted.kept_of_none hpart]
  have hnone' : (setup.onto p').program.records[s'.next]? = none := by
    show p'.records[s'.next]? = none
    rw [Array.getElem?_eq_none_iff, hsalt.holds'.size_eq, hsalt.length_eq']
    exact List.getElem?_eq_none_iff.mp hpart
  unfold runSteps
  rw [hnone, hnone']
  exact finishSteps_together h

/-- Runs that are in step come to the same end, if the one with salt comes to an end. -/
theorem runSteps_together (hsalt : AddsSalt setup.program p' is is' parts) {limit : UInt32}
    {left left' : Nat} (hleft : left' ≤ left) (h : InStep setup is parts s s')
    (hlimit : runSteps (setup.onto p') limit left' s' ≠ .error (limitError limit)) :
    Together Elsewhere (runSteps setup limit left s >>= finishSteps setup)
      (runSteps (setup.onto p') limit left' s' >>= finishSteps (setup.onto p')) := by
  -- The run with salt takes every step that the other one takes, so the induction is
  -- on its steps; an added salt costs it one that the other run keeps.
  induction left' generalizing left s s' with
  | zero =>
      cases hpart : parts[s'.next]? with
      | none => exact runSteps_together_of_none hsalt h hpart limit left 0
      | some part =>
          rcases hsalt.exists_record hpart with ⟨r', hr'⟩
          unfold runSteps at hlimit
          rw [hr'] at hlimit
          exact absurd rfl hlimit
  | succ left' ih =>
      cases hpart : parts[s'.next]? with
      | none => exact runSteps_together_of_none hsalt h hpart limit left (left' + 1)
      | some part =>
          rcases hsalt.exists_record hpart with ⟨r', hr'⟩
          have hrun' : runSteps (setup.onto p') limit (left' + 1) s' =
              step (setup.onto p') r' s' >>= runSteps (setup.onto p') limit left' := by
            rw [runSteps, hr']
          rw [hrun'] at hlimit ⊢
          cases part with
          | added bytes =>
              rcases step_added hsalt h hpart hr' with ⟨t', ht', hstill⟩
              rw [ht'] at hlimit ⊢
              exact ih (Nat.le_of_succ_le hleft) hstill hlimit
          | own a =>
              rcases hsalt.exists_own_record hpart with ⟨r, hr⟩
              rw [h.next_eq] at hr
              rcases Nat.exists_eq_succ_of_ne_zero (Nat.ne_zero_of_lt hleft) with ⟨rest, rfl⟩
              have hrun : runSteps setup limit (rest + 1) s =
                  step setup r s >>= runSteps setup limit rest := by
                rw [runSteps, hr]
              rw [hrun, bind_assoc, bind_assoc]
              refine (step_together hsalt h hpart hr hr').bind ?_
              intro t t' _ ht' hstep
              rw [ht'] at hlimit
              exact ih (Nat.le_of_succ_le_succ hleft) hstep hlimit

theorem initial_inStep (is : List Instruction) (parts : List (Salted α)) (query : Query)
    (store : Order.Store) :
    InStep setup is parts (State.initial query store) (State.initial query store) :=
  .of_abreast ⟨rfl, rfl⟩ ⟨List.forall_mem_nil _, List.forall_mem_nil _⟩ fun hne => absurd rfl hne

theorem run_together (hsalt : AddsSalt setup.program p' is is' parts) {limit : UInt32}
    {store : Order.Store}
    (hlimit : run (setup.onto p') limit store ≠ .error (limitError limit)) :
    Together Elsewhere (run setup limit store) (run (setup.onto p') limit store) := by
  have hsteps : runSteps (setup.onto p') limit limit.toNat (State.initial setup.query store) ≠
      .error (limitError limit) := by
    intro herror
    refine hlimit ?_
    show (runSteps (setup.onto p') limit limit.toNat (State.initial setup.query store) >>= _) = _
    rw [herror]
    rfl
  have hfinished := runSteps_together hsalt (Nat.le_refl _)
    (initial_inStep is parts setup.query store) hsteps
  have hrun (setup : Setup) : run setup limit store =
      (runSteps setup limit limit.toNat (State.initial setup.query store) >>=
        finishSteps setup) >>= fun finished =>
          settleAll setup finished.settlements { finished with settlements := [] } := by
    rw [bind_assoc]
    rfl
  rw [hrun, hrun]
  refine hfinished.bind ?_
  intro t t' _ _ helsewhere
  have hworks : t'.settlements = t.settlements := by
    have hworks : t'.unplaced.settlements = t.unplaced.settlements :=
      congrArg State.settlements helsewhere
    exact hworks
  rw [hworks, settleAll_onto hsalt.id_eq]
  have hcleared : ({ t'.unplaced with settlements := [] } : State) =
      { t.unplaced with settlements := [] } := by
    rw [helsewhere]
  have hcleared : Elsewhere { t with settlements := [] } { t' with settlements := [] } := hcleared
  exact hcleared.together fun s _ _ => settleAll_moved t.settlements s

end Steps

end Programs

/-!
# Trades
-/

/-- The outcome but for the number of records run. -/
def Outcome.unstepped (o : Outcome) : Outcome :=
  { o with steps := 0 }

/-- Whatever is traded under `p'` without running into the limit comes out as under
`p`, with the same order state behind it.  Only the number of records run differs. -/
def PricesAlike (p p' : Program) : Prop :=
  ∀ (query : Query) (environment : Environment) (external : ExternalLogic) (limit : UInt32)
    (store : Order.Store),
    (quote p' query environment limit store ≠ .error (limitError limit) →
      (quote p' query environment limit store).map Outcome.unstepped =
        (quote p query environment limit store).map Outcome.unstepped) ∧
    ((swap p' query environment external limit store).1 ≠ .error (limitError limit) →
      (swap p' query environment external limit store).1.map Outcome.unstepped =
          (swap p query environment external limit store).1.map Outcome.unstepped ∧
        (swap p' query environment external limit store).2 =
          (swap p query environment external limit store).2)

theorem Elsewhere.unstepped_eq {s s' : State} (h : Elsewhere s s') :
    (Outcome.ofState s').unstepped = (Outcome.ofState s).unstepped :=
  congrArg Outcome.ofState h

/-- Salt that lets no fee go too early has no effect on any trade. -/
theorem AddsSalt.pricesAlike {α : Type} {p p' : Program} {is is' : List Instruction}
    {parts : List (Salted α)} (hsalt : AddsSalt p p' is is' parts) : PricesAlike p p' := by
  intro query environment external limit store
  constructor
  · intro hlimit
    cases haccept : accept query .simulate with
    | error e =>
        have hrefused (program : Program) :
            quote program query environment limit store = .error e := by
          simp only [quote, haccept, error_bind]
        rw [hrefused, hrefused]
    | ok u =>
        have haccepted := accept_eq_ok_iff.mp haccept
        let setup : Setup := ⟨p, query, environment, environment.quoteExternal⟩
        have hrun : run (setup.onto p') limit store ≠ .error (limitError limit) :=
          fun herror => hlimit (quote_of_run_error haccepted herror)
        have htogether : Together Elsewhere (run setup limit store)
            (run (setup.onto p') limit store) := run_together hsalt hrun
        rcases htogether.outcomes with
          ⟨e, herror, herror'⟩ | ⟨s, s', hs, hs', helsewhere⟩
        · rw [quote_of_run_error haccepted herror, quote_of_run_error haccepted herror']
        · rw [quote_eq_ok_iff.mpr ⟨haccepted, s, hs, rfl⟩,
            quote_eq_ok_iff.mpr ⟨haccepted, s', hs', rfl⟩]
          exact congrArg Except.ok helsewhere.unstepped_eq
  · intro hlimit
    cases haccept : accept query .commit with
    | error e =>
        rw [swap_of_refused haccept, swap_of_refused haccept]
        exact ⟨rfl, rfl⟩
    | ok u =>
        have haccepted := accept_eq_ok_iff.mp haccept
        let setup : Setup := ⟨p, query, environment, external⟩
        have hrun : run (setup.onto p') limit store ≠ .error (limitError limit) := by
          intro herror
          refine hlimit ?_
          rw [swap_of_run_error haccepted herror]
        have htogether : Together Elsewhere (run setup limit store)
            (run (setup.onto p') limit store) := run_together hsalt hrun
        rcases htogether.outcomes with
          ⟨e, herror, herror'⟩ | ⟨s, s', hs, hs', helsewhere⟩
        · rw [swap_of_run_error haccepted herror, swap_of_run_error haccepted herror']
          exact ⟨rfl, rfl⟩
        · rw [swap_of_run_ok haccepted hs, swap_of_run_ok haccepted hs']
          exact ⟨congrArg Except.ok helsewhere.unstepped_eq,
            congrArg Order.Journal.commit helsewhere.journal_eq⟩

end Machine
end SwapPricing
