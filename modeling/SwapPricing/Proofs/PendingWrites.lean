import Mathlib
import SwapPricing.Order.Journal

/-!
# Pending writes

A journal answers every read as the store will once the writes are applied to it: with the
latest write of an entry, and with what the store holds where nothing is written.  Nothing of
that crosses from one program to another.  The part of a program is the part of the store
with the program's own writes applied, and every entry lies in the part of one program.
-/

namespace SwapPricing

namespace Table

variable {κ ν : Type} [Ord κ]

theorem lookup_append (key : κ) (entries others : List (κ × ν)) :
    lookup key (entries ++ others) = (lookup key entries).or (lookup key others) := by
  induction entries with
  | nil => rfl
  | cons entry rest ih =>
      rw [List.cons_append, lookup, lookup]
      split
      · rfl
      · exact ih

variable [Std.TransOrd κ] [Std.LawfulEqOrd κ]

/-- The table with an entry put in, if there is one. -/
def insert? (t : Table κ ν) : Option (κ × ν) → Table κ ν
  | none => t
  | some entry => t.insert entry.1 entry.2

theorem find?_insert? (t : Table κ ν) (entry : Option (κ × ν)) (key : κ) :
    (t.insert? entry).find? key = (lookup key entry.toList).or (t.find? key) := by
  cases entry with
  | none => rfl
  | some entry =>
      by_cases hkey : key = entry.1
      · subst hkey
        rw [insert?, find?_insert_self, Option.toList_some, lookup,
          if_pos Std.ReflCmp.compare_self]
        rfl
      · have hne : compare key entry.1 ≠ .eq := fun heq =>
          hkey (Std.LawfulEqCmp.eq_of_compare heq)
        rw [insert?, find?_insert_of_ne t hkey, Option.toList_some, lookup, if_neg hne]
        rfl

theorem filter_insert (t : Table κ ν) (p : κ → Bool) (key : κ) (value : ν) :
    (t.insert key value).filter p =
      if p key then (t.filter p).insert key value else t.filter p := by
  apply ext_find?
  intro other
  rw [find?_filter]
  cases hp : p key with
  | true =>
      rw [if_pos rfl]
      by_cases hother : other = key
      · subst hother
        rw [hp, if_pos rfl, find?_insert_self, find?_insert_self]
      · rw [find?_insert_of_ne t hother, find?_insert_of_ne _ hother, find?_filter]
  | false =>
      rw [if_neg Bool.false_ne_true, find?_filter]
      by_cases hother : other = key
      · subst hother
        rw [hp]
        rfl
      · rw [find?_insert_of_ne t hother]

end Table

namespace Order

/-- An entry of the order state, as a journal writes it and a store holds it. -/
inductive Entry where
  | offset (key : Owned Side) (value : DecayOffset)
  | fill (key : Owned Side) (total : UInt64)
  | bit (key : Owned UInt32)
  | balance (key : Owned AssetId) (amount : UInt64)
  | sale (key : Owned UInt64) (state : SaleState)
  deriving DecidableEq

namespace Entry

/-- The program that an entry belongs to. -/
def program : Entry → ProgramId
  | offset key _ => key.program
  | fill key _ => key.program
  | bit key => key.program
  | balance key _ => key.program
  | sale key _ => key.program

def offset? : Entry → Option (Owned Side × DecayOffset)
  | offset key value => some (key, value)
  | _ => none

def fill? : Entry → Option (Owned Side × UInt64)
  | fill key total => some (key, total)
  | _ => none

def bit? : Entry → Option (Owned UInt32 × Unit)
  | bit key => some (key, ())
  | _ => none

def balance? : Entry → Option (Owned AssetId × UInt64)
  | balance key amount => some (key, amount)
  | _ => none

def sale? : Entry → Option (Owned UInt64 × SaleState)
  | sale key state => some (key, state)
  | _ => none

/-- The value that the last one of the entries for a key gives it. -/
def latest {κ ν : Type} [Ord κ] (pick : Entry → Option (κ × ν)) (entries : List Entry) (key : κ) :
    Option ν :=
  Table.lookup key (entries.reverse.filterMap pick)

theorem latest_cons {κ ν : Type} [Ord κ] (pick : Entry → Option (κ × ν)) (entry : Entry)
    (rest : List Entry) (key : κ) :
    latest pick (entry :: rest) key =
      (latest pick rest key).or (Table.lookup key (pick entry).toList) := by
  have hlast : [entry].filterMap pick = (pick entry).toList := by
    cases hpick : pick entry <;> simp [hpick]
  unfold latest
  rw [List.reverse_cons, List.filterMap_append, Table.lookup_append, hlast]

end Entry

/-!
# Writing entries
-/

namespace Store

/-- The store with an entry put in. -/
def put (s : Store) : Entry → Store
  | .offset key value => s.setOffset key.program key.subject value
  | .fill key total => s.setFilled key.program key.subject total
  | .bit key => s.setBit key.program key.subject
  | .balance key amount => s.setBalance key.program key.subject amount
  | .sale key state => s.setSale key.program key.subject state

/-- The store with entries put in one after the other. -/
def putAll (s : Store) (entries : List Entry) : Store :=
  entries.foldl put s

/-- Putting in an entry changes the part of its program only. -/
theorem ofProgram_put (s : Store) (entry : Entry) (program : ProgramId) :
    (s.put entry).ofProgram program =
      if entry.program = program then (s.ofProgram program).put entry
      else s.ofProgram program := by
  by_cases howner : entry.program = program
  · rw [if_pos howner]
    subst howner
    cases entry <;>
      simp only [put, setOffset, setFilled, setBit, setBalance, setSale, ofProgram,
        Table.filter_insert, Entry.program, decide_true, if_true]
  · rw [if_neg howner]
    cases entry <;>
      simp only [Entry.program] at howner <;>
      simp only [put, setOffset, setFilled, setBit, setBalance, setSale, ofProgram,
        Table.filter_insert, howner, decide_false, Bool.false_eq_true, if_false]

/-- The part of a program takes the program's own entries only. -/
theorem ofProgram_putAll (s : Store) (entries : List Entry) (program : ProgramId) :
    (s.putAll entries).ofProgram program =
      (s.ofProgram program).putAll (entries.filter fun entry => entry.program = program) := by
  induction entries generalizing s with
  | nil => rfl
  | cons entry rest ih =>
      have hrest := ih (s.put entry)
      rw [ofProgram_put] at hrest
      rw [List.filter_cons]
      split at hrest
      · rename_i howner
        rw [if_pos (decide_eq_true howner)]
        exact hrest
      · rename_i hother
        rw [if_neg fun h => hother (of_decide_eq_true h)]
        exact hrest

/-- One of the tables of a store, with the entries that go into it. -/
structure Takes {κ ν : Type} [Ord κ] [Std.TransOrd κ] [Std.LawfulEqOrd κ]
    (table : Store → Table κ ν) (pick : Entry → Option (κ × ν)) : Prop where
  empty : table .empty = .empty
  put : ∀ s entry, table (s.put entry) = (table s).insert? (pick entry)

theorem takes_offsets : Takes offsets Entry.offset? :=
  ⟨rfl, fun _ entry => by cases entry <;> rfl⟩

theorem takes_fills : Takes fills Entry.fill? :=
  ⟨rfl, fun _ entry => by cases entry <;> rfl⟩

theorem takes_bits : Takes bits Entry.bit? :=
  ⟨rfl, fun _ entry => by cases entry <;> rfl⟩

theorem takes_balances : Takes balances Entry.balance? :=
  ⟨rfl, fun _ entry => by cases entry <;> rfl⟩

theorem takes_sales : Takes sales Entry.sale? :=
  ⟨rfl, fun _ entry => by cases entry <;> rfl⟩

namespace Takes

variable {κ ν : Type} [Ord κ] [Std.TransOrd κ] [Std.LawfulEqOrd κ]
  {table : Store → Table κ ν} {pick : Entry → Option (κ × ν)}

theorem find?_putAll (h : Takes table pick) (s : Store) (entries : List Entry) (key : κ) :
    (table (s.putAll entries)).find? key =
      (Entry.latest pick entries key).or ((table s).find? key) := by
  induction entries generalizing s with
  | nil => rfl
  | cons entry rest ih =>
      calc (table ((s.put entry).putAll rest)).find? key
          = (Entry.latest pick rest key).or ((table (s.put entry)).find? key) := ih _
        _ = (Entry.latest pick rest key).or
              ((Table.lookup key (pick entry).toList).or ((table s).find? key)) := by
            rw [h.put, Table.find?_insert?]
        _ = (Entry.latest pick (entry :: rest) key).or ((table s).find? key) := by
            rw [Entry.latest_cons, Option.or_assoc]

/-- Of entries that are all that was put in, the latest is read. -/
theorem find?_putAll_empty (h : Takes table pick) (entries : List Entry) (key : κ) :
    (table (Store.empty.putAll entries)).find? key = Entry.latest pick entries key := by
  have hnone : (table .empty).find? key = none := by
    rw [h.empty]
    rfl
  rw [h.find?_putAll, hnone, Option.or_none]

end Takes

end Store

namespace Journal

/-- The journal with an entry written. -/
def write (j : Journal) : Entry → Journal
  | .offset key value => j.setOffset key.program key.subject value
  | .fill key total => j.setFilled key.program key.subject total
  | .bit key => j.setBit key.program key.subject
  | .balance key amount => j.setBalance key.program key.subject amount
  | .sale key state => j.setSale key.program key.subject state

/-- The journal with entries written one after the other. -/
def writeAll (j : Journal) (entries : List Entry) : Journal :=
  entries.foldl write j

theorem write_eq (j : Journal) (entry : Entry) :
    j.write entry = { j with written := j.written.put entry } := by
  cases entry <;> rfl

/-- Writing leaves the store as it is. -/
theorem writeAll_eq (j : Journal) (entries : List Entry) :
    j.writeAll entries = { j with written := j.written.putAll entries } := by
  induction entries generalizing j with
  | nil => rfl
  | cons entry rest ih =>
      show (j.write entry).writeAll rest = _
      rw [ih, write_eq]
      rfl

/-!
# Reading what was written
-/

/-- The journal answers every read as a store does. -/
structure ReadsAs (j : Journal) (s : Store) : Prop where
  offset? : ∀ program side, j.offset? program side = s.offset? program side
  filled : ∀ program side, j.filled program side = s.filled program side
  isBitSet : ∀ program bit, j.isBitSet program bit = s.isBitSet program bit
  balance? : ∀ program asset, j.balance? program asset = s.balance? program asset
  sale? : ∀ program offset, j.sale? program offset = s.sale? program offset

/-- The journal answers every read with the latest of some entries, and as a store does where
none of them is asked for. -/
structure ReadsLatest (j : Journal) (s : Store) (entries : List Entry) : Prop where
  offset? : ∀ program side, j.offset? program side =
    (Entry.latest Entry.offset? entries ⟨program, side⟩).or (s.offset? program side)
  filled : ∀ program side, j.filled program side =
    (Entry.latest Entry.fill? entries ⟨program, side⟩).getD (s.filled program side)
  isBitSet : ∀ program bit, j.isBitSet program bit =
    ((Entry.latest Entry.bit? entries ⟨program, bit⟩).isSome || s.isBitSet program bit)
  balance? : ∀ program asset, j.balance? program asset =
    (Entry.latest Entry.balance? entries ⟨program, asset⟩).or (s.balance? program asset)
  sale? : ∀ program offset, j.sale? program offset =
    (Entry.latest Entry.sale? entries ⟨program, offset⟩).or (s.sale? program offset)

theorem readsAs_commit (j : Journal) : j.ReadsAs j.commit where
  offset? program side := (j.offset?_commit program side).symm
  filled program side := (j.filled_commit program side).symm
  isBitSet program bit := (j.isBitSet_commit program bit).symm
  balance? program asset := (j.balance?_commit program asset).symm
  sale? program offset := (j.sale?_commit program offset).symm

theorem readsLatest_writeAll (s : Store) (entries : List Entry) :
    ((opened s).writeAll entries).ReadsLatest s entries := by
  rw [writeAll_eq]
  constructor
  · intro program side
    exact congrArg (Option.or · _) (Store.takes_offsets.find?_putAll_empty entries _)
  · intro program side
    exact congrArg (Option.getD · _) (Store.takes_fills.find?_putAll_empty entries _)
  · intro program bit
    exact congrArg (Option.isSome · || _) (Store.takes_bits.find?_putAll_empty entries _)
  · intro program asset
    exact congrArg (Option.or · _) (Store.takes_balances.find?_putAll_empty entries _)
  · intro program offset
    exact congrArg (Option.or · _) (Store.takes_sales.find?_putAll_empty entries _)

end Journal

/-!
# Entries held
-/

namespace Store

/-- The store holds an entry. -/
def Holds (s : Store) : Entry → Prop
  | .offset key value => s.offsets.find? key = some value
  | .fill key total => s.fills.find? key = some total
  | .bit key => s.bits.find? key = some ()
  | .balance key amount => s.balances.find? key = some amount
  | .sale key state => s.sales.find? key = some state

theorem find?_part_eq_some_iff {σ ν : Type} [Ord σ] [Std.LawfulEqOrd σ] {t : Table (Owned σ) ν}
    {program : ProgramId} {key : Owned σ} {value : ν} :
    (t.filter fun key => key.program = program).find? key = some value ↔
      t.find? key = some value ∧ key.program = program := by
  rw [Table.find?_filter]
  split
  · rename_i howner
    simp [of_decide_eq_true howner]
  · rename_i hother
    simp [mt decide_eq_true hother]

theorem holds_ofProgram_iff {s : Store} {program : ProgramId} {entry : Entry} :
    (s.ofProgram program).Holds entry ↔ s.Holds entry ∧ entry.program = program := by
  cases entry <;> exact find?_part_eq_some_iff

end Store

/-- Whatever is written to a journal over a store, the store stays as it is, and the journal
answers every read with the latest write, which is what the store answers once the writes are
applied.  The part of a program then is its part with the program's writes applied, and the
parts of all programs divide the entries of the store among them. -/
theorem journal_refines_store (s : Store) (entries : List Entry) :
    ((Journal.opened s).writeAll entries).base = s ∧
    ((Journal.opened s).writeAll entries).ReadsLatest s entries ∧
    ((Journal.opened s).writeAll entries).ReadsAs
      (s.apply ((Journal.opened s).writeAll entries).written) ∧
    (∀ program,
      (s.apply ((Journal.opened s).writeAll entries).written).ofProgram program =
        (s.ofProgram program).apply
          (((Journal.opened s).writeAll entries).written.ofProgram program) ∧
      ((Journal.opened s).writeAll entries).written.ofProgram program =
        ((Journal.opened (s.ofProgram program)).writeAll
          (entries.filter fun entry => entry.program = program)).written) ∧
    (∀ entry, s.Holds entry → ∃! program, (s.ofProgram program).Holds entry) ∧
    ∀ program entry, (s.ofProgram program).Holds entry → s.Holds entry := by
  have hbase : ((Journal.opened s).writeAll entries).base = s := by
    rw [Journal.writeAll_eq]
    rfl
  refine ⟨hbase, Journal.readsLatest_writeAll s entries, ?_, fun program => ⟨?_, ?_⟩, ?_, ?_⟩
  · have hcommit := ((Journal.opened s).writeAll entries).readsAs_commit
    rwa [Journal.commit, hbase] at hcommit
  · exact Store.ofProgram_apply _ _ program
  · rw [Journal.writeAll_eq, Journal.writeAll_eq]
    exact Store.ofProgram_putAll .empty entries program
  · intro entry hheld
    refine ⟨entry.program, Store.holds_ofProgram_iff.mpr ⟨hheld, rfl⟩, ?_⟩
    intro program hpart
    exact (Store.holds_ofProgram_iff.mp hpart).2.symm
  · intro program entry hpart
    exact (Store.holds_ofProgram_iff.mp hpart).1

end Order
end SwapPricing
