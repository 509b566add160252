/-!
# Ordered tables

A table maps keys to values and lists its entries in the order of the keys.
Every key occurs at most once, so two tables with the same entries are equal.
-/

namespace SwapPricing

/-- A finite map whose entries are kept in key order. -/
structure Table (κ ν : Type) [Ord κ] where
  entries : List (κ × ν)
  sorted : entries.Pairwise fun a b => compare a.1 b.1 = .lt
  deriving DecidableEq

namespace Table

variable {κ ν : Type} [Ord κ]

@[ext]
theorem ext {s t : Table κ ν} (h : s.entries = t.entries) : s = t := by
  cases s
  cases t
  cases h
  rfl

def empty : Table κ ν :=
  ⟨[], List.Pairwise.nil⟩

instance : Inhabited (Table κ ν) := ⟨empty⟩

def isEmpty (t : Table κ ν) : Bool :=
  t.entries.isEmpty

def size (t : Table κ ν) : Nat :=
  t.entries.length

/-- The value listed under a key. -/
def lookup (key : κ) : List (κ × ν) → Option ν
  | [] => none
  | entry :: rest => if compare key entry.1 = .eq then some entry.2 else lookup key rest

theorem lookup_eq_none {key : κ} {entries : List (κ × ν)}
    (h : ∀ entry ∈ entries, compare key entry.1 ≠ .eq) : lookup key entries = none := by
  induction entries with
  | nil => rfl
  | cons head rest ih =>
      rw [lookup, if_neg (h head List.mem_cons_self)]
      apply ih
      intro entry hentry
      exact h entry (List.mem_cons_of_mem head hentry)

theorem lookup_eq_none_of_forall_lt {key : κ} {entries : List (κ × ν)}
    (h : ∀ entry ∈ entries, compare key entry.1 = .lt) : lookup key entries = none := by
  apply lookup_eq_none
  intro entry hentry
  rw [h entry hentry]
  decide

def find? (t : Table κ ν) (key : κ) : Option ν :=
  lookup key t.entries

def contains (t : Table κ ν) (key : κ) : Bool :=
  (t.find? key).isSome

/-- The part of a table whose keys satisfy `p`. -/
def filter (t : Table κ ν) (p : κ → Bool) : Table κ ν where
  entries := t.entries.filter fun entry => p entry.1
  sorted := t.sorted.sublist List.filter_sublist

/-!
# Insertion
-/

/-- Puts an entry at its place; it replaces an entry of the same key. -/
def insertEntry (key : κ) (value : ν) : List (κ × ν) → List (κ × ν)
  | [] => [(key, value)]
  | entry :: rest =>
      match compare key entry.1 with
      | .lt => (key, value) :: entry :: rest
      | .eq => (key, value) :: rest
      | .gt => entry :: insertEntry key value rest

theorem mem_insertEntry {key : κ} {value : ν} {entry : κ × ν} {entries : List (κ × ν)}
    (h : entry ∈ insertEntry key value entries) : entry = (key, value) ∨ entry ∈ entries := by
  induction entries with
  | nil => exact Or.inl (List.mem_singleton.mp h)
  | cons head rest ih =>
      unfold insertEntry at h
      split at h
      · exact List.mem_cons.mp h
      · exact (List.mem_cons.mp h).imp id (List.mem_cons_of_mem head)
      · rcases List.mem_cons.mp h with h | h
        · exact Or.inr (h ▸ List.mem_cons_self)
        · exact (ih h).imp id (List.mem_cons_of_mem head)

section Lawful

variable [Std.LawfulEqOrd κ]

theorem lookup_insertEntry_self (key : κ) (value : ν) (entries : List (κ × ν)) :
    lookup key (insertEntry key value entries) = some value := by
  induction entries with
  | nil => simp [insertEntry, lookup, Std.ReflCmp.compare_self]
  | cons head rest ih =>
      unfold insertEntry
      split
      · simp [lookup, Std.ReflCmp.compare_self]
      · simp [lookup, Std.ReflCmp.compare_self]
      · rename_i hgt
        simp [lookup, hgt, ih]

theorem lookup_insertEntry_of_ne {key other : κ} (h : other ≠ key) (value : ν)
    (entries : List (κ × ν)) :
    lookup other (insertEntry key value entries) = lookup other entries := by
  have hne : compare other key ≠ .eq := fun heq => h (Std.LawfulEqCmp.eq_of_compare heq)
  induction entries with
  | nil => simp [insertEntry, lookup, hne]
  | cons head rest ih =>
      unfold insertEntry
      split
      · simp [lookup, hne]
      · rename_i heq
        have hkey := Std.LawfulEqCmp.eq_of_compare heq
        simp [lookup, hne, ← hkey]
      · simp [lookup, ih]

variable [Std.TransOrd κ]

theorem sorted_insertEntry (key : κ) (value : ν) {entries : List (κ × ν)}
    (h : entries.Pairwise fun a b => compare a.1 b.1 = .lt) :
    (insertEntry key value entries).Pairwise fun a b => compare a.1 b.1 = .lt := by
  induction entries with
  | nil => exact List.pairwise_singleton _ _
  | cons head rest ih =>
      have hhead := (List.pairwise_cons.mp h).1
      have hrest := (List.pairwise_cons.mp h).2
      unfold insertEntry
      split
      · rename_i hlt
        refine List.pairwise_cons.mpr ⟨?_, h⟩
        intro entry hentry
        rcases List.mem_cons.mp hentry with heq | hmem
        · exact heq ▸ hlt
        · exact Std.TransCmp.lt_trans hlt (hhead entry hmem)
      · rename_i heq
        have hkey := Std.LawfulEqCmp.eq_of_compare heq
        refine List.pairwise_cons.mpr ⟨?_, hrest⟩
        intro entry hentry
        exact hkey ▸ hhead entry hentry
      · rename_i hgt
        refine List.pairwise_cons.mpr ⟨?_, ih hrest⟩
        intro entry hentry
        rcases mem_insertEntry hentry with heq | hmem
        · exact heq ▸ Std.OrientedCmp.lt_of_gt hgt
        · exact hhead entry hmem

/-- The table with `value` at `key`. -/
def insert (t : Table κ ν) (key : κ) (value : ν) : Table κ ν :=
  ⟨insertEntry key value t.entries, sorted_insertEntry key value t.sorted⟩

/-- Both tables together; the second one counts where they differ. -/
def union (s t : Table κ ν) : Table κ ν :=
  t.entries.foldl (fun u entry => u.insert entry.1 entry.2) s

/-!
# Reading what was written
-/

theorem find?_insert_self (t : Table κ ν) (key : κ) (value : ν) :
    (t.insert key value).find? key = some value :=
  lookup_insertEntry_self key value t.entries

theorem find?_insert_of_ne (t : Table κ ν) {key other : κ} (h : other ≠ key) (value : ν) :
    (t.insert key value).find? other = t.find? other :=
  lookup_insertEntry_of_ne h value t.entries

/-- Inserting entries at other keys, which stay apart. -/
theorem find?_foldl_insert {entries : List (κ × ν)} {f : κ → κ}
    (hf : ∀ a b, f a = f b → a = b)
    (h : entries.Pairwise fun a b => compare a.1 b.1 = .lt) (t : Table κ ν) (key : κ) :
    (entries.foldl (fun u entry => u.insert (f entry.1) entry.2) t).find? (f key) =
      (lookup key entries).or (t.find? (f key)) := by
  induction entries generalizing t with
  | nil => rfl
  | cons head rest ih =>
      have hhead := (List.pairwise_cons.mp h).1
      rw [List.foldl_cons, ih (List.pairwise_cons.mp h).2, lookup]
      by_cases hkey : key = head.1
      · have hnone : lookup key rest = none := by
          rw [hkey]
          apply lookup_eq_none
          intro entry hentry heq
          rw [hhead entry hentry] at heq
          cases heq
        rw [hnone, hkey, find?_insert_self, if_pos Std.ReflCmp.compare_self]
        rfl
      · have hne : compare key head.1 ≠ .eq := fun heq => hkey (Std.LawfulEqCmp.eq_of_compare heq)
        rw [find?_insert_of_ne t fun heq => hkey (hf key head.1 heq), if_neg hne]

theorem find?_union (s t : Table κ ν) (key : κ) :
    (s.union t).find? key = (t.find? key).or (s.find? key) :=
  find?_foldl_insert (show ∀ a b : κ, id a = id b → a = b from fun _ _ h => h) t.sorted s key

end Lawful

/-!
# Tables of lists

Sorting keeps the order of entries with equal keys, so the last one of them
stays the last.
-/

/-- Whether an entry may stand in front of another one. -/
def inOrder (a b : κ × ν) : Bool :=
  (compare a.1 b.1).isLE

/-- The last entry of every key, of entries in key order. -/
def lastOfEach : List (κ × ν) → List (κ × ν)
  | [] => []
  | [entry] => [entry]
  | entry :: next :: rest =>
      if compare entry.1 next.1 = .eq then lastOfEach (next :: rest)
      else entry :: lastOfEach (next :: rest)

theorem mem_of_mem_lastOfEach {entry : κ × ν} {entries : List (κ × ν)}
    (h : entry ∈ lastOfEach entries) : entry ∈ entries := by
  induction entries using lastOfEach.induct with
  | case1 => exact h
  | case2 => exact h
  | case3 first next rest heq ih =>
      rw [lastOfEach, if_pos heq] at h
      exact List.mem_cons_of_mem first (ih h)
  | case4 first next rest hne ih =>
      rw [lastOfEach, if_neg hne] at h
      rcases List.mem_cons.mp h with h | h
      · exact h ▸ List.mem_cons_self
      · exact List.mem_cons_of_mem first (ih h)

section Sorted

variable [Std.TransOrd κ]

theorem sorted_lastOfEach {entries : List (κ × ν)}
    (h : entries.Pairwise fun a b => inOrder a b = true) :
    (lastOfEach entries).Pairwise fun a b => compare a.1 b.1 = .lt := by
  induction entries using lastOfEach.induct with
  | case1 => exact List.Pairwise.nil
  | case2 => exact List.pairwise_singleton _ _
  | case3 first next rest heq ih =>
      rw [lastOfEach, if_pos heq]
      exact ih (List.pairwise_cons.mp h).2
  | case4 first next rest hne ih =>
      have hfirst := (List.pairwise_cons.mp h).1
      have hrest := (List.pairwise_cons.mp h).2
      rw [lastOfEach, if_neg hne]
      refine List.pairwise_cons.mpr ⟨?_, ih hrest⟩
      intro entry hentry
      have hlt : compare first.1 next.1 = .lt := by
        have hle := hfirst next List.mem_cons_self
        unfold inOrder at hle
        cases hcmp : compare first.1 next.1 <;> simp_all
      rcases List.mem_cons.mp (mem_of_mem_lastOfEach hentry) with heq | hmem
      · exact heq ▸ hlt
      · exact Std.TransCmp.lt_of_lt_of_isLE hlt ((List.pairwise_cons.mp hrest).1 entry hmem)

theorem sorted_mergeSort (entries : List (κ × ν)) :
    (entries.mergeSort inOrder).Pairwise fun a b => inOrder a b = true :=
  List.pairwise_mergeSort (fun _ _ _ => Std.TransCmp.isLE_trans)
    (fun a b => by
      have hswap : compare b.1 a.1 = (compare a.1 b.1).swap := Std.OrientedCmp.eq_swap
      unfold inOrder
      rw [hswap]
      cases compare a.1 b.1 <;> rfl)
    entries

/-- The table of a list of entries; of equal keys the last counts. -/
def ofList (entries : List (κ × ν)) : Table κ ν :=
  ⟨lastOfEach (entries.mergeSort inOrder), sorted_lastOfEach (sorted_mergeSort entries)⟩

omit [Std.TransOrd κ] in
theorem lastOfEach_of_sorted {entries : List (κ × ν)}
    (h : entries.Pairwise fun a b => compare a.1 b.1 = .lt) : lastOfEach entries = entries := by
  induction entries using lastOfEach.induct with
  | case1 => rfl
  | case2 => rfl
  | case3 first next rest heq ih =>
      have hlt := (List.pairwise_cons.mp h).1 next List.mem_cons_self
      rw [heq] at hlt
      cases hlt
  | case4 first next rest hne ih => rw [lastOfEach, if_neg hne, ih (List.pairwise_cons.mp h).2]

/-- The table of the entries of a table is that table. -/
theorem ofList_entries (t : Table κ ν) : ofList t.entries = t := by
  have hordered : t.entries.Pairwise fun a b => inOrder a b = true := by
    apply t.sorted.imp
    intro a b hlt
    unfold inOrder
    rw [hlt]
    rfl
  apply ext
  show lastOfEach (t.entries.mergeSort inOrder) = t.entries
  rw [List.mergeSort_of_pairwise hordered, lastOfEach_of_sorted t.sorted]

end Sorted

/-!
# Tables as functions

Sorted entries are determined by the values that they list, so whatever holds of
tables key by key holds of the tables.
-/

section Functions

variable [Std.TransOrd κ]

theorem forall_lt_of_sorted {head : κ × ν} {rest : List (κ × ν)}
    (h : (head :: rest).Pairwise fun a b => compare a.1 b.1 = .lt) {key : κ}
    (hlt : compare key head.1 = .lt) : ∀ entry ∈ head :: rest, compare key entry.1 = .lt := by
  refine List.forall_mem_cons.mpr ⟨hlt, ?_⟩
  intro entry hentry
  exact Std.TransCmp.lt_trans hlt ((List.pairwise_cons.mp h).1 entry hentry)

variable [Std.LawfulEqOrd κ]

theorem eq_of_lookup_eq {entries others : List (κ × ν)}
    (hentries : entries.Pairwise fun a b => compare a.1 b.1 = .lt)
    (hothers : others.Pairwise fun a b => compare a.1 b.1 = .lt)
    (h : ∀ key, lookup key entries = lookup key others) : entries = others := by
  induction entries generalizing others with
  | nil =>
      cases others with
      | nil => rfl
      | cons other more =>
          have hfound := h other.1
          simp [lookup, Std.ReflCmp.compare_self] at hfound
  | cons head rest ih =>
      cases others with
      | nil =>
          have hfound := h head.1
          simp [lookup, Std.ReflCmp.compare_self] at hfound
      | cons other more =>
          have hhead : some head.2 = lookup head.1 (other :: more) := by
            rw [← h, lookup, if_pos Std.ReflCmp.compare_self]
          have hother : lookup other.1 (head :: rest) = some other.2 := by
            rw [h, lookup, if_pos Std.ReflCmp.compare_self]
          -- The smaller one of two different first keys would be missing on the other side.
          have hkey : head.1 = other.1 := by
            cases hcmp : compare head.1 other.1 with
            | eq => exact Std.LawfulEqCmp.eq_of_compare hcmp
            | lt =>
                rw [lookup_eq_none_of_forall_lt (forall_lt_of_sorted hothers hcmp)] at hhead
                cases hhead
            | gt =>
                have hlt := Std.OrientedCmp.lt_of_gt hcmp
                rw [lookup_eq_none_of_forall_lt (forall_lt_of_sorted hentries hlt)] at hother
                cases hother
          have heq : head = other := by
            rw [hkey, lookup, if_pos Std.ReflCmp.compare_self] at hhead
            exact Prod.ext hkey (Option.some.inj hhead)
          subst heq
          have hrest := List.pairwise_cons.mp hentries
          have hmore := List.pairwise_cons.mp hothers
          congr 1
          apply ih hrest.2 hmore.2
          intro key
          by_cases hsame : key = head.1
          · rw [hsame, lookup_eq_none_of_forall_lt hrest.1, lookup_eq_none_of_forall_lt hmore.1]
          · have hne : compare key head.1 ≠ .eq := fun heq =>
              hsame (Std.LawfulEqCmp.eq_of_compare heq)
            have htail := h key
            rwa [lookup, lookup, if_neg hne, if_neg hne] at htail

/-- Tables with the same value at every key are equal. -/
theorem ext_find? {s t : Table κ ν} (h : ∀ key, s.find? key = t.find? key) : s = t :=
  ext (eq_of_lookup_eq s.sorted t.sorted h)

end Functions

theorem find?_filter [Std.LawfulEqOrd κ] (t : Table κ ν) (p : κ → Bool) (key : κ) :
    (t.filter p).find? key = if p key then t.find? key else none := by
  unfold find? filter
  simp only
  induction t.entries with
  | nil => simp [lookup]
  | cons head rest ih =>
      rw [List.filter_cons]
      by_cases hkey : key = head.1
      · subst hkey
        cases hp : p head.1 with
        | true => simp [lookup, Std.ReflCmp.compare_self]
        | false =>
            rw [hp] at ih
            simpa [lookup] using ih
      · have hne : compare key head.1 ≠ .eq := fun heq => hkey (Std.LawfulEqCmp.eq_of_compare heq)
        split
        · simp only [lookup, if_neg hne, ih]
        · simp only [lookup, if_neg hne, ih]

theorem filter_union [Std.TransOrd κ] [Std.LawfulEqOrd κ] (s t : Table κ ν) (p : κ → Bool) :
    (s.union t).filter p = (s.filter p).union (t.filter p) := by
  apply ext_find?
  intro key
  rw [find?_filter, find?_union, find?_union, find?_filter, find?_filter]
  split
  · rfl
  · rfl

/-- A key that satisfies `p` is only in tables of which `p` leaves something. -/
theorem find?_eq_none_of_isEmpty_filter [Std.LawfulEqOrd κ] {t : Table κ ν} {p : κ → Bool}
    (h : (t.filter p).isEmpty = true) {key : κ} (hkey : p key = true) : t.find? key = none := by
  apply lookup_eq_none
  intro entry hentry heq
  have hnil : t.entries.filter (fun entry => p entry.1) = [] := List.isEmpty_iff.mp h
  have hentry' := List.filter_eq_nil_iff.mp hnil entry hentry
  rw [← Std.LawfulEqCmp.eq_of_compare heq] at hentry'
  exact hentry' hkey

end Table
end SwapPricing
