import SwapPricing.Document.Value

/-!
# TOML sections

The tables of a document are built up line by line, from headers and dotted
keys.  A table may be opened by a header once.  A table that was only passed
through may still be opened, and a table made by dotted keys may only be
extended by dotted keys.
-/

namespace SwapPricing
namespace Document
namespace Toml

/-- How a table came to be. -/
inductive Origin where
  /-- Opened by a header. -/
  | opened
  /-- Passed through on the way to another table. -/
  | passed
  /-- Made by a dotted key. -/
  | dotted
  deriving DecidableEq

mutual

/-- What a key of a table stands for. -/
inductive Node where
  | value (v : Value)
  | table (t : Section)
  /-- A list of tables, the last one first. -/
  | tables (last : Section) (earlier : List Section)

/-- A table under construction. -/
inductive Section where
  | mk (origin : Origin) (entries : List (String × Node))

end

namespace Section

def origin : Section → Origin
  | mk origin _ => origin

def entries : Section → List (String × Node)
  | mk _ entries => entries

def empty (origin : Origin) : Section :=
  mk origin []

def find? (t : Section) (key : String) : Option Node :=
  (t.entries.find? fun entry => entry.1 == key).map Prod.snd

/-- The table with `node` at `key`. -/
def set (t : Section) (key : String) (node : Node) : Section :=
  if (t.find? key).isSome then
    mk t.origin (t.entries.map fun entry => if entry.1 == key then (key, node) else entry)
  else
    mk t.origin (t.entries ++ [(key, node)])

/-- Changes the table that a path leads to.  Tables missing on the way are made
as `origin` says.  A list of tables stands for its last one.  A dotted path does
not lead through a table that a header has opened. -/
def change (origin : Origin) (f : Section → Option Section) :
    (path : List String) → Section → Option Section
  | [], t => f t
  | key :: rest, t =>
      match t.find? key with
      | none => do return t.set key (.table (← change origin f rest (empty origin)))
      | some (.table child) =>
          if origin = .dotted ∧ child.origin = .opened then none
          else do return t.set key (.table (← change origin f rest child))
      | some (.tables last earlier) => do
          return t.set key (.tables (← change origin f rest last) earlier)
      | some (.value _) => none

/-- The table without `key`. -/
def erase (t : Section) (key : String) : Section :=
  mk t.origin (t.entries.filter fun entry => entry.1 != key)

/-- Opens the table at `key`.  It counts as written here, even if it was passed
through before. -/
def openTable (key : String) (t : Section) : Option Section :=
  match t.find? key with
  | none => some (t.set key (.table (empty .opened)))
  | some (.table child) =>
      if child.origin = .passed then
        some ((t.erase key).set key (.table (mk .opened child.entries)))
      else
        none
  | _ => none

/-- Adds a table to the list of tables at `key`. -/
def appendTable (key : String) (t : Section) : Option Section :=
  match t.find? key with
  | none => some (t.set key (.tables (empty .opened) []))
  | some (.tables last earlier) => some (t.set key (.tables (empty .opened) (last :: earlier)))
  | _ => none

/-- Adds a value to a table.  `isDotted` says whether a dotted key led to the
table; only tables made by dotted keys are extended that way, and no others. -/
def insert (isDotted : Bool) (key : String) (v : Value) (t : Section) : Option Section :=
  if isDotted ≠ (t.origin == .dotted) then none
  else if (t.find? key).isSome then none
  else some (t.set key (.value v))

/-- The last part of a path and the parts before it. -/
def splitPath : List String → Option (List String × String)
  | [] => none
  | path@(_ :: _) => some (path.dropLast, path.getLastD "")

/-- Adds a value to the table that a key leads to. -/
def define (key : List String) (v : Value) (t : Section) : Option Section := do
  let (path, last) ← splitPath key
  change .dotted (insert (!path.isEmpty) last v) path t

mutual

/-- The value of a finished table. -/
def toValue : Section → Value
  | mk _ entries => .record (entryValues entries)

def entryValues : List (String × Node) → List (String × Value)
  | [] => []
  | (key, node) :: rest => (key, nodeValue node) :: entryValues rest

def nodeValue : Node → Value
  | .value v => v
  | .table t => toValue t
  | .tables last earlier => .list (sectionValues earlier [toValue last])

/-- The values of tables given last first, in front of `tail`. -/
def sectionValues : List Section → List Value → List Value
  | [], tail => tail
  | t :: earlier, tail => sectionValues earlier (toValue t :: tail)

end

end Section
end Toml
end Document
end SwapPricing
