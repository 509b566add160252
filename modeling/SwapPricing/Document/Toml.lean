import SwapPricing.Document.Toml.Scalar
import SwapPricing.Document.Toml.Section

/-!
# TOML

The TOML notation of documents: keys, values and tables.  Lists may run over
several lines and end with a comma; inline tables may do neither.
-/

namespace SwapPricing
namespace Document
namespace Toml

/-- Lists and inline tables nest less deep than this, and keys have fewer
parts. -/
def depthLimit : Nat := 80

/-!
# Keys
-/

def isBare (c : Char) : Bool :=
  c.isAlphanum || c == '-' || c == '_'

def bareKey : Scan String := do
  return String.ofList (← Scan.run1 isBare)

/-- One part of a key, with blanks around it. -/
def keyPart : Scan String := do
  blanks
  let part ← basicString <|> literalString <|> bareKey
  blanks
  return part

def keyParts : (bound : Nat) → Scan (List String)
  | 0 => failure
  | bound + 1 => do
      let part ← keyPart
      if ← Scan.accept '.' then return part :: (← keyParts bound) else return [part]

/-- A key of one part or several. -/
def key : Scan (List String) :=
  keyParts (depthLimit - 1)

/-!
# Values
-/

/-- The text behind blanks, line ends and comments; a comment that is not
closed by a line end is refused. -/
def behindLayout : (inComment : Bool) → List Char → Option (List Char)
  | false, '#' :: rest => behindLayout true rest
  | _, '\n' :: rest => behindLayout false rest
  | _, '\r' :: '\n' :: rest => behindLayout false rest
  | false, c :: rest => if isBlank c then behindLayout false rest else some (c :: rest)
  | true, c :: rest => if isPlain c then behindLayout true rest else none
  | false, [] => some []
  | true, [] => none

def layout : Scan Unit := fun text =>
  (behindLayout false text).map fun rest => ((), rest)

mutual

/-- A value within `depth` lists and inline tables. -/
def value : (bound : Nat) → (depth : Nat) → Scan Value
  | 0, _ => failure
  | bound + 1, depth => do
      if ← Scan.accept '[' then
        if depth + 1 < depthLimit then
          layout
          if ← Scan.accept ']' then return .list []
          else return .list (← items bound (depth + 1))
        else
          failure
      else if ← Scan.accept '\x7b' then
        if depth + 1 < depthLimit then
          blanks
          if ← Scan.accept '\x7d' then return .record []
          else return Section.toValue (← fields bound (depth + 1) (Section.empty .opened))
        else
          failure
      else
        scalar

/-- The items of a list up to its closing bracket. -/
def items : (bound : Nat) → (depth : Nat) → Scan (List Value)
  | 0, _ => failure
  | bound + 1, depth => do
      let item ← value bound depth
      layout
      if ← Scan.accept ',' then
        layout
        if ← Scan.accept ']' then return [item] else return item :: (← items bound depth)
      else
        Scan.char ']'
        return [item]

/-- The inline table `t` with the fields up to the closing brace. -/
def fields : (bound : Nat) → (depth : Nat) → Section → Scan Section
  | 0, _, _ => failure
  | bound + 1, depth, t => do
      let name ← key
      Scan.char '='
      blanks
      let v ← value bound depth
      let t ← Scan.ofOption (t.define name v)
      blanks
      if ← Scan.accept ',' then
        fields bound depth t
      else
        Scan.char '\x7d'
        return t

end

/-!
# Lines
-/

/-- The end of a line, or of the document, after blanks and a comment. -/
def lineEnd : Scan Unit := do
  blanks
  let _ ← Scan.attempt comment
  match ← Scan.peek with
  | none => return ()
  | some _ => newline

/-- The document so far, and the path of the table that lines go to. -/
structure Layout where
  root : Section
  path : List String

/-- The header of a table or of an entry of a list of tables. -/
def header (d : Layout) : Scan Layout := do
  Scan.char '['
  let isList ← Scan.accept '['
  let path ← key
  Scan.word (if isList then "]]" else "]")
  lineEnd
  let (parents, last) ← Scan.ofOption (Section.splitPath path)
  let enter := if isList then Section.appendTable last else Section.openTable last
  let root ← Scan.ofOption (Section.change .passed enter parents d.root)
  return ⟨root, path⟩

/-- A key with its value. -/
def definition (d : Layout) : Scan Layout := do
  let bound ← bound
  let name ← key
  Scan.char '='
  blanks
  let v ← value bound 0
  lineEnd
  let root ← Scan.ofOption (Section.change .passed (Section.define name v) d.path d.root)
  return { d with root := root }

/-- All lines up to the end. -/
def lines : (bound : Nat) → Layout → Scan Layout
  | 0, _ => failure
  | bound + 1, d => do
      blanks
      match ← Scan.peek with
      | none => return d
      | some '#' => do
          lineEnd
          lines bound d
      | some '[' => do lines bound (← header d)
      | some c =>
          if c == '\n' || c == '\r' then do
            newline
            lines bound d
          else do lines bound (← definition d)

/-- The value that a text writes; a byte order mark in front is skipped. -/
def parse? (text : String) : Option Value :=
  let chars := match text.toList with
    | '\ufeff' :: rest => rest
    | chars => chars
  (Scan.whole (lines (chars.length + 1) ⟨Section.empty .opened, []⟩) chars).map fun d =>
    d.root.toValue

end Toml
end Document
end SwapPricing
