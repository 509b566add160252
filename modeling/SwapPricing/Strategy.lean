import SwapPricing.Assembly
import SwapPricing.Digest.Blake3
import SwapPricing.Table
import SwapPricing.Text.Hex

/-!
# Strategies

A strategy is a program written step by step, with named labels, tables of
amounts and bytes in hexadecimal.  It is compiled to a program, which is called
by a pinned identifier or else by the digest of its bytes.
-/

namespace SwapPricing

/-- A step of a strategy: a label, or an instruction whose jumps name labels. -/
inductive Step where
  | label (name : String)
  | instruction (op : Operation String (Table AssetId UInt64) String)

/-- A program as its author writes it. -/
structure Strategy where
  id : Option ProgramId
  steps : List Step

/-- Why a strategy gives no program. -/
inductive StrategyError where
  | unknownLabel (name : String)
  | duplicateLabel (name : String)
  | badHex (step : Nat) (reason : Text.HexError)
  | assembly (reason : AssemblyError)
  | malformed (reason : DecodeError)
  deriving DecidableEq

namespace StrategyError

/-- The message of the failure itself. -/
def message : StrategyError → String
  | unknownLabel name => "label `" ++ name ++ "` is never placed"
  | duplicateLabel name => "label `" ++ name ++ "` placed twice"
  | badHex step reason => s!"invalid hex in step {step}: {reason.message}"
  | assembly _ => "Failed to assemble strategy"
  | malformed reason => reason.message

/-- The message of the failure behind it. -/
def cause? : StrategyError → Option String
  | badHex _ reason => some reason.message
  | assembly reason => some reason.message
  | _ => none

end StrategyError

/-- The identifier of a program that is not pinned: the digest of its bytes. -/
def ProgramId.ofContent (bytes : List UInt8) : ProgramId :=
  ⟨Digest.Blake3.hash bytes, Digest.Blake3.length_hash bytes⟩

namespace Step

/-- The label that a step names. -/
def name? : Step → Option String
  | label name => some name
  | instruction op => op.target?

end Step

namespace Strategy

/-!
# Labels
-/

/-- The names of a list, each at its first mention. -/
def firstMentions (names : List String) : List String :=
  names.foldl (fun seen name => if name ∈ seen then seen else seen ++ [name]) []

/-- The names of the labels, in the order of their numbers. -/
def labelNames (s : Strategy) : List String :=
  firstMentions (s.steps.filterMap Step.name?)

/-- The label of a name. -/
def labelOf (names : List String) (name : String) : Label :=
  ⟨names.idxOf name⟩

/-- A draft with one label for each name. -/
def labelled (set : InstructionSet) (names : List String) : Draft :=
  names.foldl (fun d _ => d.newLabel.2) (Draft.empty set)

/-!
# Lowering
-/

/-- The bytes that a text of step number `index` denotes. -/
def hexOf (index : Nat) (text : String) : Except StrategyError (List UInt8) :=
  (Text.Hex.decode text).mapError (StrategyError.badHex index)

/-- The item of an instruction; tables are listed in the order of their
assets. -/
def itemOf (names : List String) (index : Nat)
    (op : Operation String (Table AssetId UInt64) String) : Except StrategyError Item :=
  op.traverse (fun name => pure (.label (labelOf names name))) (fun t => pure t.entries)
    (hexOf index)

/-- A draft under construction, and the names placed so far. -/
structure Lowering where
  draft : Draft
  placed : List String

/-- Adds step number `index`. -/
def lowerStep (names : List String) (l : Lowering) (step : Step) (index : Nat) :
    Except StrategyError Lowering :=
  match step with
  | .label name =>
      if name ∈ l.placed then .error (.duplicateLabel name)
      else .ok ⟨l.draft.place (labelOf names name), name :: l.placed⟩
  | .instruction op => do
      let item ← itemOf names index op
      .ok { l with draft := l.draft.append item }

/-- The first of some names in alphabetical order. -/
def least? (names : List String) : Option String :=
  (names.mergeSort fun a b => decide (a ≤ b)).head?

/-- The draft of a strategy.  Of labels that are never placed the first in
alphabetical order is reported. -/
def draft (s : Strategy) (set : InstructionSet) : Except StrategyError Draft := do
  let names := s.labelNames
  let lowered ← s.steps.zipIdx.foldlM (fun l (step, index) => lowerStep names l step index)
    ⟨labelled set names, []⟩
  match least? (names.filter (· ∉ lowered.placed)) with
  | some name => .error (.unknownLabel name)
  | none => .ok lowered.draft

/-- The program of a strategy. -/
def compile (s : Strategy) (set : InstructionSet) : Except StrategyError Program := do
  let draft ← s.draft set
  let bytes ← draft.encode.mapError StrategyError.assembly
  let id := s.id.getD (ProgramId.ofContent bytes)
  (Program.decode set id bytes).mapError StrategyError.malformed

end Strategy
end SwapPricing
