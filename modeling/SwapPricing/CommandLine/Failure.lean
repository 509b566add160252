import SwapPricing.Machine.Failure
import SwapPricing.Price
import SwapPricing.Settings
import SwapPricing.Strategy

/-!
# Failures of commands

A failure is reported with its causes, the outermost first.
-/

namespace SwapPricing
namespace CommandLine

/-- Why a file cannot be used. -/
structure FileFault where
  reason : String
  /-- Whether nothing is there; such a file may be left out. -/
  isAbsent : Bool
  deriving DecidableEq

namespace FileFault

def missing : FileFault := ⟨"No such file or directory (os error 2)", true⟩

def denied : FileFault := ⟨"Permission denied (os error 13)", false⟩

def notText : FileFault := ⟨"stream did not contain valid UTF-8", false⟩

def notDirectory : FileFault := ⟨"Not a directory (os error 20)", true⟩

def isDirectory : FileFault := ⟨"Is a directory (os error 21)", false⟩

def nameTooLong : FileFault := ⟨"File name too long (os error 36)", true⟩

def zeroInName : FileFault := ⟨"file name contained an unexpected NUL byte", true⟩

end FileFault

/-- What a file holds. -/
inductive FileRole where
  | strategy
  | config
  | state
  deriving DecidableEq

def FileRole.name : FileRole → String
  | strategy => "strategy"
  | config => "config"
  | state => "state"

/-- What an identifier on the command line is for. -/
inductive IdentifierRole where
  | inputAsset
  | outputAsset
  | taker
  | program
  deriving DecidableEq

def IdentifierRole.name : IdentifierRole → String
  | inputAsset => "input asset"
  | outputAsset => "output asset"
  | taker => "taker"
  | program => "program id"

/-- Why a command fails. -/
inductive Failure where
  | unreadable (role : FileRole) (path : String) (fault : FileFault)
  | unparsable (role : FileRole) (path : String)
  | unwritable (role : FileRole) (path : String) (fault : FileFault)
  | unknownSet (reason : UnknownInstructionSet)
  | strategy (reason : StrategyError)
  | moment (reason : Moment.Fault)
  | identifier (role : IdentifierRole) (reason : IdentifierError)
  | hex (reason : Text.HexError)
  | malformed (reason : DecodeError)
  | noSource
  | quote (reason : RunError)
  | swap (reason : RunError)
  | price (reason : Price.ParseError)
  | band (bottom top middle : String) (reason : MathError)

namespace Failure

def message : Failure → String
  | unreadable role path _ => "Failed to read " ++ role.name ++ " file: " ++ path
  | unparsable role path => "Failed to parse " ++ role.name ++ " file: " ++ path
  | unwritable role path _ => "Failed to write " ++ role.name ++ " file: " ++ path
  | unknownSet reason => reason.message
  | strategy reason => reason.message
  | moment reason => reason.message
  | identifier role reason => "Invalid " ++ role.name ++ ": " ++ reason.text
  | hex _ => "Invalid program hex"
  | malformed reason => reason.message
  | noSource => "Pass either a strategy file or --hex"
  | quote _ => "Quote failed"
  | swap _ => "Swap failed, state unchanged"
  | price reason => reason.message
  | band bottom top middle reason =>
      s!"Cannot concentrate into [{bottom}, {top}] at {middle}: {reason.message}"

/-- The messages of the failures behind a failure, the nearest first. -/
def causes : Failure → List String
  | unreadable _ _ fault => [fault.reason]
  | unparsable _ _ => []
  | unwritable _ _ fault => [fault.reason]
  | unknownSet _ => []
  | strategy reason => reason.cause?.toList
  | moment reason => reason.cause?.toList
  | identifier _ reason => [reason.message]
  | hex reason => [reason.message]
  | malformed _ => []
  | noSource => []
  | quote reason => reason.message :: reason.cause?.toList
  | swap reason => reason.message :: reason.cause?.toList
  | price reason => reason.cause?.toList
  | band _ _ _ _ => []

/-- The failure and its causes on one line. -/
def line (f : Failure) : String :=
  ": ".intercalate (f.message :: f.causes)

/-- A cause behind its heading; its further lines are moved in as far. -/
def indent (heading cause : String) : String :=
  let margin := String.ofList (List.replicate heading.length ' ')
  heading ++ ("\n" ++ margin).intercalate (cause.splitOn "\n")

/-- The causes below one another.  Several causes are numbered. -/
def causeLines : List String → List String
  | [] => []
  | [cause] => [indent "    " cause]
  | causes => causes.zipIdx.map fun (cause, n) =>
      let number := toString n
      indent (String.ofList (List.replicate (5 - number.length) ' ') ++ number ++ ": ") cause

/-- The report of a failure. -/
def report (f : Failure) : String :=
  let causes :=
    if f.causes = [] then "" else "\n\nCaused by:\n" ++ "\n".intercalate (causeLines f.causes)
  "Error: " ++ f.message ++ causes

end Failure
end CommandLine
end SwapPricing
