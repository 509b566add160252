import SwapPricing.CommandLine.Exit
import Std.Time.DateTime.Timestamp

/-!
# The program

Commands run on the files and the clock of the system.
-/

namespace SwapPricing
namespace CommandLine

/-- The number that the system gives an error. -/
def systemCode? : IO.Error → Option UInt32
  | .noFileOrDirectory _ code _ => some code
  | .permissionDenied _ code _ => some code
  | .inappropriateType _ code _ => some code
  | .invalidArgument _ code _ => some code
  | .illegalOperation code _ => some code
  | .resourceExhausted _ code _ => some code
  | .otherError code _ => some code
  | _ => none

/-- An error code without its sign. -/
def magnitude (code : UInt32) : UInt32 :=
  min code (0 - code)

/-- The fault that an error of the system stands for. -/
def systemFault (e : IO.Error) : FileFault :=
  match (systemCode? e).map magnitude with
  | some 2 => .missing
  | some 13 => .denied
  | some 20 => .notDirectory
  | some 21 => .isDirectory
  | some 36 => .nameTooLong
  | _ => ⟨e.toString, false⟩

/-- Runs an action on a file. -/
def onFile {α : Type} (path : String) (action : IO α) : IO (Except FileFault α) := do
  if '\x00' ∈ path.toList then
    return .error .zeroInName
  else
    try
      return .ok (← action)
    catch e =>
      return .error (systemFault e)

def readText (path : String) : IO (Except FileFault String) := do
  match ← onFile path (IO.FS.readBinFile path) with
  | .error fault => return .error fault
  | .ok bytes =>
      match String.fromUTF8? bytes with
      | some text => return .ok text
      | none => return .error .notText

/-- The files and the clock of the system. -/
def systemHost : Host IO where
  read := readText
  write path text := onFile path (IO.FS.writeFile path text)
  clock := do
    let now ← Std.Time.Timestamp.now
    return UInt64.ofNat now.toSecondsSinceUnixEpoch.val.toNat

def usage : String :=
  "Usage: swapvm [-c FILE] [-v] COMMAND\n\n" ++
  "Commands:\n" ++
  "  assemble STRATEGY\n" ++
  "  disasm [STRATEGY | --hex HEX [--id ID]]\n" ++
  "  quote STRATEGY --asset-in ID --asset-out ID --amount N [--exact-out] [--taker ID]\n" ++
  "  swap STRATEGY --asset-in ID --asset-out ID --amount N [--exact-out] [--taker ID]\n" ++
  "  invalidate STRATEGY --bit N\n" ++
  "  concentrate --balance-a N --balance-b N --price P --price-min P --price-max P\n" ++
  "  state [--program ID]\n"

/-- Prints what a command line has come to. -/
def Exit.show : Exit → IO Unit
  | done printed => IO.print printed
  | failed printed failure => do
      IO.print printed
      IO.eprintln failure.report
  | help => IO.print usage
  | refused => IO.eprint usage

end CommandLine
end SwapPricing

open SwapPricing.CommandLine in
def main (arguments : List String) : IO UInt32 := do
  let exit ← execute systemHost arguments
  exit.show
  return exit.code
