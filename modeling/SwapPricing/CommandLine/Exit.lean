import SwapPricing.CommandLine.Arguments
import SwapPricing.CommandLine.Commands

/-!
# Exits

A whole command line either runs a command, asks for help or for the version,
or is refused before anything runs.
-/

namespace SwapPricing
namespace CommandLine

/-- How a command line ends. -/
inductive Exit where
  | done (printed : String)
  /-- The command failed behind what it had printed. -/
  | failed (printed : String) (failure : Failure)
  | help
  | refused

namespace Exit

/-- The status that the system is told. -/
def code : Exit → UInt32
  | done _ => 0
  | failed _ _ => 1
  | help => 0
  | refused => 2

end Exit

/-- The program and its version. -/
def versionLine : String := "swapvm 0.1.0\n"

/-- Runs a whole command line. -/
def execute {m : Type → Type} [Monad m] (host : Host m) (arguments : List String) : m Exit := do
  match Invocation.parse arguments with
  | .refused => return .refused
  | .help => return .help
  | .version => return .done versionLine
  | .given invocation =>
      let (result, printed) ← ((invocation.run host).run).run ""
      match result with
      | .ok () => return .done printed
      | .error failure => return .failed printed failure

end CommandLine
end SwapPricing
