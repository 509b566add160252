import SwapPricing.CommandLine.Request
import SwapPricing.Text.Numeral

/-!
# Arguments

Options have a long name and may have a letter; letters may be written
together.  The value of an option follows it or is attached to it, and a value
that follows must not look like an option.  No option is given twice.  Behind
two dashes everything is positional.
-/

namespace SwapPricing
namespace CommandLine

/-- What an option does. -/
inductive OptionKind where
  | flag
  /-- Takes a value that satisfies `accepts`. -/
  | value (accepts : String → Bool)
  | help
  | version

/-- An option of a command. -/
structure OptionSpec where
  name : String
  letter : Option Char
  kind : OptionKind

/-- What may follow on the command line. -/
structure ArgumentSpec where
  options : List OptionSpec
  /-- The most positional values. -/
  positionals : Nat
  commands : List String

/-- The arguments of one command. -/
structure Given where
  /-- The options given, each with its value; flags have an empty one. -/
  options : List (String × String)
  positionals : List String
  /-- A command and the arguments behind it. -/
  command : Option (String × List String)

/-- How a reading of arguments ends. -/
inductive Parsed (α : Type) where
  | given (a : α)
  | help
  | version
  | refused

namespace ArgumentSpec

/-- The option of a long name. -/
def named? (spec : ArgumentSpec) (name : String) : Option OptionSpec :=
  spec.options.find? fun option => option.name == name

/-- The option of a letter. -/
def lettered? (spec : ArgumentSpec) (letter : Char) : Option OptionSpec :=
  spec.options.find? fun option => option.letter == some letter

end ArgumentSpec

namespace Given

def empty : Given := ⟨[], [], none⟩

def has (g : Given) (name : String) : Bool :=
  g.options.any fun option => option.1 == name

def value? (g : Given) (name : String) : Option String :=
  g.options.lookup name

/-- Adds an option; one that was given before is refused. -/
def addOption (g : Given) (name value : String) : Option Given :=
  if g.has name then none else some { g with options := g.options ++ [(name, value)] }

end Given

/-- What reading one option leads to. -/
inductive OptionResult where
  | done (g : Given)
  /-- The value of the option is expected next. -/
  | awaits (option : OptionSpec)
  | help
  | version
  | refused

/-- Takes a value for an option. -/
def takeValue (g : Given) (option : OptionSpec) (value : String) : OptionResult :=
  match option.kind with
  | .value accepts =>
      if accepts value then
        match g.addOption option.name value with
        | some g => .done g
        | none => .refused
      else
        .refused
  | _ => .refused

/-- Takes a flag. -/
def takeFlag (g : Given) (option : OptionSpec) : OptionResult :=
  match g.addOption option.name "" with
  | some g => .done g
  | none => .refused

/-- The text before the first equals sign and the text behind it. -/
def splitValue (text : List Char) : List Char × Option (List Char) :=
  match text.dropWhile (· != '=') with
  | _ :: rest => (text.takeWhile (· != '='), some rest)
  | [] => (text, none)

/-- An option given by its long name. -/
def takeLong (spec : ArgumentSpec) (g : Given) (text : List Char) : OptionResult :=
  let (name, value) := splitValue text
  match spec.named? (String.ofList name) with
  | none => .refused
  | some option =>
      match option.kind, value with
      | .value _, some value => takeValue g option (String.ofList value)
      | .value _, none => .awaits option
      | _, some _ => .refused
      | .flag, none => takeFlag g option
      | .help, none => .help
      | .version, none => .version

/-- Options given by letters written together; what is behind a letter that
takes a value is its value. -/
def takeLetters (spec : ArgumentSpec) : Given → List Char → OptionResult
  | g, [] => .done g
  | g, letter :: rest =>
      match spec.lettered? letter with
      | none => .refused
      | some option =>
          match option.kind with
          | .value _ =>
              match rest with
              | [] => .awaits option
              | '=' :: value => takeValue g option (String.ofList value)
              | value => takeValue g option (String.ofList value)
          | .flag =>
              match takeFlag g option with
              | .done g => takeLetters spec g rest
              | other => other
          | .help => .help
          | .version => .version

/-- An argument that is no option. -/
def takePositional (spec : ArgumentSpec) (g : Given) (value : String) : Option Given :=
  if g.positionals.length < spec.positionals ∧ value ≠ "" then
    some { g with positionals := g.positionals ++ [value] }
  else
    none

/-- Reads all arguments behind two dashes. -/
def readPositionals (spec : ArgumentSpec) : Given → List String → Parsed Given
  | g, [] => .given g
  | g, value :: rest =>
      match takePositional spec g value with
      | some g => readPositionals spec g rest
      | none => .refused

/-- Reads arguments up to a command; `awaited` is an option whose value is
expected next. -/
def readArguments (spec : ArgumentSpec) :
    (awaited : Option OptionSpec) → Given → List String → Parsed Given
  | none, g, [] => .given g
  | some _, _, [] => .refused
  | awaited, g, argument :: rest =>
      let afterOption : OptionResult → Parsed Given := fun result =>
        match result with
        | .done g => readArguments spec none g rest
        | .awaits option =>
            if g.has option.name then .refused else readArguments spec (some option) g rest
        | .help => .help
        | .version => .version
        | .refused => .refused
      if awaited.isNone ∧ argument ∈ spec.commands then
        .given { g with command := some (argument, rest) }
      else
        match argument.toList, awaited with
        | ['-', '-'], none => readPositionals spec g rest
        | '-' :: '-' :: text, none => afterOption (takeLong spec g text)
        | '-' :: c :: text, none => afterOption (takeLetters spec g (c :: text))
        | '-' :: _ :: _, some _ => .refused
        | _, some option => afterOption (takeValue g option argument)
        | _, none =>
            match takePositional spec g argument with
            | some g => readArguments spec none g rest
            | none => .refused

/-!
# Commands
-/

def anyText : OptionKind := .value fun _ => true

/-- A path is never empty. -/
def path : OptionKind := .value fun text => text ≠ ""

/-- The amount that a text denotes. -/
def amount? (text : String) : Option UInt64 :=
  (Text.Numeral.read (UInt64.size - 1) text.toList).toOption.map UInt64.ofNat

def amount : OptionKind := .value fun text => (amount? text).isSome

/-- The bit that a text denotes; a zero may have any sign. -/
def bit? (text : String) : Option UInt32 :=
  let n := match text.toList with
    | '-' :: c :: rest => Text.Numeral.accumulate 0 0 (c :: rest)
    | chars => Text.Numeral.read (UInt32.size - 1) chars
  n.toOption.map UInt32.ofNat

def bit : OptionKind := .value fun text => (bit? text).isSome

def helpOption : OptionSpec := ⟨"help", some 'h', .help⟩

/-- The options in front of the command. -/
def mainSpec : ArgumentSpec where
  options :=
    [⟨"config", some 'c', path⟩, ⟨"verbose", some 'v', .flag⟩, helpOption,
      ⟨"version", some 'V', .version⟩]
  positionals := 0
  commands :=
    ["assemble", "disasm", "quote", "swap", "invalidate", "concentrate", "state", "help"]

def commandSpec (positionals : Nat) (options : List (String × OptionKind)) : ArgumentSpec where
  options := options.map (fun option => ⟨option.1, none, option.2⟩) ++ [helpOption]
  positionals := positionals
  commands := []

/-- Reads the arguments of a command and makes it of them, if none is missing. -/
def readCommand (spec : ArgumentSpec) (arguments : List String) (make : Given → Option Command) :
    Parsed Command :=
  match readArguments spec none .empty arguments with
  | .given g =>
      match make g with
      | some command => .given command
      | none => .refused
  | .help => .help
  | .version => .version
  | .refused => .refused

def tradeSpec : ArgumentSpec :=
  commandSpec 1
    [("asset-in", anyText), ("asset-out", anyText), ("amount", amount), ("exact-out", .flag),
      ("taker", anyText)]

def tradeOf (g : Given) : Option TradeRequest := do
  return ⟨← g.value? "asset-in", ← g.value? "asset-out", ← amount? (← g.value? "amount"),
    g.has "exact-out", g.value? "taker"⟩

/-- Raw bytes exclude a strategy file.  An identifier names raw bytes; beside a
strategy file, which raw bytes cannot join, it is ignored. -/
def disassemblyOf (g : Given) : Option Command :=
  match g.positionals.head?, g.value? "hex", g.value? "id" with
  | some _, some _, _ => none
  | none, none, some _ => none
  | strategy, hex, id => some (.disassemble strategy hex id)

def bandOf (g : Given) : Option BandRequest := do
  return ⟨← amount? (← g.value? "balance-a"), ← amount? (← g.value? "balance-b"),
    ← g.value? "price", ← g.value? "price-min", ← g.value? "price-max"⟩

/-- Help on one command, or on all of them. -/
def helpOn {α : Type} : (names : List String) → Parsed α
  | [] => .help
  | [name] => if name ∈ mainSpec.commands then .help else .refused
  | _ => .refused

/-- Reads a command by its name. -/
def readNamed (name : String) (arguments : List String) : Parsed Command :=
  match name with
  | "assemble" =>
      readCommand (commandSpec 1 []) arguments fun g => do
        return .assemble (← g.positionals.head?)
  | "disasm" =>
      readCommand (commandSpec 1 [("hex", anyText), ("id", anyText)]) arguments disassemblyOf
  | "quote" =>
      readCommand tradeSpec arguments fun g => do
        return .quote (← g.positionals.head?) (← tradeOf g)
  | "swap" =>
      readCommand tradeSpec arguments fun g => do
        return .swap (← g.positionals.head?) (← tradeOf g)
  | "invalidate" =>
      readCommand (commandSpec 1 [("bit", bit)]) arguments fun g => do
        return .invalidate (← g.positionals.head?) (← bit? (← g.value? "bit"))
  | "concentrate" =>
      readCommand
        (commandSpec 0
          [("balance-a", amount), ("balance-b", amount), ("price", anyText),
            ("price-min", anyText), ("price-max", anyText)])
        arguments fun g => do return .concentrate (← bandOf g)
  | "state" =>
      readCommand (commandSpec 0 [("program", anyText)]) arguments fun g =>
        some (.state (g.value? "program"))
  | "help" => helpOn arguments
  | _ => .refused

/-- The settings file that is read where none is named. -/
def defaultConfig : String := "swapvm.toml"

/-- Reads a whole command line. -/
def Invocation.parse (arguments : List String) : Parsed Invocation :=
  match readArguments mainSpec none .empty arguments with
  | .refused => .refused
  | .help => .help
  | .version => .version
  | .given g =>
      match g.command with
      | none => .refused
      | some (name, rest) =>
          match readNamed name rest with
          | .given command =>
              .given ⟨(g.value? "config").getD defaultConfig, g.has "verbose", command⟩
          | .help => .help
          | .version => .version
          | .refused => .refused

end CommandLine
end SwapPricing
