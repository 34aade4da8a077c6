import SymbolIndex.Text.Pieces

/-!
# The forms of arguments

Which options, operands and commands there are, and how an argument shows by its
form which of them it can be.  What can be wrong with arguments is listed here
too, since asking for help ends the reading as an error does.
-/

namespace SymbolIndex

/-- Why arguments make no command. -/
inductive UsageError where
  | unknownArgument
  /-- What stands in the place of a command is none. -/
  | invalidSubcommand
  | missingSubcommand
  | missingArgument
  /-- An option without a value, or an empty path. -/
  | invalidValue
  | valueValidation
  | argumentConflict
  | tooManyValues
  | help
  | version
  /-- There are no arguments, so help is all that can be given. -/
  | helpOnMissing
  deriving DecidableEq, Repr

/-- The status with which a program ends that cannot make sense of its arguments: asking for help
is no mistake. -/
def UsageError.exitCode : UsageError → Nat
  | help | version => 0
  | _ => 2

/-- The words for the reader; help and the version are no mistakes and have none. -/
def UsageError.message : UsageError → String
  | unknownArgument => "an argument is not known here"
  | invalidSubcommand => "there is no such command"
  | missingSubcommand => "a command is missing"
  | missingArgument => "a required argument is missing"
  | invalidValue => "a value is missing"
  | valueValidation => "a level is none of off, error, warn, info, debug and trace"
  | argumentConflict => "an option is given twice"
  | tooManyValues => "an option takes no value"
  | help | version | helpOnMissing => ""

namespace Arguments

/-! ## Options, operands and commands -/

/-- The options that take a value. -/
inductive Parameter where
  | log
  | parserLog
  | directory
  deriving DecidableEq, Repr

/-- The options that take no value. -/
inductive Flag where
  | help
  | version
  deriving DecidableEq, Repr

inductive Operand where
  | path
  | references
  deriving DecidableEq, Repr

inductive Subcommand where
  | check
  | entries
  | resolve
  deriving DecidableEq, Repr

/-- What can stand in the place of a command. -/
inductive Head where
  | subcommand (subcommand : Subcommand)
  | help
  deriving DecidableEq, Repr

/-- Which options and operands there are at a place of the command line. -/
structure Grammar where
  hasDirectory : Bool := false
  hasVersion : Bool := false
  operand : Option Operand := none

/-- In front of the name of a command. -/
def Grammar.outer : Grammar := { hasVersion := true }

/-- Behind the name of a command. -/
def Subcommand.grammar : Subcommand → Grammar
  | check | entries => { operand := some .path }
  | resolve => { hasDirectory := true, operand := some .references }

def Head.ofString? : String → Option Head
  | "check" => some (subcommand .check)
  | "entries" => some (subcommand .entries)
  | "resolve" => some (subcommand .resolve)
  | "help" => some help
  | _ => none

/-- Reads the name of an option that takes a value. -/
def Grammar.parameter? (grammar : Grammar) : String → Option Parameter
  | "log" => some .log
  | "parser-log" => some .parserLog
  | "gen-dir" => if grammar.hasDirectory then some .directory else none
  | _ => none

/-- Reads the name of an option that takes no value. -/
def Grammar.flag? (grammar : Grammar) : String → Option Flag
  | "help" => some .help
  | "version" => if grammar.hasVersion then some .version else none
  | _ => none

/-- Reads the letter of an option that takes no value. -/
def Grammar.letter? (grammar : Grammar) : Char → Option Flag
  | 'h' => some .help
  | 'V' => if grammar.hasVersion then some .version else none
  | _ => none

def Flag.request : Flag → UsageError
  | help => .help
  | version => .version

/-! ## Forms -/

/-- An argument by its form. -/
inductive Shape where
  /-- It ends the options. -/
  | endOfOptions
  /-- A long name of an option, and perhaps a value behind an equals sign. -/
  | long (name : String) (value : Option String)
  | short (letter : Char)
  | plain
  deriving DecidableEq, Repr

def Shape.of (argument : String) : Shape :=
  match argument.toList with
  | ['-', '-'] => endOfOptions
  | '-' :: '-' :: text =>
    match cutFirst '=' text with
    | some (name, value) => long (.ofList name) (some (.ofList value))
    | none => long (.ofList text) none
  | '-' :: letter :: _ => short letter
  | _ => plain

end Arguments

end SymbolIndex
