import SymbolIndex.Arguments.Progress
import SymbolIndex.Command

/-!
# Arguments

The arguments of the command line make a command and two levels of logging:

    [--log LEVEL] [--parser-log LEVEL] check INDEX
    [--log LEVEL] [--parser-log LEVEL] entries INDEX
    [--log LEVEL] [--parser-log LEVEL] resolve --gen-dir DIR REFERENCE...

Both levels may also stand behind the name of the command, and win there.  What
stands behind the name of the command is examined whole before the last option in
front of it.
-/

namespace SymbolIndex

structure Invocation where
  log : Level
  parserLog : Level
  command : Command
  deriving DecidableEq, Repr

namespace Arguments

/-- Reads all arguments behind the name of a command. -/
def readInner (subcommand : Subcommand) (arguments : List String) : Except UsageError Settled := do
  let progress ← arguments.foldlM (Progress.take subcommand.grammar) {}
  return (← progress.settle subcommand.grammar).settled

/-- The command that the settled arguments make. -/
def commandOf (subcommand : Subcommand) (settled : Settled) : Except UsageError Command :=
  match subcommand, settled.operands, settled.directory with
  | .check, index :: _, _ => .ok (.check index)
  | .entries, index :: _, _ => .ok (.entries index)
  | .resolve, reference :: more, some directory => .ok (.resolve directory (reference :: more))
  | _, _, _ => .error .missingArgument

/-- What the name `help` leads to: help on everything or on one command. -/
def helpOn : List String → UsageError
  | [] => .help
  | [name] => if (Head.ofString? name).isSome then .help else .invalidSubcommand
  | _ => .invalidSubcommand

/-- Puts together what stands in front of the name of a command and what stands behind. -/
def invocation (outer inner : Settled) (command : Command) : Invocation where
  log := (inner.log <|> outer.log).getD .warn
  parserLog := (inner.parserLog <|> outer.parserLog).getD .off
  command := command

def readOuter (progress : Progress) : List String → Except UsageError Invocation
  | [] => do
    let progress ← progress.settle .outer
    throw (if progress.settled = {} then .helpOnMissing else .missingSubcommand)
  | argument :: rest =>
    let head := if progress.trailing || progress.awaiting then none
      else Head.ofString? argument
    match head with
    | some .help => .error (helpOn rest)
    | some (.subcommand subcommand) => do
      let inner ← readInner subcommand rest
      let command ← commandOf subcommand inner
      let outer ← progress.settle .outer
      return invocation outer.settled inner command
    | none => do
      let progress ← progress.take .outer argument
      readOuter progress rest

def read (arguments : List String) : Except UsageError Invocation :=
  readOuter {} arguments

end Arguments

end SymbolIndex
