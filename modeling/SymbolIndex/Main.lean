import SymbolIndex.Arguments

/-!
# The program

Reads the arguments and the index document that they name, and writes the report.
Errors go to the standard error stream and to the exit status.
-/

namespace SymbolIndex.Program

def help : String :=
  "Usage: srcindex [--log LEVEL] [--parser-log LEVEL] COMMAND

Commands:
  check INDEX                             Count the entries of an index document
  entries INDEX                           List the entries of an index document
  resolve --gen-dir DIR REFERENCE...      Resolve references against the index in DIR
  help                                    Print this text"

def version : String := "srcindex 0.1.0"

/-- The cause of an error of the operating system.  Its number may come negated. -/
def failureOf : IO.Error → ReadFailure
  | .noFileOrDirectory .. => .notFound
  | .inappropriateType _ code reason =>
    if code = 20 || code = -20 then .notDirectory
    else if code = 21 || code = -21 then .isDirectory
    else .other reason
  | error => .other (toString error)

def readFile (path : String) : IO (Except ReadFailure String) := do
  try
    let bytes ← IO.FS.readBinFile path
    return match String.fromUTF8? bytes with
      | some text => .ok text
      | none => .error .notText
  catch error => return .error (failureOf error)

/-- Does what the arguments ask for. -/
def runWith (invocation : Invocation) : IO UInt32 := do
  let command := invocation.command
  let content ← readFile command.index
  let report := command.run fun path =>
    if path = command.index then content else .error .notFound
  IO.print report.output
  match report.ending with
  | .ok .success => return 0
  | .ok .failure => return 1
  | .error error =>
    IO.eprintln error.message
    return 1

/-- Tells what is wrong with the arguments, or what they ask to be told. -/
def tell (error : UsageError) : IO UInt32 := do
  match error with
  | .help => IO.println help
  | .version => IO.println version
  | .helpOnMissing => IO.eprintln help
  | _ => IO.eprintln s!"error: {error.message}"
  return error.exitCode.toUInt32

end SymbolIndex.Program

def main (arguments : List String) : IO UInt32 :=
  match SymbolIndex.Arguments.read arguments with
  | .ok invocation => SymbolIndex.Program.runWith invocation
  | .error error => SymbolIndex.Program.tell error
