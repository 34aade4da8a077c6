import SymbolIndex.Entry.Names
import SymbolIndex.Text.Decimal

/-!
# The canonical text of an entry

In one line, its fields between colons:

    repository:path:project:folder:package/module.extension:element[#property]
      [:line:start:end[:repository:path:project:folder]]

Here paths, folders and packages are written with slashes already.  A location
comes whole or not at all, and so does a true origin behind it; fields behind
that are ignored.
-/

namespace SymbolIndex.Entry

def readNumber (field : String) : Except EntryError Int :=
  match Decimal.word? (trimBoth isBlank field.toList) with
  | some n => .ok n
  | none => .error (.invalidNumber field)

/-- The package and the name of a module, around the last slash. -/
def cutModule (module : String) : String × String :=
  match cutLast '/' module.toList with
  | some (package, name) => (.ofList package, .ofList name)
  | none => ("", module)

/-- Reads the fields behind the symbol: a location and a true origin. -/
def readPlace (canonical : String) :
    List String → Except EntryError (Location × Option Origin)
  | [] => .ok (.absent, none)
  | line :: start :: stop :: origin => do
    let location : Location :=
      ⟨← readNumber line, ← readNumber start, ← readNumber stop⟩
    match origin with
    | [] => return (location, none)
    | repository :: path :: project :: folder :: _ =>
      return (location, some { repository, path, project, folder })
    | _ => throw (.partialTrueOrigin canonical)
  | _ => .error (.partialLocation canonical)

def ofCanonical (canonical : String) : Except EntryError Entry :=
  match pieces ':' canonical with
  | repository :: path :: project :: folder :: moduleFile :: symbol :: place => do
    let (module, extension) ← cutName '.' moduleFile
    let (package, moduleName) := cutModule module
    let (location, trueOrigin) ← readPlace canonical place
    return {
      repository, path, project, folder, package, moduleName, extension
      symbol := .ofQuoted symbol
      location, trueOrigin }
  | fields => .error (.tooFewFields canonical fields.length)

end SymbolIndex.Entry
