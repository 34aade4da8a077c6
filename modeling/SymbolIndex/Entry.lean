import SymbolIndex.SymbolName
import SymbolIndex.Path

/-!
# Entries

An entry says that a symbol is documented, and where it is declared: the
repository and a path in it, a project and a source folder in that, a package and
a module, and the element there with perhaps a property of it.  All else that is
asked of an entry follows from these: its hierarchy, which decides whether two
entries name the same symbol, its full name, and the file that documents it.

* `fullName_eq_append`: the full name ends in the repository, and in front of that
  it is the branch of the entry, from the symbol outwards.
* `sameSymbol_iff`: two entries name the same symbol when their hierarchies agree;
  location, extension and true origin play no part.
-/

namespace SymbolIndex

/-- The line of a declaration and the offsets where it starts and ends. -/
structure Location where
  line : Int
  offsetStart : Int
  offsetEnd : Int
  deriving DecidableEq, Repr

/-- The location of a symbol that has none. -/
def Location.absent : Location := ⟨-1, -1, -1⟩

/-- Where a symbol that is indexed in one place comes from in truth. -/
structure Origin where
  repository : String
  path : String
  project : String
  folder : String
  deriving DecidableEq, Repr

structure Entry where
  repository : String
  /-- The path of the projects in the repository, with slashes. -/
  path : String
  project : String
  /-- The source folder in the project, with slashes. -/
  folder : String
  /-- The package of the module, with slashes; it may be empty. -/
  package : String
  moduleName : String
  extension : String
  symbol : SymbolName
  location : Location := .absent
  trueOrigin : Option Origin := none
  deriving DecidableEq, Repr

namespace Entry

/-- The module behind its package. -/
def module (entry : Entry) : String :=
  if entry.package = "" then entry.moduleName else entry.package ++ "/" ++ entry.moduleName

/-- The folder that declares the symbol in truth. -/
def trueFolder (entry : Entry) : String :=
  match entry.trueOrigin with
  | some origin => replaceChar '.' '/' origin.folder
  | none => entry.folder

/-- Is the symbol declared elsewhere than in the entry's folder? -/
def hasTrueFolder (entry : Entry) : Bool :=
  entry.trueFolder ≠ entry.folder

def hasLocation (entry : Entry) : Bool :=
  entry.location.line ≠ Location.absent.line

/-! ## The hierarchy -/

/-- The pieces of a path between its outer slashes. -/
def segments (path : String) : List String :=
  pieces '/' (.ofList (trimBoth (· = '/') path.toList))

/-- The segments that say where the symbol is in its repository, from the most general on. -/
def branch (entry : Entry) : List String :=
  entry.path :: entry.project :: segments entry.folder ++ segments entry.module
    ++ entry.symbol.element :: [entry.symbol.delimiter, entry.symbol.property].filter (· ≠ "")

/-- The segments of the full name, from the most general on. -/
def hierarchy (entry : Entry) : List String :=
  entry.repository :: entry.branch

/-- The segments of the full name, from the most specific on. -/
def fullName (entry : Entry) : List String :=
  entry.hierarchy.reverse

def sameSymbol (a b : Entry) : Bool :=
  a.hierarchy = b.hierarchy

/-- The order of entries is that of their hierarchies, segment by segment. -/
def order (a b : Entry) : Ordering :=
  compare a.hierarchy b.hierarchy

/-- The places of the entries of a list, in the order of the entries; equal ones stay in place. -/
def sortedIndices (entries : List Entry) : List Nat :=
  (entries.zipIdx.mergeSort fun a b => (a.1.order b.1).isLE).map (·.2)

/-- The number of symbols that a list of entries names. -/
def distinctCount (entries : List Entry) : Nat :=
  (entries.map hierarchy).eraseDups.length

theorem fullName_eq_append (entry : Entry) :
    entry.fullName = entry.branch.reverse ++ [entry.repository] := by
  simp [fullName, hierarchy]

theorem sameSymbol_iff {a b : Entry} : a.sameSymbol b = true ↔ a.hierarchy = b.hierarchy := by
  simp [sameSymbol]

/-! ## Texts -/

/-- The full name as a reference. -/
def reference (entry : Entry) : String :=
  s!"{entry.repository}:{entry.path}:{entry.project}:{entry.folder}/{entry.module}:"
    ++ entry.symbol.display

def display (entry : Entry) : String :=
  s!"{entry.repository}:{entry.path}:{entry.project}:{entry.folder}"
    ++ (if entry.hasTrueFolder then s!"(->{entry.trueFolder})" else "")
    ++ s!":{entry.module}:{entry.symbol.display}:{entry.location.line}"

/-- The path of the declaring file in its repository. -/
def url (entry : Entry) : String :=
  s!"{entry.path}/{entry.project}/{entry.folder}/{entry.module}.{entry.extension}"

def documentationExtension : String := ".adoc"

/-- The path of the file that documents the module, in the directory of all such files. -/
def documentationPath (entry : Entry) : String :=
  let parts := [entry.repository ++ "#" ++ replaceChar '/' '.' entry.path,
    entry.project ++ "#" ++ replaceChar '/' '.' entry.folder]
    ++ (if entry.package = "" then [] else [replaceChar '/' '.' entry.package])
    ++ [entry.moduleName ++ documentationExtension]
  parts.foldl Path.push ""

end Entry

end SymbolIndex
