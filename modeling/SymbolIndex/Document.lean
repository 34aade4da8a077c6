import SymbolIndex.Document.Line
import SymbolIndex.Database

/-!
# Index documents

An index document is read line by line.  An outline keeps the names that enclose
the next line, and the entries found so far.  A line at depth `d` stands below the
first `d` of those names, so it may not be deeper than there are names.

The first line that is wrong ends the reading; what is wrong with its form is
noticed before what is wrong with its place.
-/

namespace SymbolIndex

/-- What has been read of a document. -/
structure Outline where
  /-- The names down to the last line, from the outermost on. -/
  names : List String := []
  database : Database := .empty

namespace Outline

/-- Goes to a line with the given name. -/
def enter (outline : Outline) (depth : Nat) (name : String) : Except Fault Outline :=
  if outline.names.length < depth then .error .tooManyTabs
  else .ok { outline with names := outline.names.take depth ++ [name] }

/-- Adds the entry that stands below the names. -/
def declare (outline : Outline) (declaration : Declaration) : Except Fault Outline :=
  match Entry.ofNames outline.names.reverse declaration with
  | .error (.incomplete ..) => .error .incompleteEntry
  | .error error => .error (.malformedEntry error)
  | .ok entry =>
    match outline.database.insert entry with
    | .ok database => .ok { outline with database }
    | .error _ => .error .duplicateEntry

def add (outline : Outline) (line : Line) : Except Fault Outline := do
  let outline ← outline.enter line.depth line.content.name
  match line.content with
  | .group _ => return outline
  | .leaf symbol location trueOrigin =>
    outline.declare ⟨symbol.delimiter, symbol.property, location, trueOrigin⟩

/-- Reads a line and adds it.  What is wrong with its place is told of its name. -/
def read (outline : Outline) (tokens : TokenLine) : Except ParseError Outline := do
  match ← tokens.read with
  | none => return outline
  | some line => (outline.add line).mapError fun fault => ⟨line.position, fault⟩

end Outline

def Database.parse (source : String) : Except ParseError Database := do
  let outline ← (TokenLine.ofDocument source).foldlM Outline.read {}
  return outline.database

end SymbolIndex
