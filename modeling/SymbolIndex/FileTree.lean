import SymbolIndex.IndexFile
import SymbolIndex.Text.Pieces

/-!
# Trees of files in memory

A tree of files below a working directory.  Reading from it goes the way that an
operating system goes: piece by piece through directories, where empty pieces and
`.` stay and `..` goes back.  Around the working directory there is nothing to
read.
-/

namespace SymbolIndex

/-- What can stand at a path. -/
inductive FileNode where
  | file (bytes : ByteArray)
  | directory

/-- What stands where, by the names on the way from the working directory. -/
structure FileTree where
  nodes : List (List String × FileNode) := []

namespace FileTree

def get? (tree : FileTree) (place : List String) : Option FileNode :=
  tree.nodes.lookup place

/-- The names in a path that is written plainly. -/
def names (path : String) : List String :=
  (pieces '/' path).filter fun piece => piece ≠ "" && piece ≠ "."

/-- The directories around a place, from the outermost on. -/
def parents (place : List String) : List (List String) :=
  (List.range place.length).map place.take

/-- Puts a node at a path, and directories around it. -/
def put (tree : FileTree) (path : String) (node : FileNode) : FileTree :=
  let place := names path
  let around := (parents place).filter fun parent => (tree.get? parent).isNone
  ⟨(place, node) :: around.map (·, .directory) ++ tree.nodes.filter (·.1 ≠ place)⟩

def remove (tree : FileTree) (path : String) : FileTree :=
  ⟨tree.nodes.filter (·.1 ≠ names path)⟩

/-- The directory around a place; `none` is anywhere outside of the tree. -/
def up : Option (List String) → Option (List String)
  | some (name :: place) => some (name :: place).dropLast
  | _ => none

/-- Follows the pieces of a path from a directory. -/
def follow (tree : FileTree) (place : Option (List String)) :
    List String → Except ReadFailure FileNode
  | [] => .ok .directory
  | piece :: rest =>
    if piece = "" || piece = "." then follow tree place rest
    else if piece = ".." then follow tree (up place) rest
    else
      match place.bind fun place => (tree.get? (place ++ [piece])).map (place ++ [piece], ·) with
      | none => .error .notFound
      | some (place, .directory) => follow tree (some place) rest
      | some (_, .file bytes) => if rest = [] then .ok (.file bytes) else .error .notDirectory

def read (tree : FileTree) : FileReader := fun path => do
  if path = "" then throw .notFound
  let node ← tree.follow (if Path.isAbsolute path then none else some []) (pieces '/' path)
  match node with
  | .directory => throw .isDirectory
  | .file bytes =>
    match String.fromUTF8? bytes with
    | some text => return text
    | none => throw .notText

end FileTree

end SymbolIndex
