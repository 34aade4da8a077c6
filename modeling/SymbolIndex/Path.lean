import SymbolIndex.Text.Pieces

/-!
# Paths

A path is a text of pieces between slashes.  Joining keeps the text of both parts
as it is, so repeated slashes stay; two texts name the same path when they agree
in all that matters, see `Path.components`.

* `push_of_isAbsolute`: a part that begins with a slash replaces what is in front
  of it.
* `same_iff`: sameness is agreement in all components, so it is an equivalence.
-/

namespace SymbolIndex.Path

def isAbsolute (path : String) : Bool :=
  path.toList.head? = some '/'

/-- Joins a further part to a path, with one slash between them unless the path is empty or ends
with one. -/
def push (base part : String) : String :=
  if isAbsolute part then part
  else if base = "" ∨ base.toList.getLast? = some '/' then base ++ part
  else base ++ "/" ++ part

/-- What matters of a path: whether it begins at the root, and its pieces; empty ones and `.` are
nothing, unless a `.` leads the path. -/
def components (path : String) : List String :=
  let names := fun (piece : String) => piece ≠ "" && piece ≠ "."
  if isAbsolute path then "/" :: (pieces '/' path).filter names
  else match pieces '/' path with
    | "." :: rest => "." :: rest.filter names
    | all => all.filter names

def same (a b : String) : Bool :=
  components a = components b

theorem push_of_isAbsolute {base part : String} (h : isAbsolute part = true) :
    push base part = part := by
  simp [push, h]

theorem same_iff {a b : String} : same a b = true ↔ components a = components b := by
  simp [same]

end SymbolIndex.Path
