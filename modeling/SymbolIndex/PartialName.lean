import SymbolIndex.Lexer.Reading
import SymbolIndex.Entry

/-!
# Partially qualified names

A reference gives as much of a symbol's full name as its author cared to write,
from the right: `DateTimeFormat@withStyle` or `n4/format:DateTimeFormat@withStyle`.
Its segments are kept the most specific first, as a lookup needs them.

Only the last name of a reference is split into element, delimiter and property.
-/

namespace SymbolIndex

structure PartialName where
  /-- The segments, the most specific first. -/
  segments : List String
  deriving DecidableEq, Repr

/-- The parts of a symbol name that are there, the most specific first. -/
def SymbolName.segments (name : SymbolName) : List String :=
  [name.property, name.delimiter, name.element].filter (· ≠ "")

namespace PartialName

/-- The kinds of token that may occur in a reference. -/
def tokenKinds : List TokenKind := [.name, .tab, .newline, .endOfFile]

/-- The name made of the given quoted names, in the order they are written. -/
def ofNames (names : List String) : PartialName :=
  match names.getLast? with
  | none => ⟨[]⟩
  | some last =>
    ⟨(SymbolName.ofQuoted last).segments ++ (names.dropLast.map unquote).reverse⟩

def parse (source : String) : Except ParseError PartialName := do
  let reading := (Lexer.ofString source).readAll
  let tokens ← reading.tokens.mapM (·.expect tokenKinds)
  let _ ← reading.ending
  return ofNames ((tokens.filter (·.kind = .name)).map (·.text))

/-- The full name of an entry. -/
def ofEntry (entry : Entry) : PartialName := ⟨entry.fullName⟩

/-- Shows the segments from the most general on.  There is a colon between two of them, but none
around a delimiter, which glues the next one to itself. -/
def displayFrom (glued : Bool) : List String → String
  | [] => ""
  | segment :: rest =>
    if segment ∈ SymbolName.delimiters then segment ++ displayFrom true rest
    else (if glued then "" else ":") ++ segment ++ displayFrom false rest

def display (name : PartialName) : String :=
  displayFrom true name.segments.reverse

end PartialName

end SymbolIndex
