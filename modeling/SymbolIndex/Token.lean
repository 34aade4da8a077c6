import SymbolIndex.Position
import SymbolIndex.Entry.Error

/-!
# Tokens and parse errors

Index documents and references share five kinds of token.  A parse error is a
position and a fault; the words of a fault are in `Fault.message`.
-/

namespace SymbolIndex

inductive TokenKind where
  | name
  | number
  | tab
  | newline
  | endOfFile
  deriving DecidableEq, Repr

def TokenKind.display : TokenKind → String
  | name => "name"
  | number => "number"
  | tab => "tab"
  | newline => "newline"
  | endOfFile => "end of file"

/-- What can be wrong in an index document or a reference. -/
inductive Fault where
  /-- A token is of none of the expected kinds. -/
  | unexpected (expected : List TokenKind) (found : TokenKind)
  /-- A digit stands behind a separator, but what follows is no number. -/
  | numberExpected
  /-- A number does not fit in 31 bits. -/
  | numberOutOfRange
  /-- The text ends inside double quotes. -/
  | unterminatedName
  /-- A line is indented deeper than the names above it allow. -/
  | tooManyTabs
  /-- Too few names enclose a leaf line. -/
  | incompleteEntry
  /-- The names that enclose a leaf line make no entry. -/
  | malformedEntry (error : EntryError)
  /-- The database rejects the entry of a leaf line. -/
  | duplicateEntry
  deriving DecidableEq, Repr

def Fault.message : Fault → String
  | unexpected expected found =>
    "Expected " ++ " or ".intercalate (expected.map TokenKind.display)
      ++ ", found " ++ found.display
  | numberExpected => "Number expected"
  | numberOutOfRange => "Number out of range"
  | unterminatedName => "Unterminated quoted name"
  | tooManyTabs => "Too many tabs"
  | incompleteEntry => "Incomplete index entry"
  | malformedEntry error => "Malformed index entry: " ++ error.message
  | duplicateEntry => "Index contains duplicates"

/-- A fault and where it was noticed. -/
structure ParseError where
  position : Position
  fault : Fault
  deriving DecidableEq, Repr

def ParseError.message (error : ParseError) : String :=
  error.position.display ++ ": " ++ error.fault.message

/-- A token: its kind, the stretch of the source that it covers, and where that begins. -/
structure Token where
  kind : TokenKind
  text : String
  position : Position
  deriving DecidableEq, Repr

namespace Token

/-- Refuses a token that is of none of the given kinds. -/
def expect (token : Token) (kinds : List TokenKind) : Except ParseError Token :=
  if token.kind ∈ kinds then .ok token
  else .error ⟨token.position, .unexpected kinds token.kind⟩

theorem expect_eq_ok_iff {token t : Token} {kinds : List TokenKind} :
    token.expect kinds = .ok t ↔ t = token ∧ token.kind ∈ kinds := by
  unfold expect
  split <;> simp_all [eq_comm]

end Token

end SymbolIndex
