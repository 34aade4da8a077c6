import SymbolIndex.Lexer.Reading
import SymbolIndex.Entry.Names
import SymbolIndex.Text.Decimal

/-!
# Lines of an index document

A line is indented by tabs; their number is its depth.  A line with a name alone
groups the lines below it.  A leaf line goes on with three numbers, and perhaps
with the four names of a true origin:

    element#property::line::start::end::repository::path::project::folder

The tokens of a document are parted at its newlines first, and each line is read
from its own tokens, so nothing that is wrong in a line reaches into another.
-/

namespace SymbolIndex

/-- What a line says of its name. -/
inductive LineContent where
  /-- The name encloses the lines below. -/
  | group (name : String)
  /-- The name is a symbol, declared at the given location. -/
  | leaf (symbol : SymbolName) (location : Location) (trueOrigin : Option Origin)
  deriving DecidableEq, Repr

/-- A line that is not blank. -/
structure Line where
  depth : Nat
  /-- Where its name begins. -/
  position : Position
  content : LineContent
  deriving DecidableEq, Repr

/-- The name that a line adds to the names around it. -/
def LineContent.name : LineContent → String
  | group name => name
  | leaf symbol _ _ => symbol.element

structure TokenLine where
  /-- The tokens in front of the one that ends the line. -/
  tokens : List Token
  /-- The newline or the end of file that ends the line, or an error in it. -/
  ending : Except ParseError Token
  deriving Repr

namespace TokenLine

/-- Parts tokens at the newlines among them.  The last line ends as the tokens end. -/
def split (ending : Except ParseError Token) : List Token → List TokenLine
  | [] => [⟨[], ending⟩]
  | token :: rest =>
    if token.kind = .newline then ⟨[], .ok token⟩ :: split ending rest
    else (split ending rest).modifyHead fun line => { line with tokens := token :: line.tokens }

def ofDocument (source : String) : List TokenLine :=
  let reading := (Lexer.ofString source).skipLeadingComment.readAll
  split reading.ending reading.tokens

/-- Reads from the tokens that are left of a line. -/
abbrev Reader := StateT TokenLine (Except ParseError)

/-- Takes a token; the one that ends the line stays. -/
def take : Reader Token := fun line =>
  match line.tokens with
  | token :: rest => .ok (token, { line with tokens := rest })
  | [] => line.ending.map (·, line)

def takeOf (kinds : List TokenKind) : Reader Token := do
  (← take).expect kinds

def takeTabs : Reader Nat := fun line =>
  let isTab := fun (token : Token) => token.kind = .tab
  .ok ((line.tokens.takeWhile isTab).length, { line with tokens := line.tokens.dropWhile isTab })

/-- The value of a number, which carriage returns may follow. -/
def numberValue (token : Token) : Except ParseError Int :=
  let digits := dropEnd (· = '\r') token.text.toList
  if digits.all Char.isDigit then
    match Decimal.word? digits with
    | some n => .ok n
    | none => .error ⟨token.position, .numberOutOfRange⟩
  else .error ⟨token.position, .numberExpected⟩

def takeNumber : Reader Int := do
  numberValue (← takeOf [.number])

def takeName : Reader String := do
  return unquote (← takeOf [.name]).text

/-- Takes what follows the numbers of a leaf line: nothing, or the names of a true origin. -/
def takeOrigin : Reader (Option Origin) := do
  let token ← takeOf [.name, .newline, .endOfFile]
  if token.kind = .name then
    let repository := unquote token.text
    let path ← takeName
    let project ← takeName
    let folder ← takeName
    let _ ← takeOf [.newline, .endOfFile]
    return some { repository, path, project, folder }
  else return none

def takeContent (name : Token) : Reader LineContent := do
  let token ← takeOf [.number, .newline]
  if token.kind = .newline then return .group (unquote name.text)
  else
    let line ← numberValue token
    let offsetStart ← takeNumber
    let offsetEnd ← takeNumber
    let trueOrigin ← takeOrigin
    return .leaf (.ofQuoted name.text) { line, offsetStart, offsetEnd } trueOrigin

/-- Takes a whole line; a line of tabs alone is blank. -/
def takeLine : Reader (Option Line) := do
  let depth ← takeTabs
  let token ← take
  if token.kind = .name then
    return some { depth, position := token.position, content := ← takeContent token }
  else if token.kind = .newline then return none
  else
    let _ ← token.expect [.endOfFile]
    return none

def read (line : TokenLine) : Except ParseError (Option Line) :=
  takeLine.run' line

end TokenLine

end SymbolIndex
