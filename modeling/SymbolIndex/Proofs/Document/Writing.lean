import SymbolIndex.Document
import SymbolIndex.Proofs.Name.Spelling

/-!
# Writing an index document

Here a document is written: a list of lines, each of some depth, with a name for a group or
all that a leaf declares.  How a name is spelled, in quotes or without, is part of a line,
and so is the proof that it can be spelled so.  A leaf line is the symbol, three numbers
and perhaps four names,

    element#property::line::start::end::repository:path:project:folder

and it is kept as its first name and the `Segment`s behind that, since this is how it is
read.

The other half is what such lines say, told without their text.  `ancestors` finds the
names around a line among the lines before it: the last one that is one step less deep,
then what is around that one.  `readDirectly` makes the entry of each leaf from these
names and adds it; the text is needed for the positions of the errors alone.
-/

namespace SymbolIndex

/-! ### Lines -/

/-- A number that a leaf line can hold. -/
abbrev Word := { n : Nat // (n : Int) ≤ Decimal.maxWord }

structure SpelledMember where
  delimiter : String
  known : delimiter ∈ SymbolName.delimiters
  property : SpelledName .property

structure SpelledOrigin where
  repository : SpelledName .origin
  path : SpelledName .origin
  project : SpelledName .origin
  folder : SpelledName .origin

structure SpelledLeaf where
  element : SpelledName .element
  member : Option SpelledMember
  line : Word
  offsetStart : Word
  offsetEnd : Word
  trueOrigin : Option SpelledOrigin

inductive SpelledContent where
  | group (name : SpelledName .group)
  | leaf (leaf : SpelledLeaf)

/-- A line as it is written. -/
structure SpelledLine where
  depth : Nat
  content : SpelledContent

/-! ### What lines say -/

def SpelledOrigin.origin (origin : SpelledOrigin) : Origin where
  repository := origin.repository.name
  path := origin.path.name
  project := origin.project.name
  folder := origin.folder.name

def SpelledLeaf.symbol (leaf : SpelledLeaf) : SymbolName :=
  match leaf.member with
  | none => ⟨leaf.element.name, "", ""⟩
  | some member => ⟨leaf.element.name, member.delimiter, member.property.name⟩

def SpelledContent.content : SpelledContent → LineContent
  | group spelled => .group spelled.name
  | leaf spelled =>
    .leaf spelled.symbol ⟨spelled.line.val, spelled.offsetStart.val, spelled.offsetEnd.val⟩
      (spelled.trueOrigin.map SpelledOrigin.origin)

/-! ### The text of lines -/

/-- A piece of a leaf line behind its first name. -/
inductive Segment where
  | number (value : Word)
  | name (doubled : Bool) (name : SpelledName .origin)

namespace Segment

def separator : Segment → List Char
  | number _ => [':', ':']
  | name doubled _ => if doubled then [':', ':'] else [':']

def text : Segment → List Char
  | number value => Nat.toDigits 10 value.val
  | name _ spelled => spelled.text

def written (segment : Segment) : List Char := segment.separator ++ segment.text

end Segment

def SpelledOrigin.segments (origin : SpelledOrigin) : List Segment :=
  [.name true origin.repository, .name false origin.path, .name false origin.project,
    .name false origin.folder]

def SpelledMember.text (member : SpelledMember) : List Char :=
  member.delimiter.toList ++ member.property.text

namespace SpelledContent

/-- The text of the first name of a line. -/
def head : SpelledContent → List Char
  | group spelled => spelled.text
  | leaf spelled => spelled.element.text ++ spelled.member.elim [] SpelledMember.text

def segments : SpelledContent → List Segment
  | group _ => []
  | leaf spelled => [.number spelled.line, .number spelled.offsetStart, .number spelled.offsetEnd]
      ++ spelled.trueOrigin.elim [] SpelledOrigin.segments

end SpelledContent

namespace SpelledLine

def tabs (line : SpelledLine) : List Char := List.replicate line.depth '\t'

def text (line : SpelledLine) : List Char :=
  line.tabs ++ (line.content.head ++ (line.content.segments.flatMap Segment.written ++ ['\n']))

/-- **Writing a document.** -/
def write (lines : List SpelledLine) : String :=
  .ofList (lines.flatMap text)

end SpelledLine

/-! ### The direct reading -/

/-- The names around a line of the given depth, from the innermost on.  The lines before it come
last first, each as its depth and its name. -/
def ancestors : Nat → List (Nat × String) → List String
  | 0, _ => []
  | _ + 1, [] => []
  | depth + 1, (d, name) :: earlier =>
    if d = depth then name :: ancestors depth earlier else ancestors (depth + 1) earlier

/-- The depth that the next line may have at most. -/
def room : List (Nat × String) → Nat
  | [] => 0
  | (depth, _) :: _ => depth + 1

/-- The entry that a line declares below the lines before it, if it is a leaf. -/
def entryBelow (earlier : List (Nat × String)) (depth : Nat) (content : LineContent) :
    Except Fault (Option Entry) :=
  if room earlier < depth then .error .tooManyTabs
  else match content with
    | .group _ => .ok none
    | .leaf symbol location trueOrigin =>
      match Entry.ofNames (symbol.element :: ancestors depth earlier)
        ⟨symbol.delimiter, symbol.property, location, trueOrigin⟩ with
      | .ok entry => .ok (some entry)
      | .error (.incomplete ..) => .error .incompleteEntry
      | .error error => .error (.malformedEntry error)

/-- The database with an entry, if there is one and it takes it. -/
def Database.insert? (database : Database) : Option Entry → Except Fault Database
  | none => .ok database
  | some entry =>
    match database.insert entry with
    | .ok after => .ok after
    | .error _ => .error .duplicateEntry

/-- **The direct reading of lines** behind earlier ones. -/
def readDirectly (database : Database) (position : Position) (earlier : List (Nat × String)) :
    List SpelledLine → Except ParseError Database
  | [] => .ok database
  | line :: rest =>
    let content := line.content.content
    match entryBelow earlier line.depth content >>= database.insert? with
    | .error fault => .error ⟨position.advanceBy line.tabs, fault⟩
    | .ok after =>
      readDirectly after (position.advanceBy line.text)
        ((line.depth, content.name) :: earlier) rest

end SymbolIndex
