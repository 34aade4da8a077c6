import SymbolIndex.Text.Quoted

/-!
# Symbol names

The last name of a reference or of a leaf line names an element, or a property of
an element: `Map#get`, `Map@of`, with `<` or `>` behind the mark for a getter or a
setter.  The first mark outside quotes splits the name.

* `display_ofQuoted`: the three parts laid end to end are the name as it reads
  unquoted.
-/

namespace SymbolIndex

/-- An element, and perhaps a property of it behind a delimiter. -/
structure SymbolName where
  element : String
  /-- Empty, or `#` or `@`, and then perhaps `<` or `>`. -/
  delimiter : String := ""
  /-- Empty when the delimiter is. -/
  property : String := ""
  deriving DecidableEq, Repr

namespace SymbolName

/-- The marks that begin a delimiter. -/
def isMark (c : Char) : Bool := c = '#' || c = '@'

/-- The marks of a getter and a setter, which end a delimiter. -/
def isAccessor (c : Char) : Bool := c = '<' || c = '>'

/-- The delimiters that a name can have. -/
def delimiters : List String := ["#", "@", "#<", "#>", "@<", "@>"]

/-- Splits the text behind a mark into what the delimiter takes of it and the rest. -/
def takeAccessor : List Char → List Char × List Char
  | [] => ([], [])
  | c :: rest => if isAccessor c then ([c], rest) else ([], c :: rest)

/-- The parts of a name as lists of characters. -/
structure Parts where
  element : List Char
  delimiter : List Char
  property : List Char
  deriving DecidableEq, Repr

/-- Lets one more character lead the element. -/
def Parts.cons (c : Char) (parts : Parts) : Parts :=
  { parts with element := c :: parts.element }

/-- The parts of a name whose element ends here, at the mark. -/
def Parts.ofMark (mark : Char) (rest : List Char) : Parts where
  element := []
  delimiter := mark :: (takeAccessor rest).1
  property := Quoted.decode (takeAccessor rest).2

/-- Splits a quoted text at its first mark outside quotes. -/
def split (quoted : Bool) : List Char → Parts
  | [] => ⟨[], [], []⟩
  | '\\' :: '"' :: rest => (split quoted rest).cons '"'
  | '"' :: rest => split (!quoted) rest
  | c :: rest =>
    if isMark c && !quoted then .ofMark c rest else (split quoted rest).cons c

def ofQuoted (text : String) : SymbolName :=
  let parts := split false text.toList
  ⟨.ofList parts.element, .ofList parts.delimiter, .ofList parts.property⟩

def display (name : SymbolName) : String :=
  name.element ++ name.delimiter ++ name.property

/-! ## The parts are the name -/

/-- An accessor mark reads as itself. -/
theorem decode_takeAccessor (rest : List Char) :
    (takeAccessor rest).1 ++ Quoted.decode (takeAccessor rest).2 = Quoted.decode rest := by
  cases rest with
  | nil => rfl
  | cons c r =>
    by_cases h : isAccessor c
    · have hc : c = '<' ∨ c = '>' := by simpa [isAccessor] using h
      rcases hc with rfl | rfl <;> simp [takeAccessor, isAccessor, Quoted.decode]
    · simp [takeAccessor, h]

/-- The parts laid end to end are the name unquoted. -/
theorem decode_eq_split (quoted : Bool) (text : List Char) :
    (split quoted text).element ++ (split quoted text).delimiter ++ (split quoted text).property
      = Quoted.decode text := by
  fun_induction split quoted text with
  | case1 => rfl
  | case2 quoted rest ih => simpa [Parts.cons, Quoted.decode] using ih
  | case3 quoted rest ih => simpa [Quoted.decode] using ih
  | case4 quoted c rest hesc hquote h =>
    rw [Quoted.decode]
    · simp [Parts.ofMark, decode_takeAccessor]
    · exact hesc
    · exact hquote
  | case5 quoted c rest hesc hquote h ih =>
    rw [Quoted.decode]
    · simpa [Parts.cons] using ih
    · exact hesc
    · exact hquote

theorem display_ofQuoted (text : String) : (ofQuoted text).display = unquote text := by
  rw [display, ofQuoted, unquote, ← decode_eq_split false]
  simp [String.ofList_append, String.append_assoc]

end SymbolName

end SymbolIndex
