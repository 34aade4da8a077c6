import SymbolIndex.Token

/-!
# The lexer

A lexer stands at a place in its source and takes tokens off it one by one.  A
name or a number stands behind a separator, `/` or `:` with perhaps one more `:`;
the first name needs none.  A name runs up to a separator or the end of the line,
and double quotes let it run over both.  A `#` right behind a line feed begins a
comment.  Extra stop characters, outside of quotes, end the input early.

A lexer that met an error stands behind it and goes on from there.

* `takeName_append`: the text of a name and what is left are the source.
-/

namespace SymbolIndex

/-- A place in a source text, with at most one token put back in front of it. -/
structure Lexer where
  /-- The source from here on. -/
  rest : List Char
  position : Position := .start
  /-- The extra characters that end the input. -/
  stops : List Char := []
  pushed : Option Token := none
  deriving DecidableEq, Repr

/-- An open run of double quotes inside a name. -/
structure QuotedRun where
  /-- Where the opening quote stands. -/
  opened : Position
  /-- The character before is a backslash of the run, which keeps a quote from closing it. -/
  escape : Bool
  deriving DecidableEq, Repr

/-- The run of quotes that is open behind the character `c` of an open run. -/
def QuotedRun.after (run : QuotedRun) (c : Char) : Option QuotedRun :=
  if c = '"' && !run.escape then none else some { run with escape := c = '\\' }

namespace Lexer

def ofString (source : String) : Lexer :=
  { rest := source.toList }

/-- A lexer that ends its input at any of the characters of `stops`. -/
def ofStringWithStops (source stops : String) : Lexer :=
  { rest := source.toList, stops := stops.toList }

def remainder (lexer : Lexer) : String :=
  .ofList lexer.rest

def atEnd (lexer : Lexer) : Bool :=
  lexer.rest.isEmpty

/-- Puts a token back: the next call gives it again. -/
def push (lexer : Lexer) (token : Token) : Lexer :=
  { lexer with pushed := some token }

/-! ## Moving -/

/-- Moves over the characters at the front that satisfy `p`. -/
def skipWhile (lexer : Lexer) (p : Char → Bool) : Lexer :=
  { lexer with
    rest := lexer.rest.dropWhile p
    position := lexer.position.advanceBy (lexer.rest.takeWhile p) }

def skipOne (lexer : Lexer) : Lexer :=
  { lexer with
    rest := lexer.rest.tail
    position := lexer.position.advanceBy (lexer.rest.take 1) }

def skipAll (lexer : Lexer) : Lexer :=
  { lexer with rest := [], position := lexer.position.advanceBy lexer.rest }

/-- Moves over a comment, up to the line feed that ends it. -/
def skipComment (lexer : Lexer) : Lexer :=
  if lexer.rest.head? = some '#' then lexer.skipWhile (· ≠ '\n') else lexer

/-- Moves over a comment at the very start of the source. -/
def skipLeadingComment (lexer : Lexer) : Lexer :=
  if lexer.position.offset = 0 then lexer.skipComment else lexer

/-- Characters that part tokens and are no part of one. -/
def isGap (c : Char) : Bool := c = ' ' || c = '\r'

/-- The characters that stand in front of a name or a number. -/
def isSeparator (c : Char) : Bool := c = '/' || c = ':'

/-- Moves over a separator and a colon directly behind it. -/
def skipSeparator (lexer : Lexer) : Lexer :=
  let behind := lexer.skipOne
  if behind.rest.head? = some ':' then behind.skipOne else behind

/-! ## Names and numbers -/

/-- The characters that end a name outside of quotes, quotes apart. -/
def endsName (stops : List Char) (c : Char) : Bool :=
  isSeparator c || c = '\n' || c = '\r' || c ∈ stops

/-- What a name takes off the front of its source, and the rest; or where the run of quotes opens
that does not end. -/
abbrev NameCut := Except Position (List Char × List Char)

/-- Lets one more character lead the text of a name. -/
def NameCut.cons (c : Char) (cut : NameCut) : NameCut :=
  cut.map fun (text, rest) => (c :: text, rest)

/-- Takes a name off the front of its source, whose first character stands at `position`, inside
the given run of quotes if there is one. -/
def takeName (stops : List Char) : Option QuotedRun → Position → List Char → NameCut
  | none, _, [] => .ok ([], [])
  | some run, _, [] => .error run.opened
  | none, position, c :: rest =>
    if c = '"' then
      (takeName stops (some ⟨position, false⟩) (position.advance c) rest).cons c
    else if endsName stops c then .ok ([], c :: rest)
    else (takeName stops none (position.advance c) rest).cons c
  | some run, position, c :: rest =>
    (takeName stops (run.after c) (position.advance c) rest).cons c

theorem NameCut.cons_eq_ok {c : Char} {cut : NameCut} {text rest : List Char}
    (h : cut.cons c = .ok (text, rest)) : ∃ tail, cut = .ok (tail, rest) ∧ text = c :: tail := by
  cases cut with
  | error => cases h
  | ok v =>
    obtain ⟨tail, r⟩ := v
    cases h
    exact ⟨tail, rfl, rfl⟩

/-- The text of a name and what is left are the source. -/
theorem takeName_append {stops : List Char} {run : Option QuotedRun} {position : Position}
    {source text rest : List Char} (h : takeName stops run position source = .ok (text, rest)) :
    text ++ rest = source := by
  fun_induction takeName stops run position source generalizing text with
  | case1 => simp_all
  | case2 => cases h
  | case3 position r ih =>
    obtain ⟨tail, ht, rfl⟩ := NameCut.cons_eq_ok h
    simp [ih ht]
  | case4 => simp_all
  | case5 position c r hc he ih =>
    obtain ⟨tail, ht, rfl⟩ := NameCut.cons_eq_ok h
    simp [ih ht]
  | case6 run position c r ih =>
    obtain ⟨tail, ht, rfl⟩ := NameCut.cons_eq_ok h
    simp [ih ht]

/-- A name that begins with neither a separator nor a stop character is not empty. -/
theorem takeName_ne_nil {stops : List Char} {position : Position} {c : Char}
    {source text rest : List Char} (hc : c = '"' ∨ endsName stops c = false)
    (h : takeName stops none position (c :: source) = .ok (text, rest)) : text ≠ [] := by
  rw [takeName] at h
  split at h
  · obtain ⟨tail, _, rfl⟩ := NameCut.cons_eq_ok h
    exact List.cons_ne_nil _ _
  · rename_i hq
    rw [if_neg (by simp [hc.resolve_left hq])] at h
    obtain ⟨tail, _, rfl⟩ := NameCut.cons_eq_ok h
    exact List.cons_ne_nil _ _

def readName (lexer : Lexer) : Except ParseError Token × Lexer :=
  match takeName lexer.stops none lexer.position lexer.rest with
  | .ok (text, rest) =>
    (.ok ⟨.name, .ofList text, lexer.position⟩,
      { lexer with rest, position := lexer.position.advanceBy text })
  | .error opened => (.error ⟨opened, .unterminatedName⟩, lexer.skipAll)

/-- The characters that a number runs over. -/
def inNumber (c : Char) : Bool := c ≠ ':' && c ≠ '\n'

/-- Reads a number that begins here.  It runs to the next colon or the end of the line and may
hold digits and carriage returns. -/
def readNumber (lexer : Lexer) : Except ParseError Token × Lexer :=
  let text := lexer.rest.takeWhile inNumber
  let behind := lexer.skipWhile inNumber
  if text.all fun c => c.isDigit || c = '\r' then
    (.ok ⟨.number, .ofList text, lexer.position⟩, behind)
  else (.error ⟨behind.position, .numberExpected⟩, behind)

/-- Reads what stands behind a separator: a number if it begins with a digit, else a name. -/
def readSegment (lexer : Lexer) : Except ParseError Token × Lexer :=
  if lexer.rest.head?.any Char.isDigit then lexer.readNumber else lexer.readName

/-! ## Tokens -/

def endOfFile (lexer : Lexer) : Token := ⟨.endOfFile, "", lexer.position⟩

/-- Reads a token that begins here, behind gaps. -/
def read (lexer : Lexer) : Except ParseError Token × Lexer :=
  match lexer.rest with
  | [] => (.ok lexer.endOfFile, lexer)
  | c :: _ =>
    if c = '\t' then (.ok ⟨.tab, "\t", lexer.position⟩, lexer.skipOne)
    else if c = '\n' then (.ok ⟨.newline, "\n", lexer.position⟩, lexer.skipOne.skipComment)
    else if isSeparator c then lexer.skipSeparator.readSegment
    else if c ∈ lexer.stops then (.ok lexer.endOfFile, lexer)
    else lexer.readName

/-- The next token or the error found instead, and the lexer behind it. -/
def next (lexer : Lexer) : Except ParseError Token × Lexer :=
  match lexer.pushed with
  | some token => (.ok token, { lexer with pushed := none })
  | none => (lexer.skipWhile isGap).read

end Lexer

end SymbolIndex
