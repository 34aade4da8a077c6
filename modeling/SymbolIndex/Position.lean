/-!
# Positions in a text

A position is kept three ways at once: the offset in UTF-8 bytes from the start,
the line and the column.  Lines and columns count from one, columns count
characters, and a line feed starts a line.  Both are counters of 32 bits, which
wrap around.

Moving over a text moves all three, and each of them tells the text moved over, as
far as its counter reaches:

* `offset_advanceBy`: the offset grows by the length of the text in UTF-8;
* `line_advanceBy`: the line grows by the number of line feeds;
* `column_advanceBy`, `column_advanceBy_append`: the column counts the characters
  behind the last line feed.
-/

namespace SymbolIndex

/-- A place between two characters of a text. -/
structure Position where
  /-- The number of UTF-8 bytes before the place. -/
  offset : Nat
  /-- The line, from one. -/
  line : UInt32
  /-- The column, from one, in characters. -/
  column : UInt32
  deriving DecidableEq, Repr

namespace Position

def start : Position := ⟨0, 1, 1⟩

/-- The place behind the character `c` that stands at `p`. -/
def advance (p : Position) (c : Char) : Position :=
  if c = '\n' then ⟨p.offset + c.utf8Size, p.line + 1, 1⟩
  else ⟨p.offset + c.utf8Size, p.line, p.column + 1⟩

/-- The place behind the text that starts at `p`. -/
def advanceBy (p : Position) (text : List Char) : Position :=
  text.foldl advance p

def display (p : Position) : String :=
  s!"{p.line}:{p.column}"

/-! ## Moving over a text -/

@[simp] theorem advanceBy_nil (p : Position) : p.advanceBy [] = p := rfl

@[simp] theorem advanceBy_cons (p : Position) (c : Char) (text : List Char) :
    p.advanceBy (c :: text) = (p.advance c).advanceBy text := rfl

@[simp] theorem advanceBy_append (p : Position) (s t : List Char) :
    p.advanceBy (s ++ t) = (p.advanceBy s).advanceBy t :=
  List.foldl_append

@[simp] theorem offset_advance (p : Position) (c : Char) :
    (p.advance c).offset = p.offset + c.utf8Size := by
  unfold advance
  split <;> rfl

/-- Offsets are true. -/
theorem offset_advanceBy (p : Position) (text : List Char) :
    (p.advanceBy text).offset = p.offset + (String.ofList text).utf8ByteSize := by
  induction text generalizing p with
  | nil => simp
  | cons c r ih => simp [ih, String.ofList_cons, Nat.add_assoc]

/-- The line counts line feeds. -/
theorem line_advanceBy (p : Position) (text : List Char) :
    (p.advanceBy text).line = p.line + .ofNat (text.count '\n') := by
  induction text generalizing p with
  | nil => simp
  | cons c r ih =>
    rw [advanceBy_cons, ih]
    by_cases h : c = '\n'
    · simp [advance, h, UInt32.ofNat_add, UInt32.add_assoc, UInt32.add_comm 1]
    · simp [advance, h]

theorem line_advanceBy_start (text : List Char) :
    (start.advanceBy text).line = .ofNat (text.count '\n' + 1) := by
  rw [line_advanceBy, UInt32.ofNat_add]
  exact UInt32.add_comm _ _

/-- The column counts characters on the line where the text begins. -/
theorem column_advanceBy (p : Position) {text : List Char} (h : '\n' ∉ text) :
    (p.advanceBy text).column = p.column + .ofNat text.length := by
  induction text generalizing p with
  | nil => simp
  | cons c r ih =>
    obtain ⟨hc, hr⟩ : c ≠ '\n' ∧ '\n' ∉ r := by simpa [eq_comm] using h
    rw [advanceBy_cons, ih _ hr]
    simp [advance, hc, UInt32.ofNat_add, UInt32.add_assoc, UInt32.add_comm 1]

/-- The column counts from one on every later line. -/
theorem column_advanceBy_append (p : Position) (front : List Char) {back : List Char}
    (h : '\n' ∉ back) : (p.advanceBy (front ++ '\n' :: back)).column = 1 + .ofNat back.length := by
  rw [advanceBy_append, advanceBy_cons, column_advanceBy _ h]
  simp [advance]

end Position

end SymbolIndex
