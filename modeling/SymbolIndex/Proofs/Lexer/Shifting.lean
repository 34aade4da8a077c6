import SymbolIndex.Proofs.Lexer.Alike

/-!
# Where a source begins

A source is read in the same way wherever it begins, and only the positions are others.  How they
differ is a map of positions that goes along with every character moved over, a shift.  Everything
that holds a position is shifted by it: `readAll_shifted` says that reading to the end and shifting
can change places.

`Position.behind` is the shift of a text that is put behind another one.
-/

namespace SymbolIndex

/-! ### Shifts of positions -/

namespace Position

/-- A map of positions that goes along with every character moved over. -/
def IsShift (f : Position → Position) : Prop := ∀ p c, f (p.advance c) = (f p).advance c

/-- A position and its image move along with each other. -/
theorem IsShift.goesAlong {f : Position → Position} (hf : IsShift f) :
    GoesAlong fun p q => q = f p := by
  rintro p _ rfl c
  exact (hf p c).symm

/-- The place in a text, when other text is put in front that is empty or ends with a line feed. -/
def behind (front : List Char) (p : Position) : Position :=
  ⟨(String.ofList front).utf8ByteSize + p.offset, .ofNat (front.count '\n') + p.line, p.column⟩

theorem isShift_behind (front : List Char) : IsShift (behind front) := by
  intro p c
  unfold advance behind
  by_cases hc : c = '\n'
  · simp only [if_pos hc, Nat.add_assoc, UInt32.add_assoc]
  · simp only [if_neg hc, Nat.add_assoc]

/-- A text begins behind the text in front of it. -/
theorem behind_start {front : List Char} (h : front = [] ∨ front.getLast? = some '\n') :
    start.behind front = start.advanceBy front := by
  have hcolumn : (start.advanceBy front).column = 1 := by
    rcases h with rfl | hlast
    · rfl
    · obtain ⟨body, rfl⟩ := List.getLast?_eq_some_iff.mp hlast
      exact column_advanceBy_append start body List.not_mem_nil
  have hoffset := offset_advanceBy start front
  have hline := line_advanceBy start front
  rw [behind]
  cases hbehind : start.advanceBy front with
  | mk offset line column =>
    rw [hbehind] at hcolumn hoffset hline
    simp only at hcolumn hoffset hline
    subst hcolumn hoffset hline
    simp [start, UInt32.add_comm]

end Position

variable {f : Position → Position}

def ParseError.shifted (f : Position → Position) (error : ParseError) : ParseError :=
  { error with position := f error.position }

def Token.shifted (f : Position → Position) (token : Token) : Token :=
  { token with position := f token.position }

/-- A result whose error is shifted, and whose value is shifted by `g`. -/
def shiftedResult {α β : Type} (f : Position → Position) (g : α → β) (x : Except ParseError α) :
    Except ParseError β :=
  (x.map g).mapError (ParseError.shifted f)

def Lexer.shifted (f : Position → Position) (lexer : Lexer) : Lexer :=
  { lexer with
    position := f lexer.position
    pushed := lexer.pushed.map (Token.shifted f) }

def Reading.shifted (f : Position → Position) (reading : Reading) : Reading where
  tokens := reading.tokens.map (Token.shifted f)
  ending := shiftedResult f (Token.shifted f) reading.ending
  lexer := reading.lexer.shifted f

/-! ### What is alike at shifted positions -/

/-- Results that agree at shifted positions. -/
theorem ResultsAgree.eq_shiftedResult {α β : Type} {R : α → β → Prop} {g : α → β}
    {x : Except ParseError α} {y : Except ParseError β}
    (h : ResultsAgree (fun p q => q = f p) R x y) (hg : ∀ a b, R a b → b = g a) :
    y = shiftedResult f g x := by
  cases h with
  | error fault hposition =>
    rw [hposition]
    rfl
  | ok hvalue =>
    rw [hg _ _ hvalue]
    rfl

theorem Token.Alike.eq_shifted {token other : Token}
    (h : token.Alike (fun p q => q = f p) other) : other = token.shifted f := by
  obtain ⟨kind, text, position⟩ := other
  obtain ⟨rfl, rfl, rfl⟩ := h
  rfl

theorem Lexer.Alike.eq_shifted {lexer other : Lexer}
    (h : lexer.Alike (fun p q => q = f p) other) : other = lexer.shifted f := by
  obtain ⟨rest, position, stops, pushed⟩ := other
  obtain ⟨hrest, hstops, hposition, hpushed⟩ := h
  simp only at hrest hstops hposition hpushed
  have hpushed : pushed = lexer.pushed.map (Token.shifted f) := by
    generalize lexer.pushed = before at hpushed
    cases hpushed with
    | none => rfl
    | some htoken => exact congrArg some htoken.eq_shifted
  rw [hrest, hstops, hposition, hpushed]
  rfl

theorem Reading.Alike.eq_shifted {reading other : Reading}
    (h : reading.Alike (fun p q => q = f p) other) : other = reading.shifted f := by
  have htokens : reading.tokens.map (Token.shifted f) = other.tokens := by
    rw [← List.forall₂_eq_eq_eq, List.forall₂_map_left_iff]
    exact h.tokens.imp fun _ _ htoken => htoken.eq_shifted.symm
  obtain ⟨tokens, ending, lexer⟩ := other
  obtain ⟨_, hending, hlexer⟩ := h
  simp only at hending hlexer htokens
  rw [← htokens, hending.eq_shiftedResult fun _ _ => Token.Alike.eq_shifted, hlexer.eq_shifted]
  rfl

theorem Lexer.alike_shifted (f : Position → Position) (lexer : Lexer) :
    lexer.Alike (fun p q => q = f p) (lexer.shifted f) where
  rest_eq := rfl
  stops_eq := rfl
  position := rfl
  pushed := by
    show Option.Rel _ lexer.pushed (lexer.pushed.map (Token.shifted f))
    cases lexer.pushed with
    | none => exact .none
    | some token => exact .some ⟨rfl, rfl, rfl⟩

namespace Lexer

variable (lexer : Lexer)

theorem skipComment_shifted (hf : Position.IsShift f) :
    (lexer.shifted f).skipComment = lexer.skipComment.shifted f :=
  ((lexer.alike_shifted f).skipComment hf.goesAlong).eq_shifted

/-- **Reading to the end and a shift can change places.** -/
theorem readAll_shifted (hf : Position.IsShift f) :
    (lexer.shifted f).readAll = lexer.readAll.shifted f :=
  ((lexer.alike_shifted f).readAll hf.goesAlong).eq_shifted

end Lexer

end SymbolIndex
