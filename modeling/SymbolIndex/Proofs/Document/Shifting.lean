import SymbolIndex.Proofs.Document.Agreement
import SymbolIndex.Proofs.Lexer.Shifting

/-!
# Where a document begins

Lines of tokens that are shifted agree with the lines as they were, since nothing but positions is
shifted.  So they are read in the same way wherever they are, and what is read is shifted: a line
where it has a position, an outline, which has none, not at all, and errors.

* `read_shifted`: a line is read and shifted.
* `foldlM_read_shifted`: many lines are read.
-/

namespace SymbolIndex

variable {f : Position → Position}

/-! ### Lines of tokens -/

def Line.shifted (f : Position → Position) (line : Line) : Line :=
  { line with position := f line.position }

def TokenLine.shifted (f : Position → Position) (line : TokenLine) : TokenLine where
  tokens := line.tokens.map (Token.shifted f)
  ending := shiftedResult f (Token.shifted f) line.ending

theorem Token.agrees_shifted (f : Position → Position) (token : Token) :
    token.Agrees (fun p q => q = f p) (token.shifted f) :=
  ⟨rfl, rfl, fun _ => rfl, rfl⟩

theorem Line.Agrees.eq_shifted {line other : Line}
    (h : line.Agrees (fun p q => q = f p) other) : other = line.shifted f := by
  obtain ⟨depth, position, content⟩ := other
  obtain ⟨hdepth, hcontent, hposition⟩ := h
  simp only at hdepth hcontent hposition
  rw [hdepth, hcontent, hposition]
  rfl

namespace TokenLine

theorem split_shifted (ending : Except ParseError Token) (tokens : List Token) :
    split (shiftedResult f (Token.shifted f) ending) (tokens.map (Token.shifted f)) =
      (split ending tokens).map (shifted f) := by
  induction tokens with
  | nil => rfl
  | cons token rest ih =>
    rw [List.map_cons, split, split, ih]
    show (if token.kind = .newline then _ else _) = _
    split
    · rfl
    · cases TokenLine.split ending rest <;> rfl

theorem agrees_shifted (f : Position → Position) (line : TokenLine) :
    line.Agrees (fun p q => q = f p) (line.shifted f) := by
  obtain ⟨tokens, ending⟩ := line
  constructor
  · show List.Forall₂ _ tokens (tokens.map (Token.shifted f))
    rw [List.forall₂_map_right_iff, List.forall₂_same]
    exact fun token _ => token.agrees_shifted f
  · cases ending with
    | error error => exact .error error.fault rfl
    | ok token => exact .ok (token.agrees_shifted f)

/-- **A line is read in the same way wherever it is.** -/
theorem read_shifted (line : TokenLine) :
    (line.shifted f).read = shiftedResult f (Option.map (Line.shifted f)) line.read := by
  refine (read_agrees (line.agrees_shifted f)).eq_shiftedResult fun line? other? hline => ?_
  cases hline with
  | none => rfl
  | some hline => exact congrArg some hline.eq_shifted

end TokenLine

/-! ### Documents -/

/-- **Lines are read in the same way wherever they begin.** -/
theorem Outline.foldlM_read_shifted (outline : Outline) (lines : List TokenLine) :
    (lines.map (TokenLine.shifted f)).foldlM read outline =
      shiftedResult f id (lines.foldlM read outline) := by
  refine (foldlM_read_agrees ?_ outline).eq_shiftedResult fun _ _ h => h.symm
  rw [List.forall₂_map_right_iff, List.forall₂_same]
  exact fun line _ => line.agrees_shifted f

end SymbolIndex
