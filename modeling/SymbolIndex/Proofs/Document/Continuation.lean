import SymbolIndex.Proofs.Document.Ending
import SymbolIndex.Proofs.Document.Shifting
import SymbolIndex.Proofs.Lexer.Lines

/-!
# Documents that go on

A document that is empty or ends with a line feed goes on with another one.  If the lexer gets
through the first, then the lines of the second are the lines behind those of the first, and only
their positions are others: a `#` at its start begins a comment in both places, at the start of a
source and behind a line feed.  If the lexer stops at an error that is no open run, then the second
document is not looked at.

* `ofDocument_append_of_ok`, `ofDocument_append_of_error`: the lines of both documents.
-/

namespace SymbolIndex.TokenLine

/-- The tokens of a document behind another one are its own tokens, shifted. -/
theorem split_readAll_behind {front : List Char} (h : front = [] ∨ front.getLast? = some '\n')
    (back : String) :
    let lexer : Lexer := { rest := back.toList, position := Position.start.advanceBy front }
    split lexer.skipComment.readAll.ending lexer.skipComment.readAll.tokens =
      (ofDocument back).map (shifted (Position.behind front)) := by
  have hshift := Position.isShift_behind front
  intro lexer
  have hlexer : lexer = (Lexer.ofString back).shifted (Position.behind front) := by
    show ({ rest := back.toList, position := _ } : Lexer) = _
    rw [← Position.behind_start h]
    rfl
  have hread : lexer.skipComment.readAll =
      (readDocument back).shifted (Position.behind front) := by
    rw [hlexer, Lexer.skipComment_shifted _ hshift, Lexer.readAll_shifted _ hshift, readDocument]
  rw [hread]
  exact split_shifted _ _

/-- Read to its end, a document leaves the lexer behind it. -/
theorem lexer_readDocument {source : String} (h : (readDocument source).lexer.rest = []) :
    (readDocument source).lexer =
      { rest := [], position := Position.start.advanceBy source.toList } := by
  have hmoves : Lexer.MovesTo (Lexer.ofString source) (readDocument source).lexer :=
    (Lexer.ofString source).movesTo_skipComment.trans (Lexer.movesTo_readAll _)
  have hpushed : (readDocument source).lexer.pushed = none :=
    Lexer.pushed_readAll (Lexer.ofString source).pushed_skipComment
  have hposition := hmoves.position_eq h
  have hstops := hmoves.stops_eq
  cases hlexer : (readDocument source).lexer with
  | mk rest position stops pushed =>
    rw [hlexer] at h hpushed hposition hstops
    simp only at h hpushed hposition hstops
    subst h hpushed hposition hstops
    rfl

theorem readDocument_empty : readDocument "" =
    ⟨[], .ok (Lexer.ofString "").endOfFile, Lexer.ofString ""⟩ :=
  Lexer.readAll_of_rest_eq_nil rfl rfl

/-- The text of a document that goes on is read from where its own is. -/
theorem readDocument_append {front : String} (h : front.toList.getLast? = some '\n')
    (back : String) :
    (Lexer.ofString front).skipComment.EndsLine ∧
      readDocument (front ++ back) =
        ((Lexer.ofString front).skipComment.followedBy back.toList).readAll := by
  have hfront : (Lexer.ofString front).EndsLine := h
  obtain ⟨hends, hmore⟩ := hfront.skipComment back.toList
  refine ⟨hends, ?_⟩
  rw [← hmore, readDocument, Lexer.ofString, String.toList_append]
  rfl

/-- **The lines of a document behind one that is read to its end.** -/
theorem ofDocument_append_of_ok {front : String}
    (h : front = "" ∨ front.toList.getLast? = some '\n') {last : Token}
    (hlast : (readDocument front).ending = .ok last) :
    ∃ lines, ofDocument front = lines ++ [⟨[], .ok last⟩] ∧ ∀ back, ofDocument (front ++ back) =
      lines ++ (ofDocument back).map (shifted (Position.behind front.toList)) := by
  rcases h with rfl | h
  · refine ⟨[], ?_, fun back => ?_⟩
    · rw [ofDocument_eq, hlast, readDocument_empty]
      rfl
    · rw [String.empty_append]
      exact split_readAll_behind (.inl rfl) back
  · have hpushed := (Lexer.ofString front).pushed_skipComment
    have hstops := (Lexer.ofString front).movesTo_skipComment.stops_eq
    obtain ⟨hends, _⟩ := readDocument_append h ""
    obtain ⟨tokens, newline, hnewline, htokens, hrest, _⟩ :=
      hends.readAll [] hpushed hstops hlast
    obtain ⟨line, lines, hsplit⟩ := exists_split_append hnewline tokens
    have hbehind := lexer_readDocument hrest
    rw [readDocument] at hbehind
    refine ⟨line :: lines, ?_, fun back => ?_⟩
    · rw [ofDocument_eq, hlast, readDocument, htokens, hsplit]
      rfl
    · obtain ⟨_, _, _, _, _, hending, hall⟩ := hends.readAll back.toList hpushed hstops hlast
      rw [hbehind] at hending hall
      rw [ofDocument_eq, (readDocument_append h back).2, hending, hall, htokens, List.append_assoc]
      show split _ (tokens ++ newline :: _) = _
      rw [hsplit, ← split_readAll_behind (.inr h)]
      rfl

/-- **The lines of a document with an error in it**, behind which it goes on. -/
theorem ofDocument_append_of_error {front : String} (h : front.toList.getLast? = some '\n')
    {error : ParseError} (herror : (readDocument front).ending = .error error)
    (hclosed : Lexer.IsClosed (readDocument front).ending) (back : String) :
    ofDocument (front ++ back) = ofDocument front := by
  obtain ⟨hends, hmore⟩ := readDocument_append h back
  obtain ⟨hending, htokens⟩ := hends.readAll_error back.toList
    (Lexer.ofString front).pushed_skipComment (Lexer.ofString front).movesTo_skipComment.stops_eq
    herror hclosed
  rw [ofDocument_eq, ofDocument_eq, hmore, hending, htokens]
  rfl

end SymbolIndex.TokenLine
