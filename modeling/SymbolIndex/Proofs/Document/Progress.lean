import SymbolIndex.Document
import SymbolIndex.Proofs.Lexer.Calls
import SymbolIndex.Proofs.Reference.Grammar

/-!
# Reading comes to an end

A call of a lexer gives the end of file, or it moves on.  So the end of file comes after no more
calls than the source has bytes, and one more, even if reading goes on behind errors.  References
and documents are read from what these calls give.

At the end of file the lexer stays, with one exception.  Comments do not look at stop characters.
So if `#` is one, then a source that begins with it ends there, and yet its leading comment can be
skipped.

* `rests_of_reaches`: when the lexer stays.
* `calls_progress`: the progress of calls, and the number of calls for a reference or a document.
-/

namespace SymbolIndex

open Lexer

/-- The database of the lines that the tokens make. -/
def Reading.database (reading : Reading) : Except ParseError Database := do
  let outline ← (TokenLine.split reading.ending reading.tokens).foldlM Outline.read {}
  return outline.database

theorem Database.parse_eq_database (source : String) :
    parse source = (ofString source).skipLeadingComment.readAll.database := rfl

variable {source stops : String} {lexer : Lexer} {given : List (Except ParseError Token)}

/-- A leading comment can be skipped behind an end of file only if it begins with a stop
character. -/
theorem Lexer.rests_of_reaches (h : Reaches [] (ofStringWithStops source stops) given lexer)
    (hpushed : lexer.pushed = none) (hend : isEnd lexer.next.1 = true)
    (hcomment : ¬ (lexer.next.2.position.offset = 0 ∧ source.toList.head? = some '#' ∧
      '#' ∈ stops.toList)) :
    Rests (lexer.next.1 :: given) lexer.next.1 lexer.next.2 := by
  have hnext : lexer.next = (lexer.next.1, lexer.next.2) := rfl
  refine rests_of_isEnd hpushed hnext hend fun hoffset hmark => hcomment ⟨hoffset, ?_, ?_⟩
  · rwa [h.next.movesTo.rest_eq (Nat.le_of_eq hoffset)] at hmark
  · have hstop := (next_of_isEnd hpushed hnext hend).2 _ hmark
    rwa [h.next.movesTo.stops_eq] at hstop

/-- **Calls make progress.**  A call that reads gives the end of file or moves on.  At the end of
file the lexer stays, however often it is called, and whatever else is done with it, unless a
comment at the start of the source begins with a stop character.  So there are no more calls up to
the end of file than the source has bytes, and one more, and as many are enough for reading a
reference or a document. -/
theorem calls_progress (source : String) :
    (∀ (stops : String) (given : List (Except ParseError Token)) (lexer : Lexer),
      Reaches [] (ofStringWithStops source stops) given lexer →
        (lexer.pushed = none →
          (¬ isEnd lexer.next.1 = true →
            lexer.position.offset < lexer.next.2.position.offset) ∧
          (isEnd lexer.next.1 = true →
            (∀ calls, (lexer.next.2.behindCalls calls).next = lexer.next) ∧
            (¬ (lexer.next.2.position.offset = 0 ∧ source.toList.head? = some '#' ∧
                '#' ∈ stops.toList) →
              Rests (lexer.next.1 :: given) lexer.next.1 lexer.next.2))) ∧
        ∃ calls ≤ source.utf8ByteSize, isEnd (lexer.behindCalls calls).next.1 = true) ∧
    (∃ reading, readWithin (source.utf8ByteSize + 1) (ofString source) = some reading ∧
      PartialName.parse source = reading.names.map PartialName.ofNames) ∧
    ∃ reading,
      readWithin (source.utf8ByteSize + 1) (ofString source).skipLeadingComment = some reading ∧
        Database.parse source = reading.database := by
  have hcalls {stops : String} {given : List (Except ParseError Token)} {lexer : Lexer}
      (h : Reaches [] (ofStringWithStops source stops) given lexer) :
      lexer.exhaust.1.length ≤ source.utf8ByteSize + 1 := by
    have hle := h.length_exhaust_le rfl
    rwa [show (ofStringWithStops source stops).remainder = source from String.ofList_toList] at hle
  have hread {lexer : Lexer} (h : Reaches [] (ofStringWithStops source "") [] lexer) :
      readWithin (source.utf8ByteSize + 1) lexer = some lexer.readAll :=
    readWithin_eq_some (lexer.length_readAll_lt.trans_le (hcalls h))
  refine ⟨fun stops given lexer h => ⟨fun hpushed => ?_, ?_⟩, ?_, ?_⟩
  · have hnext : lexer.next = (lexer.next.1, lexer.next.2) := rfl
    refine ⟨offset_lt_of_next hpushed hnext, fun hend => ⟨fun calls => ?_, ?_⟩⟩
    · rw [behindCalls_of_isEnd hpushed hnext hend, (next_of_isEnd hpushed hnext hend).1]
    · exact rests_of_reaches h hpushed hend
  · obtain ⟨calls, hlength, hlast⟩ := lexer.isEnd_behindCalls
    have hle := hcalls h
    rw [hlength] at hle
    exact ⟨calls, Nat.le_of_succ_le_succ hle, hlast⟩
  · exact ⟨_, hread .start, PartialName.parse_eq_names source⟩
  · exact ⟨_, hread (.skipLeadingComment .start), Database.parse_eq_database source⟩

/-- Two names, and then the end of file at a stop character. -/
theorem calls_progress_label :
    Reaches [] (ofStringWithStops "é/b[c]" "[")
        [.ok ⟨.name, "b", ⟨3, 1, 3⟩⟩, .ok ⟨.name, "é", .start⟩]
        ⟨"[c]".toList, ⟨4, 1, 4⟩, ['['], none⟩ ∧
      Rests [.ok ⟨.endOfFile, "", ⟨4, 1, 4⟩⟩, .ok ⟨.name, "b", ⟨3, 1, 3⟩⟩, .ok ⟨.name, "é", .start⟩]
        (.ok ⟨.endOfFile, "", ⟨4, 1, 4⟩⟩) ⟨"[c]".toList, ⟨4, 1, 4⟩, ['['], none⟩ := by
  have hfirst : (ofStringWithStops "é/b[c]" "[").next =
      (.ok ⟨.name, "é", .start⟩, ⟨"/b[c]".toList, ⟨2, 1, 2⟩, ['['], none⟩) := by cbv
  have hsecond : next ⟨"/b[c]".toList, ⟨2, 1, 2⟩, ['['], none⟩ =
      (.ok ⟨.name, "b", ⟨3, 1, 3⟩⟩, ⟨"[c]".toList, ⟨4, 1, 4⟩, ['['], none⟩) := by cbv
  have hlast : next ⟨"[c]".toList, ⟨4, 1, 4⟩, ['['], none⟩ =
      (.ok ⟨.endOfFile, "", ⟨4, 1, 4⟩⟩, ⟨"[c]".toList, ⟨4, 1, 4⟩, ['['], none⟩) := by cbv
  have hreaches := (@Reaches.start [] (ofStringWithStops "é/b[c]" "[")).next.next
  simp only [hfirst, hsecond] at hreaches
  have hcall := ((calls_progress "é/b[c]").1 "[" _ _ hreaches).1 rfl
  rw [hlast] at hcall
  refine ⟨hreaches, (hcall.2 rfl).2 ?_⟩
  exact fun hcomment => absurd hcomment.1 (by decide)

/-- Where `#` is a stop character, an end of file at the start of a source is not the last. -/
theorem not_rests_leadingMark :
    (ofStringWithStops "#a\nb" "#").next =
        (.ok ⟨.endOfFile, "", .start⟩, ofStringWithStops "#a\nb" "#") ∧
      (ofStringWithStops "#a\nb" "#").skipLeadingComment.next.1 =
        .ok ⟨.newline, "\n", ⟨2, 1, 3⟩⟩ ∧
      ¬ Rests [.ok ⟨.endOfFile, "", .start⟩] (.ok ⟨.endOfFile, "", .start⟩)
        (ofStringWithStops "#a\nb" "#") := by
  have hfeed : (ofStringWithStops "#a\nb" "#").skipLeadingComment.next.1 =
      .ok ⟨.newline, "\n", ⟨2, 1, 3⟩⟩ := by cbv
  refine ⟨by cbv, hfeed, fun hrests => ?_⟩
  have hsame := (hrests _ _ (.skipLeadingComment .start)).2 rfl
  rw [hsame] at hfeed
  cases hfeed

end SymbolIndex
