import SymbolIndex.Proofs.Document.FirstLines
import SymbolIndex.Proofs.Lexer.Calls
import SymbolIndex.Proofs.Reference.Grammar

/-!
# Reported positions are true

Line, column and offset of a position are counted apart, but always over the same stretch of the
source.  So each position of a lexer is that of a place in the source, and all three can be told
from what stands in front of it.  Tokens and errors are at such places, and the errors of references
and documents are where a token is, or where the tokens end.

Line and column are counters of 32 bits that begin with one.  A character counts for the line or for
the column, so neither wraps around as long as the source has fewer than `2 ^ 32 - 1` characters.
With one more character in a single line the column does.

* `Position.IsTrueIn`: what a position says of a text.
* `isPlaceIn_of_reports`: every position that is told of a source is that of a place in it.
* `isTrueIn_of_reports`: every such position is true, if the source is not longer than that.
* `not_isTrueIn_spaces`: a source of that many characters where one is not.
-/

namespace SymbolIndex

namespace Position

/-- The position is that of a place in the text.  The offset is the length of the text in front of
the place, in UTF-8.  Its line feeds are counted for the line, and the characters behind the last of
them for the column. -/
def IsTrueIn (source : String) (p : Position) : Prop :=
  ∃ front back, source = front ++ back ∧ p.offset = front.utf8ByteSize ∧
    p.line.toNat = 1 + front.toList.count '\n' ∧
    p.column.toNat = 1 + (front.toList.rtakeWhile (· ≠ '\n')).length

/-- The column counts the characters behind the last line feed. -/
theorem column_advanceBy_start (text : List Char) :
    (start.advanceBy text).column = .ofNat (1 + (text.rtakeWhile (· ≠ '\n')).length) := by
  induction text using List.reverseRecOn with
  | nil => rfl
  | append_singleton text c ih =>
    rw [advanceBy_append, advanceBy_cons, advanceBy_nil, List.rtakeWhile_concat, advance]
    by_cases hc : c = '\n'
    · simp [hc]
    · simp [hc, ih, UInt32.ofNat_add, UInt32.add_assoc]

/-- A character counts for the line or for the column. -/
theorem count_add_length_rtakeWhile_le (text : List Char) :
    text.count '\n' + (text.rtakeWhile (· ≠ '\n')).length ≤ text.length := by
  have hfront := @List.rdropWhile_append_rtakeWhile _ (· ≠ '\n') text
  have hlast : (text.rtakeWhile (· ≠ '\n')).count '\n' = 0 := by
    refine List.count_eq_zero.mpr fun hmem => ?_
    simpa using List.mem_rtakeWhile_imp hmem
  have hcount := congrArg (List.count '\n') hfront
  have hlength := congrArg List.length hfront
  have hle := List.count_le_length (a := '\n') (l := text.rdropWhile (· ≠ '\n'))
  rw [List.count_append, hlast] at hcount
  rw [List.length_append] at hlength
  omega

/-- **A place in a text is told by true counters**, unless the text is so long that they wrap
around. -/
theorem IsPlaceIn.isTrueIn {source : String} {p : Position} (h : p.IsPlaceIn source.toList)
    (hlength : source.length < 2 ^ 32 - 1) : p.IsTrueIn source := by
  obtain ⟨front, back, rfl, hposition, hoffset⟩ := h.exists_front
  have hcounters := count_add_length_rtakeWhile_le front.toList
  rw [String.length_append] at hlength
  rw [String.length_toList] at hcounters
  have hline : front.toList.count '\n' + 1 < UInt32.size := by
    show _ < 2 ^ 32
    omega
  have hcolumn : 1 + (front.toList.rtakeWhile (· ≠ '\n')).length < UInt32.size := by
    show _ < 2 ^ 32
    omega
  refine ⟨front, back, rfl, hoffset, ?_, ?_⟩
  · rw [hposition, line_advanceBy_start, UInt32.toNat_ofNat_of_lt' hline, Nat.add_comm]
  · rw [hposition, column_advanceBy_start, UInt32.toNat_ofNat_of_lt' hcolumn]

end Position

/-! ### Errors of references and documents -/

/-- A token that is refused is refused where it is. -/
theorem Token.exists_of_mapM_expect {tokens : List Token} {kinds : List TokenKind}
    {error : ParseError} (h : tokens.mapM (·.expect kinds) = .error error) :
    ∃ token ∈ tokens, error.position = token.position := by
  induction tokens with
  | nil => cases h
  | cons token tokens ih =>
    rw [List.mapM_cons] at h
    by_cases hkind : token.kind ∈ kinds
    · have hexpect : token.expect kinds = .ok token := if_pos hkind
      rw [hexpect] at h
      cases hrest : tokens.mapM (·.expect kinds) with
      | error other =>
        rw [hrest] at h
        cases h
        obtain ⟨refused, hmem, hposition⟩ := ih hrest
        exact ⟨refused, List.mem_cons_of_mem _ hmem, hposition⟩
      | ok others =>
        rw [hrest] at h
        cases h
    · have hexpect : token.expect kinds =
          .error ⟨token.position, .unexpected kinds token.kind⟩ := if_neg hkind
      rw [hexpect] at h
      cases h
      exact ⟨token, List.mem_cons_self, rfl⟩

/-- An error of a reference is where one of its tokens is, or its ending. -/
theorem Reading.position_of_names {P : Position → Prop} {reading : Reading} {error : ParseError}
    (htokens : ∀ token ∈ reading.tokens, P token.position) (hending : P (placeOf reading.ending))
    (h : reading.names = .error error) : P error.position := by
  rw [names] at h
  cases hexpect : reading.tokens.mapM (·.expect PartialName.tokenKinds) with
  | error other =>
    obtain ⟨token, hmem, hposition⟩ := Token.exists_of_mapM_expect hexpect
    rw [hexpect] at h
    cases h
    rw [hposition]
    exact htokens token hmem
  | ok tokens =>
    rw [hexpect] at h
    cases hlast : reading.ending with
    | error other =>
      rw [hlast] at h hending
      cases h
      exact hending
    | ok last =>
      rw [hlast] at h
      cases h

theorem PartialName.isPlaceIn_of_parse {source : String} {error : ParseError}
    (h : parse source = .error error) : error.position.IsPlaceIn source.toList := by
  rw [parse_eq_names, map_eq_error_iff] at h
  obtain ⟨htokens, hending⟩ :=
    @Lexer.isPlaceIn_of_readAll _ source "" (.refl (Lexer.ofString source)) rfl
  exact Reading.position_of_names htokens hending h

/-! ### All positions -/

/-- The positions that are told of a source: those of a lexer, in whatever order it is called, and
of what it gives, and those of errors. -/
inductive Reports (source : String) : Position → Prop
  | lexer {stops : String} {given : List (Except ParseError Token)} {lexer : Lexer}
      (h : Lexer.Reaches [] (Lexer.ofStringWithStops source stops) given lexer) :
      Reports source lexer.position
  | result {stops : String} {given : List (Except ParseError Token)} {lexer : Lexer}
      {result : Except ParseError Token}
      (h : Lexer.Reaches [] (Lexer.ofStringWithStops source stops) given lexer)
      (hresult : result ∈ given) : Reports source (placeOf result)
  | reference {error : ParseError} (h : PartialName.parse source = .error error) :
      Reports source error.position
  | document {error : ParseError} (h : Database.parse source = .error error) :
      Reports source error.position

/-- **Reported positions are those of places**, whatever the source is. -/
theorem isPlaceIn_of_reports {source : String} {p : Position} (h : Reports source p) :
    p.IsPlaceIn source.toList := by
  cases h with
  | lexer hreaches => exact Lexer.isPlaceIn_of_movesTo hreaches.movesTo
  | result hreaches hresult => exact (hreaches.movesOverPlace rfl _ hresult).isPlaceIn
  | reference hparse => exact PartialName.isPlaceIn_of_parse hparse
  | document hparse => exact Database.isPlaceIn_of_parse hparse

/-- **Reported positions are true** in every source of fewer than `2 ^ 32 - 1` characters. -/
theorem isTrueIn_of_reports {source : String} {p : Position}
    (hlength : source.length < 2 ^ 32 - 1) (h : Reports source p) : p.IsTrueIn source :=
  (isPlaceIn_of_reports h).isTrueIn hlength

/-- A line that is indented too deeply, behind a comment with a character of two bytes. -/
theorem isTrueIn_of_reports_deepLine :
    "#é\nlib#x\n\t\tsrc\n".length < 2 ^ 32 - 1 ∧
      Database.parse "#é\nlib#x\n\t\tsrc\n" = .error ⟨⟨12, 3, 3⟩, .tooManyTabs⟩ ∧
      Position.IsTrueIn "#é\nlib#x\n\t\tsrc\n" ⟨12, 3, 3⟩ := by
  have hlength : "#é\nlib#x\n\t\tsrc\n".length < 2 ^ 32 - 1 := by decide
  have hparse : Database.parse "#é\nlib#x\n\t\tsrc\n" = .error ⟨⟨12, 3, 3⟩, .tooManyTabs⟩ := by cbv
  exact ⟨hlength, hparse, isTrueIn_of_reports hlength (.document hparse)⟩

/-! ### The end of the counters -/

/-- A line of spaces. -/
def spaces (n : Nat) : String := .ofList (List.replicate n ' ')

theorem length_spaces (n : Nat) : (spaces n).length = n := by
  rw [spaces, String.length_ofList, List.length_replicate]

theorem Position.advanceBy_spaces (p : Position) (n : Nat) :
    p.advanceBy (List.replicate n ' ') = ⟨p.offset + n, p.line, p.column + .ofNat n⟩ := by
  induction n generalizing p with
  | zero => simp
  | succ n ih =>
    have hspace : p.advance ' ' = ⟨p.offset + 1, p.line, p.column + 1⟩ := rfl
    rw [List.replicate_succ, advanceBy_cons, hspace, ih, Nat.add_comm n 1, UInt32.ofNat_add,
      Nat.add_assoc, UInt32.add_assoc]
    rfl

/-- Behind a line of spaces, the end of file is reported. -/
theorem reports_spaces (n : Nat) : Reports (spaces n) ⟨n, 1, 1 + .ofNat n⟩ := by
  have hlexer : Lexer.ofStringWithStops (spaces n) "" =
      ⟨List.replicate n ' ' ++ [], .start, [], none⟩ := by
    rw [Lexer.ofStringWithStops, spaces, String.toList_ofList, List.append_nil]
    rfl
  have hgaps : ∀ c ∈ List.replicate n ' ', Lexer.isGap c = true := by
    intro c hc
    rw [List.eq_of_mem_replicate hc]
    rfl
  have hplace : Position.start.advanceBy (List.replicate n ' ') = ⟨n, 1, 1 + .ofNat n⟩ := by
    rw [Position.advanceBy_spaces]
    show Position.mk (0 + n) 1 (1 + .ofNat n) = _
    rw [Nat.zero_add]
  have hskip : Lexer.skipWhile ⟨List.replicate n ' ' ++ [], .start, [], none⟩ Lexer.isGap =
      ⟨[], ⟨n, 1, 1 + .ofNat n⟩, [], none⟩ := by
    rw [Lexer.skipWhile_append _ hgaps (by simp), hplace]
  have hnext : (Lexer.ofStringWithStops (spaces n) "").next.1 =
      .ok ⟨.endOfFile, "", ⟨n, 1, 1 + .ofNat n⟩⟩ := by
    rw [hlexer, Lexer.next_eq_read_skipWhile rfl, hskip]
    rfl
  have hgiven : Lexer.Reaches [] (Lexer.ofStringWithStops (spaces n) "")
      [(Lexer.ofStringWithStops (spaces n) "").next.1] _ := .next .start
  rw [hnext] at hgiven
  exact .result hgiven List.mem_cons_self

/-- **A line of `2 ^ 32 - 1` characters ends at column zero**, since the counter of columns wraps
around. -/
theorem not_isTrueIn_spaces : (spaces 4294967295).length < 2 ^ 32 ∧
    Reports (spaces 4294967295) ⟨4294967295, 1, 0⟩ ∧
    ¬ Position.IsTrueIn (spaces 4294967295) ⟨4294967295, 1, 0⟩ := by
  refine ⟨?_, ?_, ?_⟩
  · rw [length_spaces]
    decide
  · have hcolumn : (1 : UInt32) + .ofNat 4294967295 = 0 := by decide
    have hreports := reports_spaces 4294967295
    rwa [hcolumn] at hreports
  · rintro ⟨front, back, _, _, _, hcolumn⟩
    have hzero : (0 : UInt32).toNat = 0 := rfl
    rw [hzero] at hcolumn
    omega

end SymbolIndex
