import Mathlib
import SymbolIndex.Proofs.Document.Continuation
import SymbolIndex.Proofs.Document.Reader
import SymbolIndex.Proofs.Lexer.Regions

/-!
# Lines that say nothing

Comments and blank lines can be put anywhere between two lines of a document, and nothing changes
but the positions behind them.

A comment is left out by the lexer before the first call or behind the line feed that it follows,
so that its own line feed is next.  A blank line gives a token for each of its tabs.  Either way,
the first line of tokens of the document is one of tabs alone (`ofDocument_ignored`), and no line
is read from it (`read_tabs`).

In front of them stands a document that goes on (`ofDocument_append_of_ok`,
`ofDocument_append_of_error`), since no run of quotes is open there.

* `parse_insert_ignored`: what a document with such lines put into it is read as.
-/

namespace SymbolIndex

open Lexer

/-- A line that says nothing: a comment, or spaces, tabs and carriage returns alone. -/
def IsIgnored (line : List Char) : Prop :=
  line.head? = some '#' ∧ '\n' ∉ line ∨ ∀ c ∈ line, c = ' ' ∨ c = '\t' ∨ c = '\r'

/-- Lines, each ended by a line feed. -/
def joinLines (lines : List (List Char)) : String :=
  .ofList (lines.flatMap (· ++ ['\n']))

/-! ### The tokens of a line that says nothing -/

namespace Lexer

variable {stops : List Char} {position : Position} {rest : List Char}

theorem Gives.of_next_eq {lexer other last : Lexer} {tokens : List Token}
    (h : lexer.next = other.next) (hgives : Gives other tokens last) (hne : tokens ≠ []) :
    Gives lexer tokens last := by
  cases hgives with
  | nil => exact absurd rfl hne
  | cons hnext hkind hrest => exact .cons (h.trans hnext) hkind hrest

/-- A blank line gives its tabs. -/
theorem gives_blank {line : List Char} (h : ∀ c ∈ line, c = ' ' ∨ c = '\t' ∨ c = '\r')
    (position : Position) (rest : List Char) :
    ∃ tabs newline, (∀ token ∈ tabs, token.kind = .tab) ∧ newline.kind = .newline ∧
      Gives ⟨line ++ '\n' :: rest, position, stops, none⟩ (tabs ++ [newline])
        (skipComment ⟨rest, position.advanceBy (line ++ ['\n']), stops, none⟩) := by
  induction line generalizing position with
  | nil =>
    exact ⟨[], _, List.forall_mem_nil _, rfl, .cons next_feed TokenKind.noConfusion (.nil _)⟩
  | cons c line ih =>
    obtain ⟨hc, hline⟩ := List.forall_mem_cons.mp h
    obtain ⟨tabs, newline, htabs, hnewline, hgives⟩ := ih hline (position.advance c)
    have hgap : isGap c = true → Gives ⟨c :: (line ++ '\n' :: rest), position, stops, none⟩
        (tabs ++ [newline]) _ :=
      fun hc => hgives.of_next_eq (next_gap hc) (List.append_ne_nil_of_right_ne_nil _ (by simp))
    rcases hc with rfl | rfl | rfl
    · exact ⟨tabs, newline, htabs, hnewline, hgap rfl⟩
    · exact ⟨_ :: tabs, newline, List.forall_mem_cons.mpr ⟨rfl, htabs⟩, hnewline,
        .cons next_tab TokenKind.noConfusion hgives⟩
    · exact ⟨tabs, newline, htabs, hnewline, hgap rfl⟩

/-- **A line that says nothing gives tabs and a newline.** -/
theorem gives_ignored {line : List Char} (h : IsIgnored line) (position : Position)
    (rest : List Char) :
    ∃ tabs newline, (∀ token ∈ tabs, token.kind = .tab) ∧ newline.kind = .newline ∧
      Gives (skipComment ⟨line ++ '\n' :: rest, position, stops, none⟩) (tabs ++ [newline])
        (skipComment ⟨rest, position.advanceBy (line ++ ['\n']), stops, none⟩) := by
  rcases h with ⟨hmark, hfeed⟩ | hblank
  · have hskip : skipComment ⟨line ++ '\n' :: rest, position, stops, none⟩ =
        ⟨'\n' :: rest, position.advanceBy line, stops, none⟩ := by
      have hhead : (line ++ '\n' :: rest).head? = some '#' := by
        rw [List.head?_append, hmark]
        rfl
      have hline : ∀ c ∈ line, decide (c ≠ '\n') = true :=
        fun c hc => decide_eq_true fun heq => hfeed (heq ▸ hc)
      rw [skipComment, if_pos hhead]
      exact skipWhile_append line hline (by rintro _ ⟨⟩; rfl)
    rw [hskip, Position.advanceBy_append]
    exact ⟨[], _, List.forall_mem_nil _, rfl, .cons next_feed TokenKind.noConfusion (.nil _)⟩
  · have hskip : skipComment ⟨line ++ '\n' :: rest, position, stops, none⟩ =
        ⟨line ++ '\n' :: rest, position, stops, none⟩ := by
      refine if_neg fun hhead => ?_
      cases line with
      | nil => cases hhead
      | cons c line =>
        cases Option.some.inj hhead
        exact absurd (hblank '#' List.mem_cons_self) (by decide)
    rw [hskip]
    exact gives_blank hblank position rest

end Lexer

/-! ### The line of tokens -/

namespace TokenLine

/-- No line is read from tabs. -/
theorem read_tabs {tabs : List Token} {newline : Token} (htabs : ∀ token ∈ tabs, token.kind = .tab)
    (hnewline : newline.kind = .newline) : read ⟨tabs, .ok newline⟩ = .ok none := by
  have htake : takeTabs ⟨tabs, .ok newline⟩ = .ok (tabs.length, ⟨[], .ok newline⟩) := by
    have hall : ∀ token ∈ tabs, decide (token.kind = .tab) = true :=
      fun token ht => decide_eq_true (htabs token ht)
    have hnone : ∀ token ∈ ([] : List Token).head?, decide (token.kind = .tab) = false :=
      fun _ h => nomatch h
    obtain ⟨htaken, hdropped⟩ := span_append hall hnone
    rw [List.append_nil] at htaken hdropped
    simp only [takeTabs, htaken, hdropped]
  show Prod.fst <$> takeLine ⟨tabs, .ok newline⟩ = _
  rw [takeLine, run_bind htake, run_bind take_nil, if_neg (by simp [hnewline]), if_pos hnewline]
  rfl

/-- **A line that says nothing in front of a document** is a line of tabs. -/
theorem ofDocument_ignored {line : List Char} (h : IsIgnored line) (source : String) :
    ∃ tabs newline, (∀ token ∈ tabs, token.kind = .tab) ∧ newline.kind = .newline ∧
      ofDocument (.ofList (line ++ ['\n']) ++ source) =
        ⟨tabs, .ok newline⟩ ::
          (ofDocument source).map (shifted (Position.behind (line ++ ['\n']))) := by
  obtain ⟨tabs, newline, htabs, hnewline, hgives⟩ :=
    @gives_ignored [] line h .start source.toList
  have hlast : (line ++ ['\n']).getLast? = some '\n' := List.getLast?_concat
  have hlexer : Lexer.ofString (.ofList (line ++ ['\n']) ++ source) =
      ⟨line ++ '\n' :: source.toList, .start, [], none⟩ := by
    rw [Lexer.ofString, String.toList_append, String.toList_ofList, List.append_assoc]
    rfl
  have hkinds : ∀ token ∈ tabs, token.kind ≠ .newline := fun token ht => by simp [htabs token ht]
  refine ⟨tabs, newline, htabs, hnewline, ?_⟩
  rw [ofDocument_eq, readDocument, hlexer, hgives.readAll_eq]
  show split _ (tabs ++ [newline] ++ _) = _
  rw [List.append_assoc, List.singleton_append, split_append_newline hkinds hnewline,
    ← split_readAll_behind (.inr hlast)]

end TokenLine

/-! ### Documents -/

namespace Outline

/-- The lines of a document read on from an outline, without positions. -/
def readOn (outline : Outline) (source : String) : Except Fault Outline :=
  ((TokenLine.ofDocument source).foldlM read outline).mapError (·.fault)

theorem readOn_shifted (f : Position → Position) (outline : Outline) (source : String) :
    (((TokenLine.ofDocument source).map (TokenLine.shifted f)).foldlM read outline).mapError
      (·.fault) = outline.readOn source := by
  rw [foldlM_read_shifted, readOn]
  cases (TokenLine.ofDocument source).foldlM read outline <;> rfl

theorem readOn_ignored {line : List Char} (h : IsIgnored line) (outline : Outline)
    (source : String) :
    outline.readOn (.ofList (line ++ ['\n']) ++ source) = outline.readOn source := by
  obtain ⟨tabs, newline, htabs, hnewline, hlines⟩ := TokenLine.ofDocument_ignored h source
  have hread : outline.read ⟨tabs, .ok newline⟩ = .ok outline := by
    rw [read, TokenLine.read_tabs htabs hnewline]
    rfl
  rw [readOn, hlines, List.foldlM_cons, hread]
  exact readOn_shifted _ outline source

theorem readOn_joinLines {lines : List (List Char)} (h : ∀ line ∈ lines, IsIgnored line)
    (outline : Outline) (source : String) :
    outline.readOn (joinLines lines ++ source) = outline.readOn source := by
  induction lines with
  | nil =>
    rw [joinLines, List.flatMap_nil]
    exact congrArg outline.readOn (String.empty_append)
  | cons line lines ih =>
    obtain ⟨hline, hlines⟩ := List.forall_mem_cons.mp h
    have hcons : joinLines (line :: lines) = .ofList (line ++ ['\n']) ++ joinLines lines := by
      rw [joinLines, List.flatMap_cons, String.ofList_append, joinLines]
    rw [hcons, String.append_assoc, readOn_ignored hline, ih hlines]

end Outline

/-! ### Lines in front -/

/-- A document that ends outside of quotes has no open run. -/
theorem isClosed_readDocument {source : String}
    (h : (Region.lineStart.behind source.toList).isQuoted = false) :
    IsClosed (readDocument source).ending := by
  intro position hending
  obtain ⟨front, hfront, hbetween⟩ := isBetween_skipComment (Lexer.ofString source)
  have hquoted := isQuoted_of_unterminated (Lexer.ofString source).pushed_skipComment
    hbetween hending
  rw [← Region.behind_append, ← hfront] at hquoted
  rw [show (Lexer.ofString source).rest = source.toList from rfl, h] at hquoted
  cases hquoted

/-- The text ends in front of a line: it is empty, or it ends with a line feed that is in no run of
quotes. -/
def EndsOutside (text : String) : Prop :=
  text = "" ∨ ∃ body, text = body ++ "\n" ∧ (Region.lineStart.behind body.toList).isQuoted = false

theorem EndsOutside.getLast? {text : String} (h : EndsOutside text) :
    text = "" ∨ text.toList.getLast? = some '\n' := by
  refine h.imp_right ?_
  rintro ⟨body, rfl, _⟩
  rw [String.toList_append]
  exact List.getLast?_concat

theorem EndsOutside.isClosed {text : String} (h : EndsOutside text) :
    IsClosed (readDocument text).ending := by
  refine isClosed_readDocument ?_
  rcases h with rfl | ⟨body, rfl, hbody⟩
  · rfl
  · rw [String.toList_append, Region.behind_append]
    show ((Region.lineStart.behind body.toList).after '\n').isQuoted = false
    rwa [Region.isQuoted_after_feed]

/-- **Documents that read alike** do so in front of the same lines. -/
theorem Outline.readOn_append {front back back' : String} (hfront : EndsOutside front)
    (h : ∀ outline : Outline, outline.readOn back = outline.readOn back') (outline : Outline) :
    outline.readOn (front ++ back) = outline.readOn (front ++ back') := by
  have hclosed := hfront.isClosed
  cases hending : (readDocument front).ending with
  | error error =>
    rcases hfront.getLast? with rfl | hlast
    · rw [String.empty_append, String.empty_append, h]
    · rw [readOn, readOn, TokenLine.ofDocument_append_of_error hlast hending hclosed,
        TokenLine.ofDocument_append_of_error hlast hending hclosed]
  | ok last =>
    obtain ⟨lines, _, hlines⟩ := TokenLine.ofDocument_append_of_ok hfront.getLast? hending
    rw [readOn, readOn, hlines, hlines, List.foldlM_append, List.foldlM_append]
    cases lines.foldlM read outline with
    | error error => rfl
    | ok after =>
      show (List.foldlM read after _).mapError _ = (List.foldlM read after _).mapError _
      rw [readOn_shifted, readOn_shifted, h]

namespace Database

theorem parse_mapError (source : String) :
    (parse source).mapError (·.fault) = ((({} : Outline).readOn source).map (·.database)) := by
  rw [parse, Outline.readOn]
  cases (TokenLine.ofDocument source).foldlM Outline.read {} <;> rfl

/-- **Comments and blank lines say nothing.**  Where a line can begin, any number of them may be put
into a document: it is read as the same database, or refused for the same fault. -/
theorem parse_insert_ignored {front back : String} {lines : List (List Char)}
    (hfront : EndsOutside front) (hlines : ∀ line ∈ lines, IsIgnored line) :
    (parse (front ++ joinLines lines ++ back)).mapError (·.fault) =
      (parse (front ++ back)).mapError (·.fault) := by
  rw [parse_mapError, parse_mapError, String.append_assoc,
    Outline.readOn_append hfront fun outline => Outline.readOn_joinLines hlines outline back]

/-- The enclosing lines of a class, the last line feed apart. -/
def enclosingNames : String := "r#p\n\tq#f\n\t\tk\n\t\t\t\"M\n.x\""

def enclosingLines : String := enclosingNames ++ "\n"

def classLine : String := "\t\t\t\te::1::2::3\n"

/-- Comments and blank lines, one of them with an open quote. -/
def ignoredLines : List (List Char) := [['#', ' ', '"'], ['\t', ' ', '\r'], [], ['#']]

/-- These can stand in front of the class. -/
theorem parse_insert_ignored_class :
    EndsOutside enclosingLines ∧ (∀ line ∈ ignoredLines, IsIgnored line) ∧
      ∃ database, parse (enclosingLines ++ classLine) = .ok database ∧ database.size = 1 ∧
        parse (enclosingLines ++ joinLines ignoredLines ++ classLine) = .ok database := by
  have hfront : EndsOutside enclosingLines := .inr ⟨enclosingNames, rfl, by cbv⟩
  have hlines : ∀ line ∈ ignoredLines, IsIgnored line := by simp [ignoredLines, IsIgnored]
  have hclass : (parse (enclosingLines ++ classLine)).map size = .ok 1 := by cbv
  obtain ⟨database, hdatabase, hsize⟩ := map_eq_ok_iff.mp hclass
  have hinsert := @parse_insert_ignored enclosingLines classLine ignoredLines hfront hlines
  rw [hdatabase] at hinsert
  exact ⟨hfront, hlines, database, hdatabase, hsize, mapError_eq_ok_iff.mp hinsert⟩

end Database

end SymbolIndex
