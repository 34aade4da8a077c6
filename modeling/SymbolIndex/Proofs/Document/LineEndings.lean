import Mathlib
import SymbolIndex.Proofs.Document.Agreement
import SymbolIndex.Proofs.Document.Ending
import SymbolIndex.Proofs.Lexer.Regions

/-!
# Line endings

A document in which no line feed is in quotes is read in the same way if every line feed gets a
carriage return in front of it.

Outside of quotes a return is skipped between tokens, ends a name as the line feed would, and is
the last character of a comment or a number that runs up to it.  So behind each call the lexer of
the document with returns is where the other one is, or it is behind the return that the other
source does not have: `Returned` says this of two lexers.  A number with a return behind its digits
has the same value, and only offsets and columns differ: the tokens agree as lines of tokens must
to be read alike.

* `takeName_withReturns`: a name.
* `Returned.next`: one call.
* `Returned.readAll`: reading to the end.
* `parse_withReturns`: a document is read as the same database, or refused on the same line.
-/

namespace SymbolIndex

open Lexer

/-! ### Texts -/

/-- Every line feed gets a carriage return in front of it. -/
def withReturns (text : List Char) : List Char :=
  text.flatMap fun c => if c = '\n' then ['\r', '\n'] else [c]

/-- The same behind the return of the first character, if that is a line feed. -/
def behindReturn : List Char → List Char
  | [] => []
  | c :: rest => c :: withReturns rest

theorem withReturns_feed (rest : List Char) :
    withReturns ('\n' :: rest) = '\r' :: '\n' :: withReturns rest := rfl

theorem withReturns_cons {c : Char} (h : c ≠ '\n') (rest : List Char) :
    withReturns (c :: rest) = c :: withReturns rest := by
  rw [withReturns, List.flatMap_cons, if_neg h]
  rfl

theorem head?_withReturns {c : Char} (hfeed : c ≠ '\n') (hreturn : c ≠ '\r') (text : List Char) :
    (withReturns text).head? = some c ↔ text.head? = some c := by
  cases text with
  | nil => exact Iff.rfl
  | cons d rest =>
    by_cases hd : d = '\n'
    · subst hd
      exact iff_of_false (fun h => hreturn (Option.some.inj h).symm)
        (fun h => hfeed (Option.some.inj h).symm)
    · rw [withReturns_cons hd]
      exact Iff.rfl

theorem any_isDigit_withReturns (text : List Char) :
    (withReturns text).head?.any Char.isDigit = text.head?.any Char.isDigit := by
  cases text with
  | nil => rfl
  | cons d rest =>
    by_cases hd : d = '\n'
    · subst hd
      rfl
    · rw [withReturns_cons hd]
      rfl

section Stretches

variable {p : Char → Bool} (hreturn : p '\r' = true) (hfeed : p '\n' = false)

include hreturn hfeed

/-- A stretch that runs up to line feeds takes the return in front of one. -/
theorem dropWhile_withReturns (text : List Char) :
    (withReturns text).dropWhile p = behindReturn (text.dropWhile p) := by
  induction text with
  | nil => rfl
  | cons c rest ih =>
    by_cases hc : c = '\n'
    · subst hc
      rw [withReturns_feed, List.dropWhile_cons_of_pos hreturn,
        List.dropWhile_cons_of_neg (by simp [hfeed]), List.dropWhile_cons_of_neg (by simp [hfeed])]
      rfl
    · rw [withReturns_cons hc]
      by_cases hp : p c = true
      · rw [List.dropWhile_cons_of_pos hp, List.dropWhile_cons_of_pos hp, ih]
      · rw [List.dropWhile_cons_of_neg hp, List.dropWhile_cons_of_neg hp]
        rfl

theorem takeWhile_withReturns (text : List Char) :
    ∃ returns, (∀ c ∈ returns, c = '\r') ∧
      (withReturns text).takeWhile p = text.takeWhile p ++ returns := by
  induction text with
  | nil => exact ⟨[], List.forall_mem_nil _, rfl⟩
  | cons c rest ih =>
    by_cases hc : c = '\n'
    · subst hc
      refine ⟨['\r'], by simp, ?_⟩
      rw [withReturns_feed, List.takeWhile_cons_of_pos hreturn,
        List.takeWhile_cons_of_neg (by simp [hfeed]), List.takeWhile_cons_of_neg (by simp [hfeed])]
      rfl
    · rw [withReturns_cons hc]
      by_cases hp : p c = true
      · obtain ⟨returns, hreturns, htake⟩ := ih
        refine ⟨returns, hreturns, ?_⟩
        rw [List.takeWhile_cons_of_pos hp, List.takeWhile_cons_of_pos hp, htake]
        rfl
      · refine ⟨[], List.forall_mem_nil _, ?_⟩
        rw [List.takeWhile_cons_of_neg hp, List.takeWhile_cons_of_neg hp]
        rfl

end Stretches

theorem dropEnd_append {p : Char → Bool} {back : List Char} (h : ∀ c ∈ back, p c = true)
    (front : List Char) : dropEnd p (front ++ back) = dropEnd p front := by
  rw [dropEnd, dropEnd, List.reverse_append, List.dropWhile_append_of_pos]
  exact fun c hc => h c (List.mem_reverse.mp hc)

/-! ### Two lexers -/

/-- Two positions on the same line. -/
def OnLine (p q : Position) : Prop := q.line = p.line

/-- The second lexer is where the first one is, in a source with returns. -/
structure Returned (lexer other : Lexer) : Prop where
  rest : other.rest = withReturns lexer.rest ∨ other.rest = behindReturn lexer.rest
  line : OnLine lexer.position other.position
  stops_eq : other.stops = lexer.stops
  pushed : lexer.pushed = none
  pushed_other : other.pushed = none

/-- Two calls that give tokens that are read alike, or the same fault on the same line. -/
inductive CallsAgree : Except ParseError Token × Lexer → Except ParseError Token × Lexer → Prop
  | error {p q : Position} (fault : Fault) (h : OnLine p q) (behind behind' : Lexer) :
      CallsAgree (.error ⟨p, fault⟩, behind) (.error ⟨q, fault⟩, behind')
  | ok {token other : Token} {behind behind' : Lexer} (htoken : token.Agrees OnLine other)
      (hbehind : Returned behind behind') : CallsAgree (.ok token, behind) (.ok other, behind')

theorem line_skipWhile (lexer : Lexer) {p : Char → Bool} (h : p '\n' = false) :
    (lexer.skipWhile p).position.line = lexer.position.line := by
  have hcount : (lexer.rest.takeWhile p).count '\n' = 0 := by
    refine List.count_eq_zero.mpr fun hmem => ?_
    rw [List.mem_takeWhile_imp hmem] at h
    cases h
  rw [skipWhile, Position.line_advanceBy, hcount]
  exact UInt32.add_zero _

theorem OnLine.advanceBy {p q : Position} (h : OnLine p q) (text : List Char) :
    OnLine (p.advanceBy text) (q.advanceBy text) := by
  rw [OnLine, Position.line_advanceBy, Position.line_advanceBy, h]

namespace Returned

variable {lexer other : Lexer}

/-- Behind a stretch that runs up to line feeds, a return has been skipped. -/
theorem skipWhile (h : Returned lexer other) {p : Char → Bool} (hreturn : p '\r' = true)
    (hfeed : p '\n' = false) :
    (other.skipWhile p).rest = behindReturn (lexer.skipWhile p).rest ∧
      Returned (lexer.skipWhile p) (other.skipWhile p) := by
  have hrest : other.rest.dropWhile p = behindReturn (lexer.rest.dropWhile p) := by
    rcases h.rest with hrest | hrest
    · rw [hrest, dropWhile_withReturns hreturn hfeed]
    · rw [hrest]
      cases lexer.rest with
      | nil => rfl
      | cons c rest =>
        by_cases hc : c = '\n'
        · subst hc
          rw [behindReturn, List.dropWhile_cons_of_neg (by simp [hfeed]),
            List.dropWhile_cons_of_neg (by simp [hfeed])]
          rfl
        · rw [behindReturn, ← withReturns_cons hc, dropWhile_withReturns hreturn hfeed]
  refine ⟨hrest, .inr hrest, ?_, h.stops_eq, h.pushed, h.pushed_other⟩
  rw [OnLine, line_skipWhile other hfeed, line_skipWhile lexer hfeed]
  exact h.line

/-- Both move over the same character. -/
theorem skipOne (h : Returned lexer other) (hrest : other.rest = behindReturn lexer.rest) :
    other.skipOne.rest = withReturns lexer.skipOne.rest ∧
      Returned lexer.skipOne other.skipOne := by
  have htail : other.rest.tail = withReturns lexer.rest.tail := by
    rw [hrest]
    cases lexer.rest <;> rfl
  have hone : other.rest.take 1 = lexer.rest.take 1 := by
    rw [hrest]
    cases lexer.rest <;> rfl
  refine ⟨htail, .inl htail, ?_, h.stops_eq, h.pushed, h.pushed_other⟩
  rw [Lexer.skipOne, Lexer.skipOne, hone]
  exact h.line.advanceBy _

theorem skipComment (h : Returned lexer other) (hrest : other.rest = withReturns lexer.rest) :
    Returned lexer.skipComment other.skipComment := by
  have hmark : other.rest.head? = some '#' ↔ lexer.rest.head? = some '#' := by
    rw [hrest]
    exact head?_withReturns (by decide) (by decide) lexer.rest
  unfold Lexer.skipComment
  by_cases hhead : lexer.rest.head? = some '#'
  · rw [if_pos hhead, if_pos (hmark.mpr hhead)]
    exact (h.skipWhile (by decide) (by decide)).2
  · rw [if_neg hhead, if_neg (mt hmark.mp hhead)]
    exact h

theorem skipSeparator (h : Returned lexer other) (hrest : other.rest = behindReturn lexer.rest) :
    other.skipSeparator.rest = withReturns lexer.skipSeparator.rest ∧
      Returned lexer.skipSeparator other.skipSeparator := by
  obtain ⟨hone, hbehind⟩ := h.skipOne hrest
  have hcolon : other.skipOne.rest.head? = some ':' ↔ lexer.skipOne.rest.head? = some ':' := by
    rw [hone]
    exact head?_withReturns (by decide) (by decide) lexer.skipOne.rest
  unfold Lexer.skipSeparator
  dsimp only
  by_cases hhead : lexer.skipOne.rest.head? = some ':'
  · rw [if_pos hhead, if_pos (hcolon.mpr hhead)]
    refine hbehind.skipOne ?_
    rw [hone]
    cases hrest : lexer.skipOne.rest with
    | nil => rfl
    | cons c rest =>
      rw [hrest] at hhead
      exact withReturns_cons (by rw [Option.some.inj hhead]; decide) rest
  · rw [if_neg hhead, if_neg (mt hcolon.mp hhead)]
    exact ⟨hone, hbehind⟩

end Returned

/-! ### Names and numbers -/

/-- What is taken of a name in both sources. -/
inductive CutsAgree : NameCut → NameCut → Prop
  | error {p q : Position} (h : OnLine p q) : CutsAgree (.error p) (.error q)
  | ok (text rest : List Char) : CutsAgree (.ok (text, rest)) (.ok (text, withReturns rest))

theorem CutsAgree.cons {cut other : NameCut} (h : CutsAgree cut other) (c : Char) :
    CutsAgree (cut.cons c) (other.cons c) := by
  cases h with
  | error h => exact .error h
  | ok text rest => exact .ok (c :: text) rest

/-- **A name ends at the same place**, and so does one that does not. -/
theorem takeName_withReturns {stops source : List Char} {run run' : Option QuotedRun}
    {position position' : Position} (hrun : Option.Rel (QuotedRun.Alike OnLine) run run')
    (hline : OnLine position position')
    (hfeeds : (Region.name (Quotes.ofRun run)).FeedsOutside source) :
    CutsAgree (takeName stops run position source)
      (takeName stops run' position' (withReturns source)) := by
  fun_induction takeName stops run position source generalizing run' position' with
  | case1 =>
    cases hrun
    exact .ok [] []
  | case2 =>
    cases hrun with
    | some hrun => exact .error hrun.opened
  | case3 position rest ih =>
    cases hrun
    rw [withReturns_cons (by decide), takeName, if_pos rfl]
    have hopened : Option.Rel (QuotedRun.Alike OnLine) (some ⟨position, false⟩)
        (some ⟨position', false⟩) := .some ⟨rfl, hline⟩
    exact (ih hopened (hline.advanceBy ['"']) (Region.feedsOutside_cons.mp hfeeds).2).cons '"'
  | case4 position c rest hquote hends =>
    cases hrun
    by_cases hc : c = '\n'
    · -- The name ends at the return.
      subst hc
      rw [withReturns_feed, takeName, if_neg (by decide), if_pos (by simp [endsName])]
      exact .ok [] ('\n' :: rest)
    · rw [withReturns_cons hc, takeName, if_neg hquote, if_pos hends, ← withReturns_cons hc]
      exact .ok [] (c :: rest)
  | case5 position c rest hquote hends ih =>
    cases hrun
    have hc : c ≠ '\n' := by
      rintro rfl
      exact hends (by simp [endsName])
    have hafter : (Region.name .outside).after c = .name .outside := by
      rw [@Region.name_after stops _ c fun _ => .inr (Bool.eq_false_iff.mpr hends),
        Quotes.after_outside hquote]
    have hrest := (Region.feedsOutside_cons.mp hfeeds).2
    rw [Quotes.ofRun_none, hafter] at hrest
    rw [withReturns_cons hc, takeName, if_neg hquote, if_neg hends]
    exact (ih .none (hline.advanceBy [c]) hrest).cons c
  | case6 run position c rest ih =>
    obtain ⟨hquoted, hrest⟩ := Region.feedsOutside_cons.mp hfeeds
    have hc : c ≠ '\n' := fun hc => Bool.noConfusion (hquoted hc)
    cases hrun with
    | @some _ other hrun =>
      rw [withReturns_cons hc, takeName]
      refine (ih (hrun.after c) (hline.advanceBy [c]) ?_).cons c
      rw [Quotes.ofRun_after]
      exact hrest

namespace Returned

variable {lexer other : Lexer}

theorem readName (h : Returned lexer other) (hrest : other.rest = withReturns lexer.rest)
    (hfeeds : Region.between.FeedsOutside lexer.rest) :
    CallsAgree lexer.readName other.readName := by
  have hcut : CutsAgree (takeName lexer.stops none lexer.position lexer.rest)
      (takeName lexer.stops none other.position (withReturns lexer.rest)) :=
    takeName_withReturns .none h.line hfeeds
  unfold Lexer.readName
  rw [h.stops_eq, hrest]
  generalize takeName lexer.stops none lexer.position lexer.rest = cut,
    takeName lexer.stops none other.position (withReturns lexer.rest) = cut' at hcut
  cases hcut with
  | error hopened => exact .error _ hopened _ _
  | ok text rest =>
    refine .ok ⟨rfl, h.line, fun _ => rfl, rfl⟩ ?_
    exact ⟨.inl rfl, h.line.advanceBy text, rfl, h.pushed, h.pushed_other⟩

/-- A return behind its digits is part of a number. -/
theorem readNumber (h : Returned lexer other) (hrest : other.rest = withReturns lexer.rest) :
    CallsAgree lexer.readNumber other.readNumber := by
  obtain ⟨_, hbehind⟩ := h.skipWhile (p := inNumber) (by decide) (by decide)
  obtain ⟨returns, hreturns, htake⟩ :=
    takeWhile_withReturns (p := inNumber) (by decide) (by decide) lexer.rest
  have hdigits : (returns.all fun c => c.isDigit || c = '\r') = true :=
    List.all_eq_true.mpr fun c hc => by rw [hreturns c hc]; rfl
  unfold Lexer.readNumber
  dsimp only
  rw [hrest, htake, List.all_append, hdigits, Bool.and_true]
  split
  · refine .ok ⟨rfl, h.line, fun hkind => absurd rfl hkind, ?_⟩ hbehind
    rw [String.toList_ofList, String.toList_ofList]
    exact dropEnd_append (fun c hc => decide_eq_true (hreturns c hc)) _
  · exact .error _ hbehind.line _ _

theorem readSegment (h : Returned lexer other) (hrest : other.rest = withReturns lexer.rest)
    (hfeeds : Region.separator.FeedsOutside lexer.rest) :
    CallsAgree lexer.readSegment other.readSegment := by
  unfold Lexer.readSegment
  rw [hrest, any_isDigit_withReturns]
  split
  · exact h.readNumber hrest
  · rename_i hdigit
    exact h.readName hrest (hfeeds.between (Region.isBetween_separator hdigit))

/-! ### Calls -/

theorem read (h : Returned lexer other) (hrest : other.rest = behindReturn lexer.rest)
    (hfeeds : Region.between.FeedsOutside lexer.rest) : CallsAgree lexer.read other.read := by
  unfold Lexer.read
  cases hlexer : lexer.rest with
  | nil =>
    rw [hlexer] at hrest
    rw [hrest]
    exact .ok ⟨rfl, h.line, fun _ => rfl, rfl⟩ h
  | cons c rest =>
    have hother : other.rest = c :: withReturns rest := by rw [hrest, hlexer]; rfl
    rw [hother, h.stops_eq]
    dsimp only
    split
    · exact .ok ⟨rfl, h.line, fun _ => rfl, rfl⟩ (h.skipOne hrest).2
    · split
      · obtain ⟨hone, hbehind⟩ := h.skipOne hrest
        exact .ok ⟨rfl, h.line, fun _ => rfl, rfl⟩ (hbehind.skipComment hone)
      · rename_i hfeed
        split
        · rename_i hseparator
          obtain ⟨hskip, hbehind⟩ := h.skipSeparator hrest
          obtain ⟨front, hmem, hfront⟩ := exists_movesOver_skipSeparator hlexer hseparator
          rw [hfront.rest_eq] at hfeeds
          have hsegment := hfeeds.behind
          rw [Region.between_behind_separator hmem] at hsegment
          exact hbehind.readSegment hskip hsegment
        · split
          · exact .ok ⟨rfl, h.line, fun _ => rfl, rfl⟩ h
          · refine h.readName ?_ hfeeds
            rw [hother, hlexer, withReturns_cons hfeed]

/-- **A call in the source with returns gives a token that is read alike.** -/
theorem next (h : Returned lexer other) (hfeeds : Region.between.FeedsOutside lexer.rest) :
    CallsAgree lexer.next other.next := by
  obtain ⟨hrest, hbehind⟩ := h.skipWhile (p := isGap) (by decide) (by decide)
  rw [next_eq_read_skipWhile h.pushed, next_eq_read_skipWhile h.pushed_other]
  refine hbehind.read hrest ?_
  rw [← List.takeWhile_append_dropWhile (p := isGap) (l := lexer.rest)] at hfeeds
  have hskip := hfeeds.behind
  rwa [between_behind_gaps] at hskip

/-- A token in one source is a token in the other. -/
theorem next_of_ok (h : Returned lexer other) (hfeeds : Region.between.FeedsOutside lexer.rest)
    {token : Token} {behind : Lexer} (hnext : lexer.next = (.ok token, behind)) :
    ∃ token' behind', other.next = (.ok token', behind') ∧ token.Agrees OnLine token' ∧
      Returned behind behind' := by
  have hcalls := h.next hfeeds
  rw [hnext] at hcalls
  generalize other.next = call at hcalls ⊢
  cases hcalls with
  | ok htoken hbehind => exact ⟨_, _, rfl, htoken, hbehind⟩

/-! ### Reading to the end -/

/-- **Reading the source with returns to the end gives tokens that are read alike.** -/
theorem readAll (h : Returned lexer other) (hfeeds : Region.between.FeedsOutside lexer.rest) :
    ResultsAgree OnLine (Token.Agrees OnLine) lexer.readAll.ending other.readAll.ending ∧
      List.Forall₂ (Token.Agrees OnLine) lexer.readAll.tokens other.readAll.tokens := by
  induction lexer using readAll.induct generalizing other with
  | case1 lexer error behind hnext =>
    have hcalls := h.next hfeeds
    rw [hnext] at hcalls
    generalize hother : other.next = call at hcalls
    cases hcalls with
    | error fault hline _ behind' =>
      rw [readAll_of_error hnext, readAll_of_error hother]
      exact ⟨.error fault hline, .nil⟩
  | case2 lexer token behind hnext hend =>
    obtain ⟨token', behind', hother, htoken, _⟩ := h.next_of_ok hfeeds hnext
    rw [readAll_of_endOfFile hnext hend, readAll_of_endOfFile hother (htoken.kind_eq.trans hend)]
    exact ⟨.ok htoken, .nil⟩
  | case3 lexer token behind hnext hend _ ih =>
    obtain ⟨token', behind', hother, htoken, hbehind⟩ := h.next_of_ok hfeeds hnext
    obtain ⟨hending, htokens⟩ := ih hbehind (feedsOutside_of_next h.pushed hnext hfeeds)
    rw [readAll_of_token hnext hend, readAll_of_token hother (by rwa [htoken.kind_eq])]
    exact ⟨hending, .cons htoken htokens⟩

end Returned

/-! ### Documents -/

variable {source : String}

/-- The lines of tokens of the document with returns are read alike. -/
theorem TokenLine.ofDocument_withReturns (h : Region.lineStart.FeedsOutside source.toList) :
    List.Forall₂ (Agrees OnLine) (ofDocument source)
      (ofDocument (.ofList (withReturns source.toList))) := by
  have hrest : (Lexer.ofString (.ofList (withReturns source.toList))).rest =
      withReturns (Lexer.ofString source).rest := by
    rw [Lexer.ofString, Lexer.ofString, String.toList_ofList]
  have hstart : Returned (Lexer.ofString source)
      (Lexer.ofString (.ofList (withReturns source.toList))) := ⟨.inl hrest, rfl, rfl, rfl, rfl⟩
  obtain ⟨front, hfront, hbetween⟩ := isBetween_skipComment (Lexer.ofString source)
  have hfeeds : Region.between.FeedsOutside (Lexer.ofString source).skipComment.rest := by
    change Region.lineStart.FeedsOutside (Lexer.ofString source).rest at h
    rw [hfront] at h
    exact h.behind.between hbetween
  obtain ⟨hending, htokens⟩ := (hstart.skipComment hrest).readAll hfeeds
  rw [ofDocument_eq, ofDocument_eq]
  exact split_agrees hending htokens

namespace Database

/-- **Line endings do not matter.**  A document in which no line feed is in quotes is read as the
same database if every line feed gets a return in front of it, or refused for the same fault on the
same line. -/
theorem parse_withReturns (h : Region.lineStart.FeedsOutside source.toList) :
    (parse (.ofList (withReturns source.toList))).mapError (fun e => (e.position.line, e.fault)) =
      (parse source).mapError fun e => (e.position.line, e.fault) := by
  have hlines := Outline.foldlM_read_agrees (TokenLine.ofDocument_withReturns h) {}
  have hparse : ResultsAgree OnLine Eq (parse source)
      (parse (.ofList (withReturns source.toList))) :=
    hlines.bind fun outline other houtline => .ok (congrArg Outline.database houtline)
  generalize parse source = result, parse (.ofList (withReturns source.toList)) = other at hparse ⊢
  cases hparse with
  | @error p q fault hline =>
    have hline : q.line = p.line := hline
    show Except.error (q.line, fault) = .error (p.line, fault)
    rw [hline]
  | ok hdatabase => rw [hdatabase]

/-- A comment, names in quotes, a return that is there already, and a leaf at the end. -/
def mixedLines : String :=
  "# \"\nr#p\n\tq#f\r\n\t\t\"k\"\n\t\t\tM.x\n\t\t\t\te::1::2::3\n\t\t\t\tg::4::5::6"

/-- Its line feeds are outside of quotes, so it can have returns in front of all of them. -/
theorem parse_withReturns_mixedLines :
    Region.lineStart.FeedsOutside mixedLines.toList ∧
      ∃ database, parse mixedLines = .ok database ∧ database.size = 2 ∧
        parse (.ofList (withReturns mixedLines.toList)) = .ok database := by
  have hfeeds : Region.lineStart.FeedsOutside mixedLines.toList :=
    Region.checkFeeds_iff.mp (by cbv)
  have hread : (parse mixedLines).map size = .ok 2 := by cbv
  obtain ⟨database, hdatabase, hsize⟩ := map_eq_ok_iff.mp hread
  have hreturns := parse_withReturns hfeeds
  rw [hdatabase] at hreturns
  exact ⟨hfeeds, database, hdatabase, hsize, mapError_eq_ok_iff.mp hreturns⟩

end Database

end SymbolIndex
