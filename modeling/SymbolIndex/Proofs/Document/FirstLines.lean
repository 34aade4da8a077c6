import Mathlib
import SymbolIndex.Proofs.Database.Reachable
import SymbolIndex.Proofs.Document.BlankLines
import SymbolIndex.Proofs.Document.Concatenation
import SymbolIndex.Proofs.Lexer.Places

/-!
# The first line that is wrong

A document that is refused is refused for its first line that is wrong, wherever the error was
noticed: in a token, behind the tokens of a line, or in the entry that the line declares.  So the
lines before it make a document, and the lines behind it do not matter.  A document that is read can
be cut behind each line, and what is read then is what had been read so far.

Both sides rest on `parse_front`: the front of a document that ends with a line feed is refused, and
then so is every document that it begins, or reading goes on behind it.  Which of the two it is for
an error at a given place is told by its offset.  An error of the front is in front of its end; that
an error of the rest is behind it is true since positions of the rest are shifted by the front.  The
line of an error is that of its place, so it is found by counting line feeds up to its offset.

* `Database.isPlaceIn_of_parse`: an error is at a place of the document.
* `parse_firstLines`: the first line that is wrong.
-/

namespace SymbolIndex

open Lexer

/-! ### The first lines of a text -/

/-- The first `n` lines of a text with their line feeds. -/
def takeLines : Nat → List Char → List Char
  | 0, _ => []
  | _ + 1, [] => []
  | n + 1, c :: text => c :: takeLines (if c = '\n' then n else n + 1) text

/-- The document of the first `n` lines. -/
def firstLines (n : Nat) (source : String) : String := .ofList (takeLines n source.toList)

theorem exists_takeLines_append (n : Nat) (text : List Char) :
    ∃ back, text = takeLines n text ++ back := by
  induction text generalizing n with
  | nil =>
    cases n with
    | zero => exact ⟨[], rfl⟩
    | succ n => exact ⟨[], rfl⟩
  | cons c text ih =>
    cases n with
    | zero => exact ⟨c :: text, rfl⟩
    | succ n =>
      obtain ⟨back, hback⟩ := ih (if c = '\n' then n else n + 1)
      exact ⟨back, congrArg (c :: ·) hback⟩

theorem takeLines_of_lt {n : Nat} {text : List Char} (h : text.count '\n' < n) :
    takeLines n text = text := by
  induction text generalizing n with
  | nil =>
    cases n with
    | zero => rfl
    | succ n => rfl
  | cons c text ih =>
    cases n with
    | zero => omega
    | succ n =>
      rw [takeLines, ih]
      rw [List.count_cons] at h
      split
      · rename_i hc
        rw [if_pos (by simp [hc])] at h
        omega
      · rename_i hc
        rw [if_neg (by simp [hc])] at h
        omega

theorem takeLines_of_le {n : Nat} {text : List Char} (h : n ≤ text.count '\n') :
    (takeLines n text).count '\n' = n ∧
      (takeLines n text = [] ∨ ∃ body, takeLines n text = body ++ ['\n']) := by
  induction text generalizing n with
  | nil =>
    obtain rfl : n = 0 := Nat.le_zero.mp h
    exact ⟨rfl, .inl rfl⟩
  | cons c text ih =>
    cases n with
    | zero => exact ⟨rfl, .inl rfl⟩
    | succ n =>
      rw [List.count_cons] at h
      rw [takeLines, List.count_cons]
      by_cases hc : c = '\n'
      · subst hc
        rw [if_pos rfl] at *
        obtain ⟨hcount, hends⟩ := @ih n (by simpa using h)
        refine ⟨by simp [hcount], .inr ?_⟩
        rcases hends with hnil | ⟨body, hbody⟩
        · exact ⟨[], by rw [hnil]; rfl⟩
        · exact ⟨'\n' :: body, by rw [hbody]; rfl⟩
      · rw [if_neg (by simp [hc])] at h
        rw [if_neg hc, if_neg (by simp [hc])]
        obtain ⟨hcount, hends⟩ := ih h
        refine ⟨hcount, .inr ?_⟩
        rcases hends with hnil | ⟨body, hbody⟩
        · rw [hnil] at hcount
          cases hcount
        · exact ⟨c :: body, by rw [hbody]; rfl⟩

/-- The lines in front of the one that a text breaks off are part of the text. -/
theorem takeLines_prefix (front back : List Char) :
    takeLines (front.count '\n') (front ++ back) <+: front := by
  induction front with
  | nil => cases back <;> exact List.prefix_refl []
  | cons c front ih =>
    by_cases hc : c = '\n'
    · subst hc
      rw [List.count_cons_self, List.cons_append, takeLines, if_pos rfl]
      exact (List.prefix_cons_inj _).mpr ih
    · rw [List.count_cons_of_ne hc]
      cases hcount : front.count '\n' with
      | zero => exact List.nil_prefix
      | succ n =>
        rw [List.cons_append, takeLines, if_neg hc, ← hcount]
        exact (List.prefix_cons_inj _).mpr ih

/-- With that line they go further than the text. -/
theorem append_prefix_takeLines (front : List Char) (c : Char) (back : List Char) :
    front ++ [c] <+: takeLines (front.count '\n' + 1) (front ++ c :: back) := by
  induction front with
  | nil => exact ⟨_, rfl⟩
  | cons d front ih =>
    rw [List.cons_append, List.cons_append, takeLines]
    refine (List.prefix_cons_inj _).mpr ?_
    by_cases hd : d = '\n'
    · subst hd
      rw [List.count_cons_self, if_pos rfl]
      exact ih
    · rw [List.count_cons_of_ne hd, if_neg hd]
      exact ih

/-- A document whose line feeds are in no quotes ends outside of quotes where it is cut behind a
line feed. -/
theorem endsOutside_of_feedsOutside {source body back : String}
    (h : Region.lineStart.FeedsOutside source.toList) (hsource : source = body ++ "\n" ++ back) :
    EndsOutside (body ++ "\n") := by
  refine .inr ⟨body, rfl, h body.toList back.toList ?_⟩
  rw [hsource, String.toList_append, String.toList_append, List.append_assoc]
  rfl

/-- The first lines of a document, and what is behind them. -/
theorem exists_firstLines_append {source : String} (h : Region.lineStart.FeedsOutside source.toList)
    {n : Nat} (hn : n ≤ source.toList.count '\n') :
    ∃ back, source = firstLines n source ++ back ∧ EndsOutside (firstLines n source) ∧
      (firstLines n source).toList.count '\n' = n := by
  obtain ⟨back, hback⟩ := exists_takeLines_append n source.toList
  obtain ⟨hcount, hends⟩ := takeLines_of_le hn
  have hsource : source = firstLines n source ++ .ofList back := by
    rw [← String.toList_inj, firstLines, String.toList_append, String.toList_ofList,
      String.toList_ofList]
    exact hback
  refine ⟨.ofList back, hsource, ?_, by rwa [firstLines, String.toList_ofList]⟩
  rcases hends with hnil | ⟨body, hbody⟩
  · exact .inl (congrArg String.ofList hnil)
  · have hfirst : firstLines n source = .ofList body ++ "\n" := by
      rw [firstLines, hbody, String.ofList_append]
    rw [hfirst] at hsource ⊢
    exact endsOutside_of_feedsOutside h hsource

/-! ### Where errors are -/

namespace TokenLine

variable {P : Position → Prop} {line : TokenLine}

/-- Lines of tokens at places of which `P` holds. -/
theorem split_agrees_self {ending : Except ParseError Token} {tokens : List Token}
    (htokens : ∀ token ∈ tokens, P token.position) (hending : P (placeOf ending)) :
    List.Forall₂ (Agrees fun p _ => P p) (split ending tokens) (split ending tokens) := by
  refine split_agrees ?_ (List.forall₂_same.mpr fun token hmem => ?_)
  · cases ending with
    | error error => exact .error error.fault hending
    | ok token => exact .ok ⟨rfl, hending, fun _ => rfl, rfl⟩
  · exact ⟨rfl, htokens token hmem, fun _ => rfl, rfl⟩

end TokenLine

/-- An error of a document is where one of its tokens is, or its ending. -/
theorem Outline.position_of_foldlM {P : Position → Prop} {lines : List TokenLine}
    (hlines : List.Forall₂ (TokenLine.Agrees fun p _ => P p) lines lines) {outline : Outline}
    {error : ParseError} (h : lines.foldlM read outline = .error error) : P error.position := by
  have hagrees := foldlM_read_agrees hlines outline
  rw [h] at hagrees
  cases hagrees with
  | error fault hposition => exact hposition

/-- **An error is at a place of the document.** -/
theorem Database.isPlaceIn_of_parse {source : String} {error : ParseError}
    (h : parse source = .error error) : error.position.IsPlaceIn source.toList := by
  obtain ⟨htokens, hending⟩ := @isPlaceIn_of_readAll _ source ""
    (Lexer.ofString source).movesTo_skipComment (Lexer.ofString source).pushed_skipComment
  exact Outline.position_of_foldlM (TokenLine.split_agrees_self htokens hending)
    (map_eq_error_iff.mp h)

/-- The tokens of a document that ends with a line feed are all in front of its end, and so is an
error of the lexer. -/
theorem offset_of_readDocument {front : String} (h : front.toList.getLast? = some '\n') :
    (∀ token ∈ (readDocument front).tokens, token.position.offset < front.utf8ByteSize) ∧
      ∀ error, (readDocument front).ending = .error error → IsClosed (readDocument front).ending →
        error.position.offset < front.utf8ByteSize := by
  have hlexer : (Lexer.ofString front).EndsLine := h
  have hend : (Lexer.ofString front).skipComment.endOffset = front.utf8ByteSize := by
    rw [(Lexer.ofString front).movesTo_skipComment.endOffset_eq, endOffset, remainder,
      Lexer.ofString, String.ofList_toList]
    exact Nat.zero_add _
  obtain ⟨hends, _⟩ := hlexer.skipComment []
  rw [← hend]
  exact hends.offset_lt_of_readAll (Lexer.ofString front).pushed_skipComment
    (Lexer.ofString front).movesTo_skipComment.stops_eq

/-- The lines of a document that ends with a line feed, the empty one behind it apart. -/
theorem TokenLine.agrees_lines {front : String}
    (h : front = "" ∨ front.toList.getLast? = some '\n') {lines : List TokenLine} {last : Token}
    (hlines : ofDocument front = lines ++ [⟨[], .ok last⟩]) :
    List.Forall₂ (Agrees fun p _ => p.offset < front.utf8ByteSize) lines lines := by
  rw [ofDocument_eq] at hlines
  rcases h with rfl | h
  · rw [readDocument_empty] at hlines
    obtain rfl : lines = [] := by
      have hlength := congrArg List.length hlines
      simpa [split] using hlength
    exact .nil
  · -- The line that ends the tokens is left out, so it may end as another token would.
    obtain ⟨others, _, hsplit, _⟩ := exists_split_eq_append (readDocument front).tokens
    rw [hsplit] at hlines
    obtain rfl := (List.append_inj' hlines rfl).1
    have hsize : 0 < front.utf8ByteSize := by
      refine Nat.pos_of_ne_zero fun hempty => ?_
      rw [String.utf8ByteSize_eq_zero_iff.mp hempty] at h
      cases h
    have hall := @split_agrees_self (fun p => p.offset < front.utf8ByteSize)
      (.ok ⟨.newline, "\n", .start⟩) _ (offset_of_readDocument h).1 hsize
    rw [hsplit] at hall
    have htake := List.forall₂_take_append _ others _ hall
    rwa [List.take_left] at htake

/-- An error of lines that begin behind a text is behind it. -/
theorem Outline.offset_of_foldlM_behind {outline : Outline} {front back : String}
    {error : ParseError}
    (h : ((TokenLine.ofDocument back).map
      (TokenLine.shifted (Position.behind front.toList))).foldlM read outline = .error error) :
    front.utf8ByteSize ≤ error.position.offset := by
  rw [foldlM_read_shifted] at h
  cases hread : (TokenLine.ofDocument back).foldlM read outline with
  | ok after =>
    rw [hread] at h
    cases h
  | error other =>
    rw [hread] at h
    cases h
    show front.utf8ByteSize ≤ (String.ofList front.toList).utf8ByteSize + other.position.offset
    rw [String.ofList_toList]
    exact Nat.le_add_right _ _

/-! ### Fronts of a document -/

namespace Database

/-- Reading on adds entries behind those there are. -/
theorem entries_prefix_of_foldlM {lines : List TokenLine} {outline after : Outline}
    (h : lines.foldlM Outline.read outline = .ok after) :
    outline.database.entries <+: after.database.entries := by
  refine foldlM_induction (p := fun other => outline.database.entries <+: other.database.entries)
    (fun before tokens _ after hread hprefix => ?_) h (List.prefix_refl _)
  rcases Outline.read_eq_ok hread with hsame | ⟨entry, _, hinsert⟩
  · rwa [hsame]
  · rw [entries_of_insert hinsert]
    exact hprefix.trans (List.prefix_append _ _)

/-- **The front of a document** that ends with a line feed is refused for an error in it, and so is
every document that goes on with it.  Or it is read, and documents that go on with it are refused
for errors behind it, or are read with its entries in front. -/
theorem parse_front {front : String} (h : EndsOutside front) :
    (∃ error, error.position.offset < front.utf8ByteSize ∧
      ∀ back, parse (front ++ back) = .error error) ∨
    ∃ initial, parse front = .ok initial ∧ ∀ back,
      (∀ error, parse (front ++ back) = .error error →
        front.utf8ByteSize ≤ error.position.offset) ∧
      ∀ database, parse (front ++ back) = .ok database → initial.entries <+: database.entries := by
  cases hending : (readDocument front).ending with
  | error error =>
    have hclosed := h.isClosed
    rcases h.getLast? with rfl | hlast
    · rw [TokenLine.readDocument_empty] at hending
      cases hending
    have hall := TokenLine.ofDocument_append_of_error hlast hending hclosed
    cases hparse : parse front with
    | ok database =>
      obtain ⟨last, hlast⟩ := ending_eq_ok hparse
      rw [hending] at hlast
      cases hlast
    | error other =>
      refine .inl ⟨other, ?_, fun back => ?_⟩
      · obtain ⟨htokens, herror⟩ := offset_of_readDocument hlast
        have hplace : (placeOf (readDocument front).ending).offset < front.utf8ByteSize := by
          rw [hending]
          exact herror error hending hclosed
        exact Outline.position_of_foldlM (P := fun p => p.offset < front.utf8ByteSize)
          (TokenLine.split_agrees_self htokens hplace) (map_eq_error_iff.mp hparse)
      · rw [← hparse, parse, hall]
        rfl
  | ok last =>
    obtain ⟨lines, hlines, hmore⟩ := TokenLine.ofDocument_append_of_ok h.getLast? hending
    have hkind := kind_of_ending_readAll hending
    cases hread : lines.foldlM Outline.read {} with
    | error error =>
      refine .inl ⟨error, Outline.position_of_foldlM
        (TokenLine.agrees_lines h.getLast? hlines) hread, fun back => ?_⟩
      rw [parse, hmore, List.foldlM_append, hread]
      rfl
    | ok outline =>
      have hback (back : String) : parse (front ++ back) =
          (((TokenLine.ofDocument back).map
            (TokenLine.shifted (Position.behind front.toList))).foldlM Outline.read outline).map
              (·.database) := by
        rw [parse, hmore, List.foldlM_append, hread]
        rfl
      refine .inr ⟨outline.database, ?_, fun back => ⟨fun error herror => ?_, fun _ hok => ?_⟩⟩
      · rw [parse, hlines, List.foldlM_append, hread]
        show List.foldlM Outline.read outline _ >>= _ = _
        rw [List.foldlM_cons, Outline.read, TokenLine.read_end hkind]
        rfl
      · rw [hback] at herror
        exact Outline.offset_of_foldlM_behind (map_eq_error_iff.mp herror)
      · rw [hback] at hok
        obtain ⟨after, hafter, rfl⟩ := map_eq_ok_iff.mp hok
        exact entries_prefix_of_foldlM hafter

/-! ### The first line that is wrong -/

section FirstLines

variable {front back source : String}

theorem utf8ByteSize_le_of_prefix {front text : List Char} (h : front <+: text) :
    (String.ofList front).utf8ByteSize ≤ (String.ofList text).utf8ByteSize := by
  obtain ⟨back, rfl⟩ := h
  rw [String.ofList_append, String.utf8ByteSize_append]
  exact Nat.le_add_right _ _

/-- The lines in front of a place end in front of it. -/
theorem utf8ByteSize_firstLines_le (h : source = front ++ back) :
    (firstLines (front.toList.count '\n') source).utf8ByteSize ≤ front.utf8ByteSize := by
  have hprefix := takeLines_prefix front.toList back.toList
  rw [← String.toList_append, ← h] at hprefix
  have hle := utf8ByteSize_le_of_prefix hprefix
  rwa [String.ofList_toList] at hle

/-- With the line of a place they end behind it, unless the source ends there. -/
theorem lt_utf8ByteSize_firstLines (h : source = front ++ back)
    (hlines : front.toList.count '\n' < source.toList.count '\n') :
    front.utf8ByteSize < (firstLines (front.toList.count '\n' + 1) source).utf8ByteSize := by
  rw [h, String.toList_append, List.count_append] at hlines
  obtain ⟨c, rest, hrest⟩ : ∃ c rest, back.toList = c :: rest := by
    cases hback : back.toList with
    | nil =>
      rw [hback] at hlines
      exact absurd hlines (Nat.lt_irrefl _)
    | cons c rest => exact ⟨c, rest, rfl⟩
  have hprefix := append_prefix_takeLines front.toList c rest
  rw [← hrest, ← String.toList_append, ← h] at hprefix
  have hle := utf8ByteSize_le_of_prefix hprefix
  rw [String.ofList_append, String.ofList_toList, String.utf8ByteSize_append] at hle
  have hc : 0 < (String.ofList [c]).utf8ByteSize := by
    rw [← String.singleton_eq_ofList, String.utf8ByteSize_singleton]
    exact c.utf8Size_pos
  exact (Nat.lt_add_of_pos_right hc).trans_le hle

/-- The lines in front of an error make a document, and with its own line they are refused for
it. -/
theorem parse_firstLines_of_error (h : Region.lineStart.FeedsOutside source.toList)
    {error : ParseError} (herror : parse source = .error error) (hsource : source = front ++ back)
    (hoffset : error.position.offset = front.utf8ByteSize) :
    (∃ database, parse (firstLines (front.toList.count '\n') source) = .ok database) ∧
      parse (firstLines (front.toList.count '\n' + 1) source) = .error error := by
  have hcount : front.toList.count '\n' ≤ source.toList.count '\n' := by
    rw [hsource, String.toList_append, List.count_append]
    exact Nat.le_add_right _ _
  constructor
  · obtain ⟨later, hlater, hends, _⟩ := exists_firstLines_append h hcount
    rcases parse_front hends with ⟨other, hother, hall⟩ | ⟨initial, hinitial, _⟩
    · have hsame := hall later
      rw [← hlater, herror] at hsame
      cases hsame
      have hle := utf8ByteSize_firstLines_le hsource
      omega
    · exact ⟨initial, hinitial⟩
  · by_cases hlines : front.toList.count '\n' < source.toList.count '\n'
    · obtain ⟨later, hlater, hends, _⟩ :=
        @exists_firstLines_append source h (front.toList.count '\n' + 1) hlines
      rcases parse_front hends with ⟨other, _, hall⟩ | ⟨_, _, hall⟩
      · have hsame := hall later
        rw [← hlater, herror] at hsame
        cases hsame
        have hempty := hall ""
        rwa [String.append_empty] at hempty
      · have hbehind := (hall later).1 error (by rw [← hlater, herror])
        have hlt := lt_utf8ByteSize_firstLines hsource hlines
        omega
    · rw [firstLines, takeLines_of_lt (by omega), String.ofList_toList, herror]

end FirstLines

/-- **The first line that is wrong.**  If a document is refused, the error is at a place of it.  The
lines in front of the one where that is make a document that is read, and up to that line it is
refused for the same error.  If it is read, it can be cut behind any line feed, and its first
entries are what is read then.

The line is counted by the line feeds in front of the place.  The error tells it as far as its
counter reaches. -/
theorem parse_firstLines (source : String) (h : Region.lineStart.FeedsOutside source.toList) :
    (∀ error, parse source = .error error →
      ∃ front back, source = front ++ back ∧ error.position.offset = front.utf8ByteSize ∧
        let n := front.toList.count '\n'
        error.position.line = .ofNat (n + 1) ∧
        (∃ database, parse (firstLines n source) = .ok database) ∧
        parse (firstLines (n + 1) source) = .error error) ∧
    ∀ database, parse source = .ok database → ∀ front back, source = front ++ "\n" ++ back →
      ∃ initial, parse (front ++ "\n") = .ok initial ∧ initial.entries <+: database.entries := by
  refine ⟨fun error herror => ?_, fun database hread front back hsource => ?_⟩
  · obtain ⟨front, back, hsource, hposition, hoffset⟩ := (isPlaceIn_of_parse herror).exists_front
    refine ⟨front, back, hsource, hoffset, ?_, parse_firstLines_of_error h herror hsource hoffset⟩
    rw [hposition, Position.line_advanceBy_start]
  · rcases parse_front (endsOutside_of_feedsOutside h hsource) with
      ⟨error, _, hall⟩ | ⟨initial, hinitial, hall⟩
    · have hother := hall back
      rw [← hsource, hread] at hother
      cases hother
    · exact ⟨initial, hinitial, (hall back).2 database (by rw [← hsource, hread])⟩

/-- A front of a text is told by its size. -/
theorem eq_of_utf8ByteSize_eq {front back front' back' : String}
    (h : front ++ back = front' ++ back')
    (hsize : front.utf8ByteSize = front'.utf8ByteSize) : front = front' := by
  have hbytes := congrArg String.toByteArray h
  rw [String.toByteArray_append, String.toByteArray_append] at hbytes
  exact String.toByteArray_inj.mp (ByteArray.append_inj_left hbytes hsize)

/-- The element of a class is declared again.  In the line behind that, a run of quotes is open. -/
def declaredTwice : String := commentedDocument ++ "\t\t\t\tg::4::5::6\n\""

/-- The second declaration is refused.  Two classes that go together are cut between them. -/
theorem parse_firstLines_classes :
    Region.lineStart.FeedsOutside declaredTwice.toList ∧
      (∃ database, parse (firstLines 6 declaredTwice) = .ok database) ∧
      parse declaredTwice = .error ⟨⟨48, 7, 5⟩, .duplicateEntry⟩ ∧
      parse (firstLines 7 declaredTwice) = .error ⟨⟨48, 7, 5⟩, .duplicateEntry⟩ ∧
      Region.lineStart.FeedsOutside (classDocument ++ commentedDocument).toList ∧
      ∃ database initial, parse (classDocument ++ commentedDocument) = .ok database ∧
        parse classDocument = .ok initial ∧ database.size = 2 ∧
        initial.entries <+: database.entries := by
  have hfeeds : Region.lineStart.FeedsOutside declaredTwice.toList :=
    Region.checkFeeds_iff.mp (by cbv)
  have herror : (parse declaredTwice).map size = .error ⟨⟨48, 7, 5⟩, .duplicateEntry⟩ := by cbv
  have herror := map_eq_error_iff.mp herror
  obtain ⟨front, back, hsource, hoffset, _, hfront, hline⟩ :=
    (parse_firstLines declaredTwice hfeeds).1 _ herror
  obtain rfl : front = commentedDocument ++ "\t\t\t\t" :=
    @eq_of_utf8ByteSize_eq _ back _ "g::4::5::6\n\"" hsource.symm hoffset.symm
  have hcount : (commentedDocument ++ "\t\t\t\t").toList.count '\n' = 6 := by cbv
  rw [hcount] at hfront hline
  have hfeeds' : Region.lineStart.FeedsOutside (classDocument ++ commentedDocument).toList :=
    Region.checkFeeds_iff.mp (by cbv)
  have hread : (parse (classDocument ++ commentedDocument)).map size = .ok 2 := by cbv
  obtain ⟨database, hdatabase, hsize⟩ := map_eq_ok_iff.mp hread
  have hcut := (parse_firstLines (classDocument ++ commentedDocument) hfeeds').2 database hdatabase
    "r#p\n\tq#f\n\t\tk\n\t\t\tM.x\n\t\t\t\te::1::2::3" commentedDocument rfl
  obtain ⟨initial, hinitial, hprefix⟩ := hcut
  exact ⟨hfeeds, hfront, herror, hline, hfeeds', database, initial, hdatabase, hinitial, hsize,
    hprefix⟩

end Database

end SymbolIndex
