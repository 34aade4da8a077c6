import SymbolIndex.Proofs.Lexer.Quotes
import SymbolIndex.Proofs.Reference.Reading

/-!
# Which references there are

A reference on one line is cut at its separators outside of quotes, and its names are the pieces.
Whatever the text is, that is all the lexer does with it: a name runs up to such a separator or
to the end, and the next call takes the separator with what stands behind it.  Two things can go
wrong.  A run of quotes may not end, or a piece behind a separator may begin with a digit, which
makes a number of it; no reference has numbers.

* `cutNames_append`: a text that is covered by its quotes is not cut.
* `readsAs_behindName`, `readsAs_name`: the names that are read from there on.
* `parse_cutNames`: which texts are read, and as what.
-/

namespace SymbolIndex

open Lexer

/-! ### The names of a reading -/

/-- The names that a reference is made of, once it is read. -/
def Reading.names (reading : Reading) : Except ParseError (List String) := do
  let tokens ← reading.tokens.mapM (·.expect PartialName.tokenKinds)
  let _ ← reading.ending
  return (tokens.filter (·.kind = .name)).map (·.text)

namespace Reading

variable {reading : Reading} {token : Token}

theorem names_of_error {error : ParseError} (h : reading.ending = .error error) :
    ∃ error, reading.names = .error error := by
  rw [names, h]
  cases reading.tokens.mapM (·.expect PartialName.tokenKinds) with
  | error error => exact ⟨error, rfl⟩
  | ok tokens => exact ⟨error, rfl⟩

/-- A name leads the names behind it. -/
theorem names_cons_name (h : token.kind = .name) :
    names { reading with tokens := token :: reading.tokens } =
      reading.names.map (token.text :: ·) := by
  have hexpect : token.expect PartialName.tokenKinds = .ok token :=
    Token.expect_eq_ok_iff.mpr ⟨rfl, by rw [h]; decide⟩
  simp only [names, List.mapM_cons, hexpect]
  cases reading.tokens.mapM (·.expect PartialName.tokenKinds) with
  | error error => rfl
  | ok tokens =>
    cases reading.ending with
    | error error => rfl
    | ok last =>
      show Except.ok _ = Except.ok _
      rw [List.filter_cons_of_pos (by simp [h])]
      rfl

/-- A tab or a newline is left out. -/
theorem names_cons_layout (h : token.kind = .tab ∨ token.kind = .newline) :
    names { reading with tokens := token :: reading.tokens } = reading.names := by
  have hname : token.kind ≠ .name := by
    rcases h with h | h <;> rw [h] <;> exact TokenKind.noConfusion
  have hexpect : token.expect PartialName.tokenKinds = .ok token :=
    Token.expect_eq_ok_iff.mpr ⟨rfl, by rcases h with h | h <;> rw [h] <;> decide⟩
  simp only [names, List.mapM_cons, hexpect]
  cases reading.tokens.mapM (·.expect PartialName.tokenKinds) with
  | error error => rfl
  | ok tokens =>
    cases reading.ending with
    | error error => rfl
    | ok last =>
      show Except.ok _ = Except.ok _
      rw [List.filter_cons_of_neg (by simp [hname])]

/-- A number is refused. -/
theorem names_cons_number (h : token.kind = .number) :
    ∃ error, names { reading with tokens := token :: reading.tokens } = .error error := by
  have hexpect : token.expect PartialName.tokenKinds =
      .error ⟨token.position, .unexpected PartialName.tokenKinds token.kind⟩ :=
    if_neg (by rw [h]; decide)
  exact ⟨_, by simp only [names, List.mapM_cons, hexpect]; rfl⟩

end Reading

theorem PartialName.parse_eq_names (source : String) :
    parse source = (Lexer.ofString source).readAll.names.map ofNames := by
  rw [parse, Reading.names]
  cases (Lexer.ofString source).readAll.tokens.mapM (·.expect tokenKinds) with
  | error error => rfl
  | ok tokens => cases (Lexer.ofString source).readAll.ending <;> rfl

/-! ### Cutting a text -/

/-- The pieces of a text between its separators outside of quotes, at least one.  A colon right
behind a separator belongs to it. -/
def cutNames : Quotes → List Char → List (List Char)
  | _, [] => [[]]
  | .outside, '/' :: ':' :: rest => [] :: cutNames .outside rest
  | .outside, ':' :: ':' :: rest => [] :: cutNames .outside rest
  | .outside, '/' :: rest => [] :: cutNames .outside rest
  | .outside, ':' :: rest => [] :: cutNames .outside rest
  | quotes, c :: rest => (cutNames (quotes.after c) rest).modifyHead (c :: ·)

theorem eq_of_isSeparator {c : Char} (h : isSeparator c = true) : c = '/' ∨ c = ':' := by
  simpa [isSeparator] using h

theorem cutNames_cons {quotes : Quotes} {c : Char}
    (h : quotes = .outside → isSeparator c = false) (rest : List Char) :
    cutNames quotes (c :: rest) = (cutNames (quotes.after c) rest).modifyHead (c :: ·) := by
  have hslash : quotes = .outside → c ≠ '/' := by
    rintro hq rfl
    cases h hq
  have hcolon : quotes = .outside → c ≠ ':' := by
    rintro hq rfl
    cases h hq
  rw [cutNames]
  · exact fun _ hq hc _ => hslash hq hc
  · exact fun _ hq hc _ => hcolon hq hc
  · exact fun hq hc => hslash hq hc
  · exact fun hq hc => hcolon hq hc

/-- **A text that is covered by its quotes is not cut.** -/
theorem cutNames_append {quotes : Quotes} {text : List Char} (h : quotes.Covers [] text)
    (rest : List Char) :
    cutNames quotes (text ++ rest) =
      (cutNames (quotes.behind text) rest).modifyHead (text ++ ·) := by
  induction text generalizing quotes with
  | nil => cases hcut : cutNames quotes rest <;> simp [hcut]
  | cons c text ih =>
    obtain ⟨hc, htext⟩ := h
    have hseparator : quotes = .outside → isSeparator c = false := by
      intro hq
      rcases hc hq with rfl | hends
      · rfl
      · simp only [endsName, Bool.or_eq_false_iff] at hends
        exact hends.1.1.1
    rw [List.cons_append, cutNames_cons hseparator, ih htext, List.modifyHead_modifyHead]
    rfl

theorem cutNames_ne_nil (quotes : Quotes) (text : List Char) : cutNames quotes text ≠ [] := by
  fun_induction cutNames quotes text <;> simp_all

/-- A separator is taken with the colon behind it, and the pieces go on behind both. -/
theorem exists_skipSeparator {c : Char} (h : isSeparator c = true) (rest : List Char)
    (position : Position) :
    ∃ text behind, skipSeparator ⟨c :: rest, position, [], none⟩ = ⟨text, behind, [], none⟩ ∧
      text <:+ rest ∧ cutNames .outside (c :: rest) = [] :: cutNames .outside text ∧
      Quotes.outside.behind (c :: rest) = Quotes.outside.behind text := by
  have hc := eq_of_isSeparator h
  have hquote : c ≠ '"' := by rcases hc with rfl | rfl <;> decide
  by_cases hcolon : rest.head? = some ':'
  · obtain ⟨text, rfl⟩ := List.head?_eq_some_iff.mp hcolon
    refine ⟨text, _, rfl, List.suffix_cons _ _, ?_, ?_⟩
    · rcases hc with rfl | rfl <;> rfl
    · rw [Quotes.behind_cons, Quotes.after_outside hquote]
      rfl
  · refine ⟨rest, _, if_neg hcolon, List.suffix_refl rest, ?_, ?_⟩
    · have hrest : ∀ more, rest = ':' :: more → False := by
        rintro more rfl
        exact hcolon rfl
      rcases hc with rfl | rfl
      · rw [cutNames]
        exact hrest
      · rw [cutNames]
        exact hrest
    · rw [Quotes.behind_cons, Quotes.after_outside hquote]

/-- In front of a separator, as at the end, there is nothing. -/
theorem cutNames_of_head? {text : List Char} (h : text.head?.all isSeparator = true) :
    ∃ more, cutNames .outside text = [] :: more := by
  cases text with
  | nil => exact ⟨[], rfl⟩
  | cons c rest =>
    obtain ⟨after, _, _, _, hcut, _⟩ := exists_skipSeparator (c := c) h rest .start
    exact ⟨cutNames .outside after, hcut⟩

/-- The first piece begins with a digit if the text does. -/
theorem isDigit_of_cutNames {text first : List Char} {more : List (List Char)}
    (h : cutNames .outside text = first :: more) :
    first.head?.any Char.isDigit = text.head?.any Char.isDigit := by
  match text with
  | [] =>
    cases h
    rfl
  | c :: rest =>
    by_cases hc : isSeparator c = true
    · have hhead : (c :: rest).head?.all isSeparator = true := hc
      obtain ⟨_, hcut⟩ := cutNames_of_head? hhead
      rw [h] at hcut
      cases hcut
      rcases eq_of_isSeparator hc with rfl | rfl <;> rfl
    · rw [cutNames_cons fun _ => Bool.eq_false_iff.mpr hc] at h
      obtain ⟨piece, pieces, hcut⟩ := List.exists_cons_of_ne_nil
        (cutNames_ne_nil (Quotes.outside.after c) rest)
      rw [hcut] at h
      cases h
      rfl

/-! ### The names of a text -/

/-- Is a text read?  Its runs of quotes end, and no piece behind a separator begins with a digit. -/
def IsReadable (text : List Char) : Prop :=
  Quotes.outside.behind text = .outside ∧
    ∀ piece ∈ (cutNames .outside text).tail, piece.head?.any Char.isDigit = false

/-- What is read of a text, which has the given pieces. -/
def ReadsAs (result : Except ParseError (List String)) (text : List Char)
    (pieces : List (List Char)) : Prop :=
  (IsReadable text → result = .ok (pieces.map String.ofList)) ∧
    (¬ IsReadable text → ∃ error, result = .error error)

/-- Neither a carriage return nor a line feed is in the text. -/
def IsOneLine (text : List Char) : Prop := '\r' ∉ text ∧ '\n' ∉ text

theorem IsOneLine.of_suffix {s t : List Char} (h : IsOneLine t) (hs : s <:+ t) : IsOneLine s :=
  ⟨fun hmem => h.1 (hs.subset hmem), fun hmem => h.2 (hs.subset hmem)⟩

/-- On one line, a name ends at a separator or at the end. -/
theorem head?_of_endsName {rest : List Char} (hline : IsOneLine rest) (h : EndsName [] rest) :
    rest.head?.all isSeparator = true := by
  cases rest with
  | nil => rfl
  | cons c rest =>
    obtain ⟨_, hc⟩ := h c rfl
    have hreturn : c ≠ '\r' := by
      rintro rfl
      exact hline.1 List.mem_cons_self
    have hfeed : c ≠ '\n' := by
      rintro rfl
      exact hline.2 List.mem_cons_self
    simpa [endsName, hreturn, hfeed] using hc

/-- What is read where a name begins.  `ih` is what is read behind it. -/
theorem readsAs_name {lexer : Lexer} {text : List Char} {position : Position}
    (hline : IsOneLine text) (hnext : lexer.next = readName ⟨text, position, [], none⟩)
    (ih : ∀ rest position, rest <:+ text → rest.head?.all isSeparator = true →
      ReadsAs (readAll ⟨rest, position, [], none⟩).names rest (cutNames .outside rest).tail) :
    ReadsAs lexer.readAll.names text (cutNames .outside text) := by
  rw [readName] at hnext
  cases hname : takeName [] none position text with
  | error opened =>
    rw [hname] at hnext
    obtain ⟨_, hopen⟩ := takeName_eq_error hname
    refine ⟨fun hreadable => absurd hreadable.1 hopen, fun _ => ?_⟩
    rw [readAll_of_error hnext]
    exact Reading.names_of_error rfl
  | ok cut =>
    obtain ⟨name, rest⟩ := cut
    rw [hname] at hnext
    obtain ⟨hcovers, hclosed, hends⟩ := takeName_eq_ok hname
    rw [Quotes.ofRun_none] at hcovers hclosed
    have hsource := takeName_append hname
    have hsuffix : rest <:+ text := ⟨name, hsource⟩
    have hhead := head?_of_endsName (hline.of_suffix hsuffix) hends
    obtain ⟨more, hmore⟩ := cutNames_of_head? hhead
    have hcut : cutNames .outside text = name :: (cutNames .outside rest).tail := by
      rw [← hsource, cutNames_append hcovers, hclosed, hmore, List.modifyHead_cons,
        List.append_nil]
      rfl
    have hreadable : IsReadable text ↔ IsReadable rest := by
      have hbehind : Quotes.outside.behind text = Quotes.outside.behind rest := by
        rw [← hsource, Quotes.behind_append, hclosed]
      rw [IsReadable, IsReadable, hcut, hbehind, List.tail_cons]
    obtain ⟨hok, herror⟩ := ih rest (position.advanceBy name) hsuffix hhead
    rw [ReadsAs, hreadable, readAll_of_token hnext TokenKind.noConfusion,
      Reading.names_cons_name rfl, hcut]
    refine ⟨fun h => ?_, fun h => ?_⟩
    · rw [hok h]
      rfl
    · obtain ⟨error, he⟩ := herror h
      exact ⟨error, by rw [he]; rfl⟩

/-- Nothing is read where a number begins. -/
theorem names_of_readNumber {lexer start : Lexer} (hnext : lexer.next = start.readNumber) :
    ∃ error, lexer.readAll.names = .error error := by
  unfold readNumber at hnext
  dsimp only at hnext
  split at hnext
  · rw [readAll_of_token hnext TokenKind.noConfusion]
    exact Reading.names_cons_number rfl
  · rw [readAll_of_error hnext]
    exact Reading.names_of_error rfl

/-- What is read behind a name: the pieces behind the next separators. -/
theorem readsAs_behindName (rest : List Char) (position : Position) (hline : IsOneLine rest)
    (hhead : rest.head?.all isSeparator = true) :
    ReadsAs (readAll ⟨rest, position, [], none⟩).names rest (cutNames .outside rest).tail := by
  induction hlength : rest.length using Nat.strong_induction_on generalizing rest position with
  | _ n ih =>
    cases rest with
    | nil =>
      refine ⟨fun _ => ?_, fun h => absurd ⟨rfl, List.forall_mem_nil _⟩ h⟩
      rw [readAll_of_endOfFile next_nil rfl]
      rfl
    | cons c rest =>
      obtain ⟨text, behind, hskip, hsuffix, hcut, hquotes⟩ :=
        exists_skipSeparator (c := c) hhead rest position
      have hnext : next ⟨c :: rest, position, [], none⟩ =
          readSegment ⟨text, behind, [], none⟩ := by
        rw [← hskip]
        rcases eq_of_isSeparator hhead with rfl | rfl <;> rfl
      rw [readSegment] at hnext
      have htext : IsOneLine text := hline.of_suffix (hsuffix.trans (List.suffix_cons c rest))
      obtain ⟨first, more, hpieces⟩ := List.exists_cons_of_ne_nil (cutNames_ne_nil .outside text)
      have hreadable : IsReadable (c :: rest) ↔
          first.head?.any Char.isDigit = false ∧ IsReadable text := by
        rw [IsReadable, IsReadable, hquotes, hcut, List.tail_cons, hpieces, List.forall_mem_cons,
          List.tail_cons]
        tauto
      rw [ReadsAs, hreadable, hcut, List.tail_cons, isDigit_of_cutNames hpieces]
      split at hnext
      · rename_i hdigit
        refine ⟨fun h => absurd (hdigit.symm.trans h.1) (by decide), fun _ => ?_⟩
        exact names_of_readNumber hnext
      · rename_i hdigit
        have hlen : text.length < n := by
          have hle := hsuffix.length_le
          simp only [List.length_cons] at hlength
          omega
        obtain ⟨hok, herror⟩ := readsAs_name htext hnext fun rest position hrest hhead =>
          ih rest.length (lt_of_le_of_lt hrest.length_le hlen) rest position
            (htext.of_suffix hrest) hhead rfl
        have hfirst := Bool.eq_false_iff.mpr hdigit
        exact ⟨fun h => hok h.2, fun h => herror fun htext => h ⟨hfirst, htext⟩⟩

/-! ### Whole references -/

/-- The names of a text as they are written: its pieces, of which none stands in front of a
separator at the start. -/
def writtenNames (text : List Char) : List (List Char) :=
  if text.head?.all isSeparator then (cutNames .outside text).tail else cutNames .outside text

theorem writtenNames_eq_nil_iff {text : List Char} : writtenNames text = [] ↔ text = [] := by
  constructor
  · intro h
    rw [writtenNames] at h
    split at h
    · rename_i hhead
      cases text with
      | nil => rfl
      | cons c rest =>
        obtain ⟨after, _, _, _, hcut, _⟩ := exists_skipSeparator (c := c) hhead rest .start
        rw [hcut] at h
        exact absurd h (cutNames_ne_nil _ after)
    · exact absurd h (cutNames_ne_nil _ text)
  · rintro rfl
    rfl

/-- Calls that give the same give the same readings. -/
theorem readAll_congr {a b : Lexer} (h : a.next = b.next) : a.readAll = b.readAll := by
  rcases hb : b.next with ⟨error | token, behind⟩
  · rw [readAll_of_error hb, readAll_of_error (h.trans hb)]
  · by_cases hend : token.kind = .endOfFile
    · rw [readAll_of_endOfFile hb hend, readAll_of_endOfFile (h.trans hb) hend]
    · rw [readAll_of_token hb hend, readAll_of_token (h.trans hb) hend]

/-- The characters that may stand in front of a reference. -/
def isLayout (c : Char) : Bool := c = ' ' || c = '\t'

/-- What is read of a text that does not begin with layout. -/
theorem readsAs_writtenNames {text : List Char} (hline : IsOneLine text)
    (hlayout : ∀ c ∈ text.head?, isLayout c = false) (position : Position) :
    ReadsAs (readAll ⟨text, position, [], none⟩).names text (writtenNames text) := by
  rw [writtenNames]
  split
  · rename_i hhead
    exact readsAs_behindName text position hline hhead
  · rename_i hhead
    obtain ⟨c, rest, rfl⟩ : ∃ c rest, text = c :: rest := by
      cases text with
      | nil => exact absurd rfl hhead
      | cons c rest => exact ⟨c, rest, rfl⟩
    have hreturn : c ≠ '\r' := fun hc => hline.1 (by simp [hc])
    have hfeed : c ≠ '\n' := fun hc => hline.2 (by simp [hc])
    have hbegins : beginsName [] c = true := by
      have hc := hlayout c rfl
      simp only [isLayout, Bool.or_eq_false_iff, decide_eq_false_iff_not] at hc
      have hseparator : isSeparator c = false := Bool.eq_false_iff.mpr hhead
      simp [beginsName, isGap, hc, hreturn, hfeed, hseparator]
    refine readsAs_name hline (next_of_beginsName hbegins position rest) ?_
    intro rest position hrest hhead
    exact readsAs_behindName rest position (hline.of_suffix hrest) hhead

/-- What is read of a text, layout in front. -/
theorem readsAs_source (source : List Char) (position : Position) (hline : IsOneLine source) :
    ReadsAs (readAll ⟨source, position, [], none⟩).names (source.dropWhile isLayout)
      (writtenNames (source.dropWhile isLayout)) := by
  induction source generalizing position with
  | nil => exact readsAs_writtenNames hline (fun _ hc => nomatch hc) position
  | cons c rest ih =>
    have hrest := hline.of_suffix (List.suffix_cons c rest)
    by_cases hspace : c = ' '
    · subst hspace
      rw [readAll_congr (next_gap rfl)]
      exact ih _ hrest
    by_cases htab : c = '\t'
    · subst htab
      rw [readAll_of_token next_tab TokenKind.noConfusion, Reading.names_cons_layout (.inl rfl)]
      exact ih _ hrest
    have hlayout : isLayout c = false := by simp [isLayout, hspace, htab]
    rw [List.dropWhile_cons_of_neg (by simp [hlayout])]
    refine readsAs_writtenNames hline ?_ position
    rintro _ ⟨⟩
    exact hlayout

namespace PartialName

/-- **Which references there are.**  A text on one line is refused if a run of quotes in it does not
end or if a piece of it behind a separator begins with a digit.  Otherwise its pieces are its names:
the last one is split into the parts of a symbol, and the others are unquoted. -/
theorem parse_cutNames {source : String} (hreturn : '\r' ∉ source.toList)
    (hfeed : '\n' ∉ source.toList) :
    let text := source.toList.dropWhile fun c => c = ' ' || c = '\t'
    ((∃ error, parse source = .error error) ↔
        Quotes.outside.behind text ≠ .outside ∨
          ∃ piece ∈ (cutNames .outside text).tail, piece.head?.any Char.isDigit = true) ∧
      ∀ name, parse source = .ok name →
        text = [] ∧ name.segments = [] ∨
          ∃ path last symbol, writtenNames text = path ++ [last] ∧
            symbol = SymbolName.ofQuoted (.ofList last) ∧
            name.segments =
              [symbol.property, symbol.delimiter, symbol.element].filter (· ≠ "") ++
                (path.map fun piece => unquote (.ofList piece)).reverse := by
  intro text
  have hreading : ReadsAs (Lexer.ofString source).readAll.names text (writtenNames text) :=
    readsAs_source source.toList .start ⟨hreturn, hfeed⟩
  have hbad : Quotes.outside.behind text ≠ .outside ∨
      (∃ piece ∈ (cutNames .outside text).tail, piece.head?.any Char.isDigit = true) ↔
        ¬ IsReadable text := by
    simp only [IsReadable, not_and_or, not_forall, Bool.not_eq_false, exists_prop, ne_eq]
  rw [hbad, parse_eq_names]
  by_cases hread : IsReadable text
  · rw [hreading.1 hread]
    refine ⟨⟨?_, fun h => absurd hread h⟩, fun name hname => ?_⟩
    · rintro ⟨_, ⟨⟩⟩
    cases hname
    rcases List.eq_nil_or_concat' (writtenNames text) with hnil | ⟨path, last, hconcat⟩
    · rw [hnil]
      exact .inl ⟨writtenNames_eq_nil_iff.mp hnil, rfl⟩
    · refine .inr ⟨path, last, _, hconcat, rfl, ?_⟩
      rw [hconcat, List.map_append, List.map_singleton, ofNames_concat, List.map_map]
      rfl
  · obtain ⟨error, herror⟩ := hreading.2 hread
    rw [herror]
    exact ⟨⟨fun _ => hread, fun _ => ⟨error, rfl⟩⟩, fun _ h => nomatch h⟩

/-- Separators, a digit and an escaped quote in quotes, a digit in front, and a number. -/
theorem parse_cutNames_marks :
    parse " \t1/:x\"/2\\\"\"::y@>z" = .ok ⟨["z", "@>", "y", "x/2\"", "1"]⟩ ∧
      ∃ error, parse "x/2\"y\"" = .error error := by
  have hread := @parse_cutNames " \t1/:x\"/2\\\"\"::y@>z" (by decide) (by decide)
  have hrefuse := @parse_cutNames "x/2\"y\"" (by decide) (by decide)
  refine ⟨?_, hrefuse.1.mpr (.inr ⟨['2', '"', 'y', '"'], by decide, by decide⟩)⟩
  rcases hparse : parse " \t1/:x\"/2\\\"\"::y@>z" with error | name
  · exact absurd (hread.1.mp ⟨error, hparse⟩) (by decide)
  · obtain ⟨hnil, _⟩ | ⟨path, last, symbol, hwritten, rfl, hsegments⟩ := hread.2 name hparse
    · exact absurd hnil (by decide)
    · have hnames : writtenNames "1/:x\"/2\\\"\"::y@>z".toList =
          ["1".toList, "x\"/2\\\"\"".toList] ++ ["y@>z".toList] := by decide
      obtain ⟨rfl, hlast⟩ := List.append_inj' (hwritten.symm.trans hnames) rfl
      cases hlast
      exact congrArg (Except.ok ∘ PartialName.mk) (hsegments.trans (by decide))

end PartialName

end SymbolIndex
