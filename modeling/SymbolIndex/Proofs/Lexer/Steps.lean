import SymbolIndex.Lexer.Reading
import SymbolIndex.Text.Quoted

/-!
# What a lexer gives for a text that is known

The other files on the lexer say what every source has in common.  Here the front of the
source is known, and so is the call that takes it: a tab, a line feed, a name where a
token begins, a name or a number behind a colon.  Whatever follows is left as it is.

A name is known by `Passes`: the lexer runs over the text of the name and is outside of
quotes again.  Texts that pass can be laid end to end, so it is enough to look at plain
text and at one run of quotes.

* `passes_of_bare`, `passes_encode`: both of these pass.
* `Gives.readAll_eq`: calls that give tokens one after another give the front of the
  reading.
-/

namespace SymbolIndex

/-! ### Where a stretch of text ends -/

theorem getLast?_ne_of_cons {c d : Char} {text : List Char}
    (h : (c :: text).getLast? ≠ some d) : text.getLast? ≠ some d := by
  intro htext
  apply h
  rw [List.getLast?_cons, htext, Option.getD_some]

/-- A stretch that satisfies `p` ends where a character does not. -/
theorem span_append {α : Type} {p : α → Bool} {front rest : List α}
    (hfront : ∀ a ∈ front, p a = true) (hrest : ∀ a ∈ rest.head?, p a = false) :
    (front ++ rest).takeWhile p = front ∧ (front ++ rest).dropWhile p = rest := by
  rw [List.takeWhile_append_of_pos hfront, List.dropWhile_append_of_pos hfront]
  cases rest with
  | nil => exact ⟨List.append_nil front, rfl⟩
  | cons a rest =>
    have hstop : ¬ p a = true := Bool.eq_false_iff.mp (hrest a rfl)
    rw [List.takeWhile_cons_of_neg hstop, List.dropWhile_cons_of_neg hstop, List.append_nil]
    exact ⟨rfl, rfl⟩

namespace Lexer

/-! ### Runs of calls -/

/-- A run of calls that gives the tokens one after another. -/
inductive Gives : Lexer → List Token → Lexer → Prop
  | nil (lexer : Lexer) : Gives lexer [] lexer
  | cons {lexer behind last : Lexer} {token : Token} {tokens : List Token}
      (hnext : lexer.next = (.ok token, behind)) (hkind : token.kind ≠ .endOfFile)
      (hrest : Gives behind tokens last) : Gives lexer (token :: tokens) last

theorem Gives.append {lexer middle last : Lexer} {front back : List Token}
    (hfront : Gives lexer front middle) (hback : Gives middle back last) :
    Gives lexer (front ++ back) last := by
  induction hfront with
  | nil => exact hback
  | cons hnext hkind _ ih => exact .cons hnext hkind (ih hback)

theorem Gives.readAll_eq {lexer last : Lexer} {tokens : List Token}
    (h : Gives lexer tokens last) :
    lexer.readAll = { last.readAll with tokens := tokens ++ last.readAll.tokens } := by
  induction h with
  | nil => rfl
  | cons hnext hkind _ ih => rw [readAll_of_token hnext hkind, ih]; rfl

/-! ### Texts that a name runs over -/

/-- A name that goes on with `text`. -/
def NameCut.prepend (text : List Char) (cut : NameCut) : NameCut :=
  cut.map fun (front, rest) => (text ++ front, rest)

theorem NameCut.prepend_nil (cut : NameCut) : cut.prepend [] = cut := by
  cases cut <;> rfl

theorem NameCut.prepend_cons (c : Char) (text : List Char) (cut : NameCut) :
    (cut.prepend text).cons c = cut.prepend (c :: text) := by
  cases cut <;> rfl

theorem NameCut.prepend_append (s t : List Char) (cut : NameCut) :
    (cut.prepend t).prepend s = cut.prepend (s ++ t) := by
  cases cut with
  | error => rfl
  | ok v => simp [prepend, Except.map]

/-- A name runs over `text` and is outside of quotes behind it. -/
def Passes (stops text : List Char) : Prop :=
  ∀ position rest, takeName stops none position (text ++ rest) =
    (takeName stops none (position.advanceBy text) rest).prepend text

variable {stops : List Char}

theorem passes_nil : Passes stops [] := fun _ _ => (NameCut.prepend_nil _).symm

theorem Passes.append {s t : List Char} (hs : Passes stops s) (ht : Passes stops t) :
    Passes stops (s ++ t) := by
  intro position rest
  rw [List.append_assoc, hs, ht, NameCut.prepend_append, Position.advanceBy_append]

theorem passes_of_bare {text : List Char}
    (h : ∀ c ∈ text, c ≠ '"' ∧ endsName stops c = false) : Passes stops text := by
  induction text with
  | nil => exact passes_nil
  | cons c text ih =>
    intro position rest
    obtain ⟨hquote, hends⟩ := h c List.mem_cons_self
    rw [List.cons_append, takeName, if_neg hquote, if_neg (by simp [hends]),
      ih fun d hd => h d (List.mem_cons_of_mem c hd)]
    exact NameCut.prepend_cons c text _

theorem after_quote {run : QuotedRun} (h : run.escape = false) : run.after '"' = none := by
  rw [QuotedRun.after, h]
  rfl

theorem after_escaped_quote {run : QuotedRun} (h : run.escape = true) :
    run.after '"' = some { run with escape := false } := by
  rw [QuotedRun.after, h]
  rfl

theorem after_of_ne (run : QuotedRun) {c : Char} (h : c ≠ '"') :
    run.after c = some { run with escape := c = '\\' } := by
  rw [QuotedRun.after, if_neg (by simp [h])]

/-- What is behind the opening quote.  A backslash at the end would keep the quote open, and so
would one in front of an empty text. -/
theorem takeName_escape {text : List Char} {run : QuotedRun}
    (hrun : text = [] → run.escape = false) (hlast : text.getLast? ≠ some '\\')
    (position : Position) (rest : List Char) :
    takeName stops (some run) position (Quoted.escape text ++ '"' :: rest) =
      (takeName stops none (position.advanceBy (Quoted.escape text ++ ['"'])) rest).prepend
        (Quoted.escape text ++ ['"']) := by
  induction text generalizing run position with
  | nil =>
    rw [Quoted.escape, List.nil_append, takeName, after_quote (hrun rfl)]
    exact (congrArg _ (NameCut.prepend_nil _).symm).trans (NameCut.prepend_cons '"' [] _)
  | cons c text ih =>
    have hlast' := getLast?_ne_of_cons hlast
    by_cases hc : c = '"'
    · rw [Quoted.escape, if_pos hc, List.cons_append, List.cons_append, takeName,
        after_of_ne run (by decide), takeName, after_escaped_quote (by rfl),
        ih (fun _ => rfl) hlast', NameCut.prepend_cons, NameCut.prepend_cons]
      rfl
    · -- The character in front of the closing quote is this one when nothing follows it.
      have hescape : text = [] → decide (c = '\\') = false := by
        rintro rfl
        exact decide_eq_false fun h => hlast (by rw [h]; rfl)
      rw [Quoted.escape, if_neg hc, List.cons_append, takeName, after_of_ne run hc,
        ih hescape hlast', NameCut.prepend_cons]
      rfl

theorem passes_encode {text : List Char} (hlast : text.getLast? ≠ some '\\') :
    Passes stops (Quoted.encode text) := by
  intro position rest
  rw [Quoted.encode, List.cons_append, List.append_assoc, List.singleton_append, takeName,
    if_pos rfl, takeName_escape (fun _ => rfl) hlast, NameCut.prepend_cons]
  rfl

/-! ### One call -/

variable {position : Position} {text rest : List Char}

/-- Nothing of `rest` is taken by a name that runs up to it. -/
def EndsName (stops rest : List Char) : Prop :=
  ∀ c ∈ rest.head?, c ≠ '"' ∧ endsName stops c = true

theorem takeName_of_endsName (h : EndsName stops rest) :
    takeName stops none position rest = .ok ([], rest) := by
  cases rest with
  | nil => rfl
  | cons c rest =>
    obtain ⟨hquote, hends⟩ := h c rfl
    rw [takeName, if_neg hquote, if_pos hends]

theorem Passes.takeName_eq (hpasses : Passes stops text) (hends : EndsName stops rest) :
    takeName stops none position (text ++ rest) = .ok (text, rest) := by
  rw [hpasses, takeName_of_endsName hends]
  simp [NameCut.prepend, Except.map]

theorem Passes.readName_eq (hpasses : Passes stops text) (hends : EndsName stops rest) :
    readName ⟨text ++ rest, position, stops, none⟩ =
      (.ok ⟨.name, .ofList text, position⟩,
        ⟨rest, position.advanceBy text, stops, none⟩) := by
  rw [readName]
  simp only [hpasses.takeName_eq hends]

theorem skipWhile_append {p : Char → Bool} (front : List Char)
    (hfront : ∀ c ∈ front, p c = true) (hrest : ∀ c ∈ rest.head?, p c = false) :
    skipWhile ⟨front ++ rest, position, stops, none⟩ p =
      ⟨rest, position.advanceBy front, stops, none⟩ := by
  obtain ⟨htake, hdrop⟩ := span_append hfront hrest
  simp only [skipWhile, htake, hdrop]

theorem next_eq_read (h : ∀ c ∈ rest.head?, isGap c = false) :
    next ⟨rest, position, stops, none⟩ = read ⟨rest, position, stops, none⟩ :=
  congrArg read (skipWhile_append [] (fun _ hc => nomatch hc) h)

theorem next_nil : next ⟨[], position, stops, none⟩ =
    (.ok ⟨.endOfFile, "", position⟩, ⟨[], position, stops, none⟩) := rfl

theorem next_tab : next ⟨'\t' :: rest, position, stops, none⟩ =
    (.ok ⟨.tab, "\t", position⟩, ⟨rest, position.advance '\t', stops, none⟩) := rfl

/-- A line feed, and perhaps a comment behind it. -/
theorem next_feed : next ⟨'\n' :: rest, position, stops, none⟩ =
    (.ok ⟨.newline, "\n", position⟩,
      skipComment ⟨rest, position.advance '\n', stops, none⟩) := rfl

/-- Gaps are skipped in front of a token. -/
theorem next_gap {c : Char} (h : isGap c = true) : next ⟨c :: rest, position, stops, none⟩ =
    next ⟨rest, position.advance c, stops, none⟩ := by
  simp only [next, skipWhile, List.dropWhile_cons_of_pos h, List.takeWhile_cons_of_pos h]
  rfl

/-- A line feed, no comment behind it. -/
theorem next_newline (position : Position) (h : rest.head? ≠ some '#') :
    next ⟨'\n' :: rest, position, stops, none⟩ =
      (.ok ⟨.newline, "\n", position⟩, ⟨rest, position.advance '\n', stops, none⟩) := by
  rw [next_feed, skipComment, if_neg h]

/-- May a name begin with `c` where a token begins? -/
def beginsName (stops : List Char) (c : Char) : Bool :=
  !(isGap c || c = '\t' || c = '\n' || isSeparator c || c ∈ stops)

theorem next_of_beginsName {c : Char} (h : beginsName stops c = true) (position : Position)
    (rest : List Char) :
    next ⟨c :: rest, position, stops, none⟩ = readName ⟨c :: rest, position, stops, none⟩ := by
  simp only [beginsName, Bool.not_eq_true', Bool.or_eq_false_iff, decide_eq_false_iff_not] at h
  obtain ⟨⟨⟨⟨hgap, htab⟩, hfeed⟩, hseparator⟩, hstop⟩ := h
  rw [next_eq_read (by rintro _ ⟨⟩; exact hgap)]
  simp only [read, if_neg htab, if_neg hfeed, if_neg hstop, hseparator, Bool.false_eq_true,
    if_false]

theorem next_name (position : Position) (hpasses : Passes stops text) (hends : EndsName stops rest)
    (hne : text ≠ []) (hbegins : ∀ c ∈ text.head?, beginsName stops c = true) :
    next ⟨text ++ rest, position, stops, none⟩ =
      (.ok ⟨.name, .ofList text, position⟩,
        ⟨rest, position.advanceBy text, stops, none⟩) := by
  obtain ⟨c, front, rfl⟩ := List.exists_cons_of_ne_nil hne
  rw [← hpasses.readName_eq hends]
  exact next_of_beginsName (hbegins c rfl) position (front ++ rest)

/-- What can stand in front of a name or a number. -/
def separators : List (List Char) := [[':'], [':', ':'], ['/'], ['/', ':']]

variable {separator : List Char}

/-- A colon right behind a separator would belong to it. -/
theorem next_separator (hseparator : separator ∈ separators) (hcolon : rest.head? ≠ some ':') :
    next ⟨separator ++ rest, position, stops, none⟩ =
      readSegment ⟨rest, position.advanceBy separator, stops, none⟩ := by
  have hsingle (c : Char) : skipSeparator ⟨c :: rest, position, stops, none⟩ =
      ⟨rest, position.advance c, stops, none⟩ := if_neg hcolon
  simp only [separators, List.mem_cons, List.not_mem_nil, or_false] at hseparator
  rcases hseparator with rfl | rfl | rfl | rfl
  · exact congrArg readSegment (hsingle ':')
  · rfl
  · exact congrArg readSegment (hsingle '/')
  · rfl

theorem next_segment_name (hseparator : separator ∈ separators) (hpasses : Passes stops text)
    (hends : EndsName stops rest) (hcolon : (text ++ rest).head? ≠ some ':')
    (hdigit : (text ++ rest).head?.any Char.isDigit = false) :
    next ⟨separator ++ (text ++ rest), position, stops, none⟩ =
      (.ok ⟨.name, .ofList text, position.advanceBy separator⟩,
        ⟨rest, position.advanceBy (separator ++ text), stops, none⟩) := by
  rw [next_separator hseparator hcolon, readSegment, if_neg (Bool.eq_false_iff.mp hdigit),
    hpasses.readName_eq hends, Position.advanceBy_append]

theorem inNumber_of_isDigit {c : Char} (h : c.isDigit = true) : inNumber c = true := by
  rw [inNumber, Bool.and_eq_true]
  constructor
  · exact decide_eq_true (by rintro rfl; exact absurd h (by decide))
  · exact decide_eq_true (by rintro rfl; exact absurd h (by decide))

theorem next_segment_number (hseparator : separator ∈ separators) (hne : text ≠ [])
    (hdigits : ∀ d ∈ text, d.isDigit = true) (hrest : ∀ d ∈ rest.head?, inNumber d = false) :
    next ⟨separator ++ (text ++ rest), position, stops, none⟩ =
      (.ok ⟨.number, .ofList text, position.advanceBy separator⟩,
        ⟨rest, position.advanceBy (separator ++ text), stops, none⟩) := by
  have hnumber : ∀ d ∈ text, inNumber d = true :=
    fun d hd => inNumber_of_isDigit (hdigits d hd)
  have hhead : (text ++ rest).head?.any Char.isDigit = true := by
    obtain ⟨d, front, rfl⟩ := List.exists_cons_of_ne_nil hne
    exact hdigits d List.mem_cons_self
  have hcolon : (text ++ rest).head? ≠ some ':' := by
    intro h
    rw [h] at hhead
    exact absurd hhead (by decide)
  have hall : text.all (fun d => d.isDigit || d = '\r') = true :=
    List.all_eq_true.mpr fun d hd => by rw [hdigits d hd, Bool.true_or]
  rw [next_separator hseparator hcolon, readSegment, if_pos hhead, readNumber,
    skipWhile_append text hnumber hrest]
  simp only [(span_append hnumber hrest).1, if_pos hall, Position.advanceBy_append]

end Lexer

end SymbolIndex
