import Mathlib.Data.List.TakeWhile
import SymbolIndex.Proofs.Lexer.Lines
import SymbolIndex.Proofs.Lexer.Quotes

/-!
# Comments, numbers and quotes in a document

Double quotes open runs in names only, not in comments and not behind the digit that begins a
number.  `Region` follows a document from character to character and tells these places apart; it
knows no tokens.

Between two calls the lexer is where the region does not matter: at a place that reads the next
character as any other place between tokens does.  `IsBetween` says this, and every call of the
lexer leads from such a place to such a place, or to the end of the source inside of a run.

* `follows_next`: one call.
* `isQuoted_of_unterminated`: a source that is read to an open run ends in quotes.
-/

namespace SymbolIndex

open Lexer

/-- What a place in a document lies in. -/
inductive Region where
  /-- The start of a line, where a comment may begin. -/
  | lineStart
  | comment
  /-- Right behind a separator, where a number may begin. -/
  | separator
  | number
  /-- A name, or between tokens where one may begin. -/
  | name (quotes : Quotes)
  deriving DecidableEq, Repr

namespace Region

/-- Where the place is behind a character that is in no comment, number or run of quotes and
begins neither of the first two. -/
def ofChar (c : Char) : Region :=
  if c = '\n' then lineStart
  else if isSeparator c then separator
  else name (Quotes.outside.after c)

/-- Where the place behind one more character is. -/
def after : Region → Char → Region
  | lineStart, c => if c = '#' then comment else ofChar c
  | comment, c => if c = '\n' then ofChar c else comment
  | separator, c => if c.isDigit then number else ofChar c
  | number, c => if inNumber c then number else ofChar c
  | name .outside, c => ofChar c
  | name (.inside escape), c => name ((Quotes.inside escape).after c)

/-- Where the place behind a text is. -/
def behind (region : Region) (text : List Char) : Region :=
  text.foldl after region

/-- Is the place in a run of quotes? -/
def isQuoted : Region → Bool
  | name (.inside _) => true
  | _ => false

@[simp] theorem behind_nil (region : Region) : region.behind [] = region := rfl

@[simp] theorem behind_cons (region : Region) (c : Char) (text : List Char) :
    region.behind (c :: text) = (region.after c).behind text := rfl

theorem behind_append (region : Region) (s t : List Char) :
    region.behind (s ++ t) = (region.behind s).behind t :=
  List.foldl_append

theorem behind_eq_self {region : Region} {text : List Char}
    (h : ∀ c ∈ text, region.after c = region) : region.behind text = region := by
  induction text with
  | nil => rfl
  | cons c text ih =>
    rw [behind_cons, h c List.mem_cons_self]
    exact ih fun d hd => h d (List.mem_cons_of_mem c hd)

/-- A line feed neither opens nor closes a run. -/
theorem isQuoted_after_feed (region : Region) :
    (region.after '\n').isQuoted = region.isQuoted := by
  cases region with
  | name quotes =>
    cases quotes with
    | outside => rfl
    | inside escape => rfl
  | _ => rfl

/-- Between two tokens. -/
def between : Region := name .outside

/-- The next character is read as it would be between two tokens. -/
def IsBetween (region : Region) (rest : List Char) : Prop :=
  ∀ c ∈ rest.head?, region.after c = ofChar c

theorem isBetween_between (rest : List Char) : IsBetween between rest := fun _ _ => rfl

theorem isBetween_cons {region : Region} {c : Char} {rest : List Char} :
    IsBetween region (c :: rest) ↔ region.after c = ofChar c :=
  ⟨fun h => h c rfl, fun h _ hd => Option.some.inj hd ▸ h⟩

theorem isBetween_separator {rest : List Char} (h : ¬ rest.head?.any Char.isDigit = true) :
    IsBetween separator rest := by
  refine fun c hc => if_neg fun hdigit => h ?_
  rw [Option.mem_def.mp hc]
  exact hdigit

theorem IsBetween.behind_separator {front rest : List Char} {region : Region}
    (h : IsBetween region (front ++ rest)) (hfront : front ∈ separators) :
    region.behind front = separator := by
  simp only [separators, List.mem_cons, List.not_mem_nil, or_false] at hfront
  rcases hfront with rfl | rfl | rfl | rfl
  all_goals
    rw [behind_cons, isBetween_cons.mp h]
    rfl

theorem between_behind_separator {front : List Char} (hfront : front ∈ separators) :
    between.behind front = separator :=
  (isBetween_between (front ++ [])).behind_separator hfront

/-- From here on the region does not matter. -/
theorem IsBetween.behind_eq {region : Region} {rest : List Char} (h : IsBetween region rest)
    (hne : rest ≠ []) : region.behind rest = between.behind rest := by
  obtain ⟨c, rest, rfl⟩ := List.exists_cons_of_ne_nil hne
  rw [behind_cons, behind_cons, isBetween_cons.mp h]
  rfl

/-! ### Comments and numbers -/

/-- A mark at the start of a line begins a comment, which runs to the line feed. -/
theorem lineStart_behind_mark {text : List Char} (h : text.head? = some '#') :
    lineStart.behind (text.takeWhile (· ≠ '\n')) = comment := by
  obtain ⟨rest, rfl⟩ := List.head?_eq_some_iff.mp h
  rw [List.takeWhile_cons_of_pos (by decide)]
  show comment.behind (rest.takeWhile (· ≠ '\n')) = comment
  refine behind_eq_self fun d hd => ?_
  have hne := List.mem_takeWhile_imp hd
  exact if_neg (of_decide_eq_true hne)

/-- A digit behind a separator begins a number. -/
theorem separator_behind_digit {text : List Char} (h : text.head?.any Char.isDigit = true) :
    separator.behind (text.takeWhile inNumber) = number := by
  cases text with
  | nil => cases h
  | cons c rest =>
    have hc : c.isDigit = true := h
    rw [List.takeWhile_cons_of_pos (inNumber_of_isDigit hc), behind_cons, after, if_pos hc]
    exact behind_eq_self fun d hd => if_pos (List.mem_takeWhile_imp hd)

/-! ### Names -/

/-- In a name, the quotes are all there is. -/
theorem name_after {stops : List Char} {quotes : Quotes} {c : Char}
    (h : quotes = .outside → c = '"' ∨ endsName stops c = false) :
    (name quotes).after c = name (quotes.after c) := by
  cases quotes with
  | inside escape => rfl
  | outside =>
    show ofChar c = _
    rcases h rfl with rfl | hends
    · rfl
    · simp only [endsName, Bool.or_eq_false_iff, decide_eq_false_iff_not] at hends
      obtain ⟨⟨⟨hseparator, hfeed⟩, _⟩, _⟩ := hends
      rw [ofChar, if_neg hfeed, if_neg (by simp [hseparator])]

theorem name_behind {stops : List Char} {quotes : Quotes} {text : List Char}
    (h : Quotes.Covers stops quotes text) :
    (name quotes).behind text = name (quotes.behind text) := by
  induction text generalizing quotes with
  | nil => rfl
  | cons c text ih =>
    rw [behind_cons, name_after h.1, ih h.2, Quotes.behind_cons]

/-- A place behind a name, which may be empty. -/
theorem IsBetween.behind_name {stops text rest : List Char} {region : Region}
    (h : IsBetween region (text ++ rest)) (hcovers : Quotes.Covers stops .outside text)
    (hbehind : Quotes.outside.behind text = .outside) : IsBetween (region.behind text) rest := by
  cases text with
  | nil => exact h
  | cons c text =>
    have hregion : region.behind (c :: text) = between.behind (c :: text) :=
      IsBetween.behind_eq (isBetween_cons.mpr (isBetween_cons.mp h)) (List.cons_ne_nil c text)
    rw [hregion, between, name_behind hcovers, hbehind]
    exact isBetween_between rest

/-! ### Line feeds -/

/-- No line feed of the text is in quotes. -/
def FeedsOutside (region : Region) (text : List Char) : Prop :=
  ∀ front back, text = front ++ '\n' :: back → (region.behind front).isQuoted = false

variable {region : Region}

theorem feedsOutside_nil : FeedsOutside region [] :=
  fun front back h => absurd h (by cases front <;> exact List.cons_ne_nil _ _ |>.symm)

theorem feedsOutside_cons {c : Char} {text : List Char} :
    FeedsOutside region (c :: text) ↔
      (c = '\n' → region.isQuoted = false) ∧ FeedsOutside (region.after c) text := by
  constructor
  · intro h
    refine ⟨fun hc => h [] text (by rw [hc]; rfl), fun front back htext => ?_⟩
    exact h (c :: front) back (by rw [htext]; rfl)
  · rintro ⟨hc, htext⟩ front back heq
    cases front with
    | nil =>
      obtain ⟨rfl, rfl⟩ := List.cons.inj heq
      exact hc rfl
    | cons d front =>
      obtain ⟨rfl, rfl⟩ := List.cons.inj heq
      exact htext front back rfl

/-- Looks at the line feeds one after the other. -/
def checkFeeds : Region → List Char → Bool
  | _, [] => true
  | region, c :: text => (c ≠ '\n' || !region.isQuoted) && checkFeeds (region.after c) text

theorem checkFeeds_iff {text : List Char} :
    checkFeeds region text = true ↔ FeedsOutside region text := by
  induction text generalizing region with
  | nil => exact iff_of_true rfl feedsOutside_nil
  | cons c text ih =>
    rw [feedsOutside_cons, ← ih, checkFeeds, Bool.and_eq_true, Bool.or_eq_true,
      Bool.not_eq_true', decide_eq_true_eq, imp_iff_not_or]

instance (text : List Char) : Decidable (FeedsOutside region text) :=
  decidable_of_iff _ checkFeeds_iff

theorem FeedsOutside.behind {s t : List Char} (h : FeedsOutside region (s ++ t)) :
    FeedsOutside (region.behind s) t := by
  intro front back ht
  rw [← behind_append]
  exact h (s ++ front) back (by rw [ht, List.append_assoc])

theorem FeedsOutside.between {rest : List Char} (h : FeedsOutside region rest)
    (hbetween : IsBetween region rest) : FeedsOutside between rest := by
  cases rest with
  | nil => exact feedsOutside_nil
  | cons c rest =>
    have hrest := (feedsOutside_cons.mp h).2
    rw [isBetween_cons.mp hbetween] at hrest
    exact feedsOutside_cons.mpr ⟨fun _ => rfl, hrest⟩

end Region

/-! ### Calls -/

namespace Lexer

open Region

variable {lexer : Lexer} {region : Region}

/-- A stretch that satisfies `p` ends in front of a character that does not. -/
theorem eq_false_of_head?_dropWhile {p : Char → Bool} {text : List Char} {c : Char}
    (h : (text.dropWhile p).head? = some c) : p c = false := by
  have hhead := List.head?_dropWhile_not p text
  rw [h] at hhead
  simpa using hhead

/-- A call at a place of the given region goes to a place between tokens, or to the end of the
source inside of a run. -/
def Follows (region : Region) (lexer : Lexer) (call : Except ParseError Token × Lexer) : Prop :=
  ∃ text, lexer.rest = text ++ call.2.rest ∧
    (IsClosed call.1 ∧ IsBetween (region.behind text) call.2.rest ∨
      ¬ IsClosed call.1 ∧ call.2.rest = [] ∧ (region.behind text).isQuoted = true)

theorem Follows.of_append {lexer behind : Lexer} {front : List Char}
    {call : Except ParseError Token × Lexer} (hrest : lexer.rest = front ++ behind.rest)
    (h : Follows (region.behind front) behind call) : Follows region lexer call := by
  obtain ⟨text, htext, hregion⟩ := h
  refine ⟨front ++ text, ?_, ?_⟩
  · rw [hrest, htext, List.append_assoc]
  · rwa [behind_append]

theorem follows_readName (h : IsBetween region lexer.rest) :
    Follows region lexer lexer.readName := by
  unfold readName
  split
  · rename_i text rest hname
    obtain ⟨hcovers, hbehind, _⟩ := takeName_eq_ok hname
    have happend := takeName_append hname
    rw [← happend] at h
    exact ⟨text, happend.symm, .inl ⟨isClosed_ok _, h.behind_name hcovers hbehind⟩⟩
  · rename_i opened hname
    obtain ⟨hcovers, hbehind⟩ := takeName_eq_error hname
    refine ⟨lexer.rest, (List.append_nil _).symm, .inr ⟨fun h => h opened rfl, rfl, ?_⟩⟩
    have hne : lexer.rest ≠ [] := by
      intro hnil
      rw [hnil] at hbehind
      exact hbehind rfl
    rw [Quotes.ofRun_none] at hcovers hbehind
    rw [h.behind_eq hne, between, name_behind hcovers]
    cases hquotes : Quotes.outside.behind lexer.rest with
    | outside => exact absurd hquotes hbehind
    | inside escape => rfl

theorem follows_readNumber (hdigit : lexer.rest.head?.any Char.isDigit = true) :
    Follows .separator lexer lexer.readNumber := by
  obtain ⟨hclosed, hbehind⟩ : IsClosed lexer.readNumber.1 ∧
      lexer.readNumber.2.rest = lexer.rest.dropWhile inNumber := by
    unfold readNumber
    dsimp only
    split
    · exact ⟨isClosed_ok _, rfl⟩
    · exact ⟨fun _ h => (by cases h), rfl⟩
  refine ⟨lexer.rest.takeWhile inNumber, ?_, .inl ⟨hclosed, ?_⟩⟩
  · rw [hbehind, List.takeWhile_append_dropWhile]
  rw [hbehind, separator_behind_digit hdigit]
  intro c hc
  exact if_neg (by simp [eq_false_of_head?_dropWhile hc])

theorem follows_readSegment : Follows .separator lexer lexer.readSegment := by
  unfold readSegment
  split
  · rename_i hdigit
    exact follows_readNumber hdigit
  · rename_i hdigit
    exact follows_readName (isBetween_separator hdigit)

theorem exists_movesOver_skipSeparator {c : Char} {rest : List Char}
    (hrest : lexer.rest = c :: rest) (hc : isSeparator c = true) :
    ∃ separator ∈ separators, MovesOver separator lexer lexer.skipSeparator := by
  have hcases : c = '/' ∨ c = ':' := by simpa [isSeparator] using hc
  have hone := movesOver_skipOne hrest
  unfold skipSeparator
  dsimp only
  split
  · rename_i hcolon
    obtain ⟨more, hmore⟩ := List.head?_eq_some_iff.mp hcolon
    refine ⟨[c, ':'], ?_, hone.append (movesOver_skipOne hmore)⟩
    rcases hcases with rfl | rfl
    · decide
    · decide
  · refine ⟨[c], ?_, hone⟩
    rcases hcases with rfl | rfl
    · decide
    · decide

/-- Behind a line feed and a comment, the next line feed is the next character. -/
theorem isBetween_skipComment (lexer : Lexer) :
    ∃ front, lexer.rest = front ++ lexer.skipComment.rest ∧
      IsBetween (lineStart.behind front) lexer.skipComment.rest := by
  unfold skipComment
  split
  · rename_i hmark
    refine ⟨lexer.rest.takeWhile (· ≠ '\n'), List.takeWhile_append_dropWhile.symm, ?_⟩
    rw [lineStart_behind_mark hmark]
    intro c hc
    have hfeed : c = '\n' := by simpa using eq_false_of_head?_dropWhile hc
    exact if_pos hfeed
  · rename_i hmark
    refine ⟨[], rfl, fun c hc => if_neg ?_⟩
    rintro rfl
    exact hmark hc

theorem follows_read (h : IsBetween region lexer.rest) : Follows region lexer lexer.read := by
  unfold read
  split
  · exact ⟨[], rfl, .inl ⟨isClosed_ok _, h⟩⟩
  · rename_i c rest hrest
    have hc : region.after c = ofChar c := h c (by rw [hrest]; rfl)
    split
    · rename_i htab
      refine ⟨[c], by rw [hrest, skipOne, hrest]; rfl, .inl ⟨isClosed_ok _, ?_⟩⟩
      rw [behind_cons, hc, htab]
      exact isBetween_between _
    · split
      · rename_i hfeed
        obtain ⟨front, hfront, hbetween⟩ := isBetween_skipComment lexer.skipOne
        refine ⟨c :: front, ?_, .inl ⟨isClosed_ok _, ?_⟩⟩
        · have hone : lexer.skipOne.rest = rest := congrArg List.tail hrest
          rw [hrest, ← hone, hfront]
          rfl
        · rw [behind_cons, hc, hfeed]
          exact hbetween
      · split
        · rename_i hseparator
          obtain ⟨front, hmem, hfront⟩ := exists_movesOver_skipSeparator hrest hseparator
          rw [hfront.rest_eq] at h
          refine .of_append hfront.rest_eq ?_
          rw [h.behind_separator hmem]
          exact follows_readSegment
        · split
          · exact ⟨[], rfl, .inl ⟨isClosed_ok _, h⟩⟩
          · exact follows_readName h

/-- Gaps are between tokens. -/
theorem between_behind_gaps (text : List Char) :
    between.behind (text.takeWhile isGap) = between := by
  refine behind_eq_self fun c hc => ?_
  have hgap : isGap c = true := List.mem_takeWhile_imp hc
  have hc : c = ' ' ∨ c = '\r' := by simpa [isGap] using hgap
  rcases hc with rfl | rfl <;> rfl

/-- **A call leads from between two tokens to between two tokens.** -/
theorem follows_next (hpushed : lexer.pushed = none) (h : IsBetween region lexer.rest) :
    Follows region lexer lexer.next := by
  rw [next_eq_read_skipWhile hpushed]
  have hrest : lexer.rest = lexer.rest.takeWhile isGap ++ (lexer.skipWhile isGap).rest :=
    List.takeWhile_append_dropWhile.symm
  refine .of_append hrest (follows_read ?_)
  show IsBetween _ (lexer.rest.dropWhile isGap)
  by_cases hgap : lexer.rest.takeWhile isGap = []
  · have hdrop : lexer.rest.dropWhile isGap = lexer.rest := by
      have happend := List.takeWhile_append_dropWhile (p := isGap) (l := lexer.rest)
      rwa [hgap, List.nil_append] at happend
    rw [hgap, hdrop]
    exact h
  · have hfront : IsBetween region (lexer.rest.takeWhile isGap) := by
      obtain ⟨c, front, hcons⟩ := List.exists_cons_of_ne_nil hgap
      rw [hcons, isBetween_cons]
      refine h c ?_
      rw [← List.takeWhile_append_dropWhile (p := isGap) (l := lexer.rest), hcons]
      rfl
    rw [hfront.behind_eq hgap, between_behind_gaps]
    exact isBetween_between _

/-- What goes along with a text, and does not depend on the region between two tokens, is true again
behind a call. -/
theorem between_of_next {q : Region → List Char → Prop}
    (hbehind : ∀ region front rest, q region (front ++ rest) → q (region.behind front) rest)
    (hbetween : ∀ region rest, IsBetween region rest → q region rest → q between rest)
    (hpushed : lexer.pushed = none) {behind : Lexer} {result : Except ParseError Token}
    (hnext : lexer.next = (result, behind)) (h : q between lexer.rest) : q between behind.rest := by
  obtain ⟨text, htext, hregion⟩ := follows_next hpushed (isBetween_between lexer.rest)
  rw [hnext] at htext hregion
  rw [htext] at h
  refine hbetween _ _ ?_ (hbehind _ _ _ h)
  rcases hregion with ⟨_, hregion⟩ | ⟨_, hrest, _⟩
  · exact hregion
  · have hrest : behind.rest = [] := hrest
    rw [hrest]
    exact fun _ hc => nomatch hc

theorem feedsOutside_of_next (hpushed : lexer.pushed = none) {behind : Lexer}
    {result : Except ParseError Token} (hnext : lexer.next = (result, behind))
    (h : FeedsOutside between lexer.rest) : FeedsOutside between behind.rest :=
  between_of_next (fun _ _ _ h => h.behind) (fun _ _ hbetween h => h.between hbetween) hpushed hnext
    h

/-- **A source that is read to an open run ends in quotes.** -/
theorem isQuoted_of_unterminated (hpushed : lexer.pushed = none)
    (h : IsBetween region lexer.rest) {position : Position}
    (hending : lexer.readAll.ending = .error ⟨position, .unterminatedName⟩) :
    (region.behind lexer.rest).isQuoted = true := by
  induction lexer using readAll.induct generalizing region with
  | case1 lexer error behind hnext =>
    rw [readAll_of_error hnext] at hending
    obtain ⟨text, htext, hregion⟩ := follows_next hpushed h
    rw [hnext] at htext hregion
    rcases hregion with ⟨hclosed, _⟩ | ⟨_, hrest, hquoted⟩
    · exact absurd hending (hclosed position)
    · have hrest : behind.rest = [] := hrest
      rw [hrest, List.append_nil] at htext
      rwa [htext]
  | case2 lexer token behind hnext hend =>
    rw [readAll_of_endOfFile hnext hend] at hending
    cases hending
  | case3 lexer token behind hnext hend _ ih =>
    rw [readAll_of_token hnext hend] at hending
    obtain ⟨text, htext, hregion⟩ := follows_next hpushed h
    rw [hnext] at htext hregion
    rcases hregion with ⟨_, hbetween⟩ | ⟨hopen, _⟩
    · rw [htext, behind_append]
      exact ih (pushed_of_next hpushed hnext) hbetween hending
    · exact absurd (isClosed_ok token) hopen

end Lexer

end SymbolIndex
