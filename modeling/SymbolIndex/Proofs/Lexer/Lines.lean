import SymbolIndex.Proofs.Lexer.Movement

/-!
# Text behind a line feed

A source that ends with a line feed is read in the same way when more text follows.  A
name, a number, a separator or a gap ends in front of a line feed at the latest, so no
token but the newline itself reaches the end of the source.  Only behind the last newline
the text that follows is looked at: a `#` begins a comment there.

A run of quotes could go on behind the line feed; then it has no end in the source, and
that is an error.

* `EndsLine.next`: one call.
* `EndsLine.readAll`: reading to the end goes on with the text that follows, behind a
  comment.
* `EndsLine.readAll_error`: an error that is no open run stays.
-/

namespace SymbolIndex

/-! ### Lists that end with a stop -/

section Lists

variable {α : Type} {p : α → Bool} {last : α} {list tail : List α}

theorem getLast?_of_cons {c : α} (h : (c :: list).getLast? = some last) (hc : c ≠ last) :
    list.getLast? = some last := by
  cases list with
  | nil => exact absurd (Option.some.inj h) hc
  | cons d rest => rwa [List.getLast?_cons_cons] at h

theorem getLast?_dropWhile (h : list.getLast? = some last) (hlast : p last = false) :
    (list.dropWhile p).getLast? = some last := by
  obtain ⟨body, rfl⟩ := List.getLast?_eq_some_iff.mp h
  rw [List.dropWhile_append]
  split
  · simp [hlast]
  · rw [List.getLast?_append]
    rfl

/-- A stretch that satisfies `p` ends in the first list, or at its end. -/
theorem span_append_of_head? (h : list.dropWhile p = [] → ∀ a ∈ tail.head?, p a = false) :
    (list ++ tail).takeWhile p = list.takeWhile p ∧
      (list ++ tail).dropWhile p = list.dropWhile p ++ tail := by
  induction list with
  | nil =>
    cases tail with
    | nil => exact ⟨rfl, rfl⟩
    | cons a tail =>
      have ha : ¬ p a = true := Bool.eq_false_iff.mp (h rfl a rfl)
      exact ⟨List.takeWhile_cons_of_neg ha, List.dropWhile_cons_of_neg ha⟩
  | cons c rest ih =>
    by_cases hc : p c = true
    · rw [List.dropWhile_cons_of_pos hc] at h
      obtain ⟨htake, hdrop⟩ := ih h
      rw [List.cons_append, List.takeWhile_cons_of_pos hc, List.dropWhile_cons_of_pos hc, htake,
        hdrop, List.takeWhile_cons_of_pos hc, List.dropWhile_cons_of_pos hc]
      exact ⟨rfl, rfl⟩
    · rw [List.cons_append, List.takeWhile_cons_of_neg hc, List.dropWhile_cons_of_neg hc,
        List.takeWhile_cons_of_neg hc, List.dropWhile_cons_of_neg hc]
      exact ⟨rfl, rfl⟩

theorem span_append_of_getLast? (h : list.getLast? = some last) (hlast : p last = false) :
    (list ++ tail).takeWhile p = list.takeWhile p ∧
      (list ++ tail).dropWhile p = list.dropWhile p ++ tail := by
  refine span_append_of_head? fun hnil => ?_
  have hdrop := getLast?_dropWhile h hlast
  rw [hnil] at hdrop
  cases hdrop

end Lists

namespace Lexer

/-- The source that is left ends with a line feed. -/
def EndsLine (lexer : Lexer) : Prop := lexer.rest.getLast? = some '\n'

/-- The lexer with more text behind its source. -/
def followedBy (lexer : Lexer) (tail : List Char) : Lexer :=
  { lexer with rest := lexer.rest ++ tail }

variable {lexer : Lexer} (tail : List Char)

/-! ### Moving -/

namespace EndsLine

theorem skipWhile {p : Char → Bool} (h : lexer.EndsLine) (hp : p '\n' = false) :
    (lexer.skipWhile p).EndsLine ∧
      (lexer.followedBy tail).skipWhile p = (lexer.skipWhile p).followedBy tail := by
  refine ⟨getLast?_dropWhile h hp, ?_⟩
  simp only [Lexer.skipWhile, followedBy, (span_append_of_getLast? h hp).1,
    (span_append_of_getLast? h hp).2]

theorem exists_cons (h : lexer.EndsLine) : ∃ c rest, lexer.rest = c :: rest := by
  unfold EndsLine at h
  cases hrest : lexer.rest with
  | nil =>
    rw [hrest] at h
    cases h
  | cons c rest => exact ⟨c, rest, rfl⟩

theorem head?_followedBy (h : lexer.EndsLine) :
    (lexer.followedBy tail).rest.head? = lexer.rest.head? := by
  obtain ⟨c, rest, hrest⟩ := h.exists_cons
  rw [followedBy, hrest]
  rfl

theorem skipOne_followedBy (h : lexer.EndsLine) :
    (lexer.followedBy tail).skipOne = lexer.skipOne.followedBy tail := by
  obtain ⟨c, rest, hrest⟩ := h.exists_cons
  simp only [skipOne, followedBy, hrest]
  rfl

theorem skipOne (h : lexer.EndsLine) (hhead : lexer.rest.head? ≠ some '\n') :
    lexer.skipOne.EndsLine := by
  obtain ⟨c, rest, hrest⟩ := h.exists_cons
  unfold EndsLine at h
  rw [hrest] at h hhead
  show lexer.rest.tail.getLast? = some '\n'
  rw [hrest]
  exact getLast?_of_cons h fun hc => hhead (congrArg some hc)

theorem skipComment (h : lexer.EndsLine) : lexer.skipComment.EndsLine ∧
    (lexer.followedBy tail).skipComment = lexer.skipComment.followedBy tail := by
  unfold Lexer.skipComment
  rw [h.head?_followedBy]
  split
  · exact h.skipWhile tail (by decide)
  · exact ⟨h, rfl⟩

theorem skipSeparator (h : lexer.EndsLine) (hhead : lexer.rest.head? ≠ some '\n') :
    lexer.skipSeparator.EndsLine ∧
      (lexer.followedBy tail).skipSeparator = lexer.skipSeparator.followedBy tail := by
  have hone := h.skipOne hhead
  unfold Lexer.skipSeparator
  dsimp only
  rw [h.skipOne_followedBy, hone.head?_followedBy]
  split
  · rename_i hcolon
    exact ⟨hone.skipOne (by rw [hcolon]; decide), hone.skipOne_followedBy tail⟩
  · exact ⟨hone, rfl⟩

end EndsLine

/-! ### Names and numbers -/

/-- A name that ends in a text which ends with a line feed ends there if more text follows. -/
theorem takeName_followedBy {stops : List Char} {run : Option QuotedRun} {position : Position}
    {source text rest : List Char} (h : source.getLast? = some '\n')
    (hname : takeName stops run position source = .ok (text, rest)) :
    takeName stops run position (source ++ tail) = .ok (text, rest ++ tail) ∧
      rest.getLast? = some '\n' := by
  fun_induction takeName stops run position source generalizing text with
  | case1 => cases h
  | case2 => cases h
  | case3 position r ih =>
    obtain ⟨text, htext, rfl⟩ := NameCut.cons_eq_ok hname
    obtain ⟨htake, hlast⟩ := ih (getLast?_of_cons h (by decide)) htext
    rw [List.cons_append, takeName, if_pos rfl, htake]
    exact ⟨rfl, hlast⟩
  | case4 position c r hquote hends =>
    cases hname
    rw [List.cons_append, takeName, if_neg hquote, if_pos hends]
    exact ⟨rfl, h⟩
  | case5 position c r hquote hends ih =>
    have hc : c ≠ '\n' := by
      rintro rfl
      exact hends (by simp [endsName])
    obtain ⟨text, htext, rfl⟩ := NameCut.cons_eq_ok hname
    obtain ⟨htake, hlast⟩ := ih (getLast?_of_cons h hc) htext
    rw [List.cons_append, takeName, if_neg hquote, if_neg hends, htake]
    exact ⟨rfl, hlast⟩
  | case6 run position c r ih =>
    obtain ⟨text, htext, rfl⟩ := NameCut.cons_eq_ok hname
    have hr : r.getLast? = some '\n' := by
      by_cases hc : c = '\n'
      · -- A line feed does not close the run, so the source goes on behind it.
        subst hc
        cases r with
        | nil => cases htext
        | cons d r => exact h
      · exact getLast?_of_cons h hc
    obtain ⟨htake, hlast⟩ := ih hr htext
    rw [List.cons_append, takeName, htake]
    exact ⟨rfl, hlast⟩

/-- No run of quotes is open at the end of the source. -/
def IsClosed (result : Except ParseError Token) : Prop :=
  ∀ position, result ≠ .error ⟨position, .unterminatedName⟩

theorem isClosed_ok (token : Token) : IsClosed (.ok token) := fun _ h => nomatch h

/-- What a call gives, when more text follows the source. -/
def followedCall (tail : List Char) (call : Except ParseError Token × Lexer) :
    Except ParseError Token × Lexer :=
  (call.1, call.2.followedBy tail)

namespace EndsLine

theorem readName (h : lexer.EndsLine) (hclosed : IsClosed lexer.readName.1) :
    lexer.readName.2.EndsLine ∧
      (lexer.followedBy tail).readName = followedCall tail lexer.readName := by
  have hmore : takeName (lexer.followedBy tail).stops none (lexer.followedBy tail).position
      (lexer.followedBy tail).rest =
        takeName lexer.stops none lexer.position (lexer.rest ++ tail) := rfl
  unfold Lexer.readName at hclosed ⊢
  rw [hmore]
  cases hname : takeName lexer.stops none lexer.position lexer.rest with
  | error opened =>
    rw [hname] at hclosed
    exact absurd rfl (hclosed opened)
  | ok cut =>
    obtain ⟨text, rest⟩ := cut
    obtain ⟨htake, hlast⟩ := takeName_followedBy tail h hname
    rw [htake]
    exact ⟨hlast, rfl⟩

theorem readNumber (h : lexer.EndsLine) :
    lexer.readNumber.2.EndsLine ∧
      (lexer.followedBy tail).readNumber = followedCall tail lexer.readNumber := by
  obtain ⟨hbehind, hskip⟩ := h.skipWhile tail (p := inNumber) (by decide)
  have htext : (lexer.followedBy tail).rest.takeWhile inNumber = lexer.rest.takeWhile inNumber :=
    (span_append_of_getLast? h (by decide)).1
  unfold Lexer.readNumber
  dsimp only
  rw [htext, hskip]
  split
  · exact ⟨hbehind, rfl⟩
  · exact ⟨hbehind, rfl⟩

theorem readSegment (h : lexer.EndsLine) (hclosed : IsClosed lexer.readSegment.1) :
    lexer.readSegment.2.EndsLine ∧
      (lexer.followedBy tail).readSegment = followedCall tail lexer.readSegment := by
  unfold Lexer.readSegment at hclosed ⊢
  rw [h.head?_followedBy]
  split at hclosed
  · rename_i hdigit
    rw [if_pos hdigit, if_pos hdigit]
    exact h.readNumber tail
  · rename_i hdigit
    rw [if_neg hdigit, if_neg hdigit]
    exact h.readName tail hclosed

/-! ### Calls -/

/-- A call in a source that ends with a line feed, when more text follows: it gives the same, and
the source that is left ends with a line feed again, or the call has given the last newline. -/
def Goes (tail : List Char) (call more : Except ParseError Token × Lexer) : Prop :=
  call.2.EndsLine ∧ more = followedCall tail call ∨
    ∃ token behind, call = (.ok token, behind) ∧ token.kind = .newline ∧ behind.rest = [] ∧
      more = (.ok token, (behind.followedBy tail).skipComment)

theorem newline (h : lexer.EndsLine) (position : Position) :
    Goes tail (.ok ⟨.newline, "\n", position⟩, lexer.skipOne.skipComment)
      (.ok ⟨.newline, "\n", position⟩, (lexer.followedBy tail).skipOne.skipComment) := by
  rw [h.skipOne_followedBy]
  by_cases hrest : lexer.skipOne.rest = []
  · have hcomment : lexer.skipOne.skipComment = lexer.skipOne := by
      rw [Lexer.skipComment, if_neg (by simp [hrest])]
    rw [hcomment]
    exact .inr ⟨_, lexer.skipOne, rfl, rfl, hrest, rfl⟩
  · have hbehind : lexer.skipOne.EndsLine := by
      obtain ⟨c, rest, hcons⟩ := h.exists_cons
      have htail : lexer.skipOne.rest = rest := congrArg List.tail hcons
      rw [htail] at hrest
      obtain ⟨d, rest, rfl⟩ := List.exists_cons_of_ne_nil hrest
      rw [EndsLine, hcons, List.getLast?_cons_cons] at h
      rwa [EndsLine, htail]
    obtain ⟨hends, hmore⟩ := hbehind.skipComment tail
    exact .inl ⟨hends, by rw [hmore]; rfl⟩

theorem read (h : lexer.EndsLine) (hclosed : IsClosed lexer.read.1) :
    Goes tail lexer.read (lexer.followedBy tail).read := by
  obtain ⟨c, rest, hrest⟩ := h.exists_cons
  have hmore : (lexer.followedBy tail).rest = c :: (rest ++ tail) := by
    rw [followedBy, hrest]
    rfl
  have hfeed : c ≠ '\n' → lexer.rest.head? ≠ some '\n' := by
    rw [hrest]
    exact fun hc heq => hc (Option.some.inj heq)
  unfold Lexer.read at hclosed ⊢
  rw [hrest] at hclosed
  rw [hmore, hrest]
  dsimp only at hclosed ⊢
  by_cases htab : c = '\t'
  · rw [if_pos htab, if_pos htab, h.skipOne_followedBy]
    exact .inl ⟨h.skipOne (hfeed (by rw [htab]; decide)), rfl⟩
  rw [if_neg htab] at hclosed ⊢
  rw [if_neg htab]
  by_cases hnewline : c = '\n'
  · rw [if_pos hnewline, if_pos hnewline]
    exact h.newline tail lexer.position
  rw [if_neg hnewline] at hclosed ⊢
  rw [if_neg hnewline]
  by_cases hseparator : isSeparator c = true
  · rw [if_pos hseparator] at hclosed ⊢
    obtain ⟨hends, hskip⟩ := h.skipSeparator tail (hfeed hnewline)
    rw [if_pos hseparator, hskip]
    exact .inl (hends.readSegment tail hclosed)
  rw [if_neg hseparator] at hclosed ⊢
  rw [if_neg hseparator]
  by_cases hstop : c ∈ lexer.stops
  · rw [if_pos hstop]
    exact .inl ⟨h, if_pos hstop⟩
  · rw [if_neg hstop] at hclosed ⊢
    obtain ⟨hends, hname⟩ := h.readName tail hclosed
    exact .inl ⟨hends, (if_neg hstop).trans hname⟩

/-- **A call in a source that ends with a line feed.** -/
theorem next (h : lexer.EndsLine) (hpushed : lexer.pushed = none)
    (hclosed : IsClosed lexer.next.1) : Goes tail lexer.next (lexer.followedBy tail).next := by
  obtain ⟨hends, hskip⟩ := h.skipWhile tail (p := isGap) (by decide)
  have hmore : (lexer.followedBy tail).next = ((lexer.skipWhile isGap).followedBy tail).read := by
    rw [← hskip]
    exact next_eq_read_skipWhile hpushed
  rw [next_eq_read_skipWhile hpushed] at hclosed ⊢
  rw [hmore]
  exact hends.read tail hclosed

/-- A source that ends with a line feed goes on. -/
theorem kind_ne_endOfFile (h : lexer.EndsLine) (hpushed : lexer.pushed = none)
    (hstops : lexer.stops = []) {token : Token} {behind : Lexer}
    (hnext : lexer.next = (.ok token, behind)) : token.kind ≠ .endOfFile := by
  intro hkind
  have hends : (lexer.skipWhile isGap).EndsLine := getLast?_dropWhile h (by decide)
  obtain ⟨c, rest, hrest⟩ := hends.exists_cons
  rw [next_eq_read_skipWhile hpushed] at hnext
  have hstop := (of_read_endOfFile (congrArg Prod.fst hnext) hkind).2 c (by rw [hrest]; rfl)
  have hskip : (lexer.skipWhile isGap).stops = [] := hstops
  rw [hskip] at hstop
  cases hstop

/-! ### Reading to the end -/

/-- **Behind a source that ends with a line feed, reading goes on with what follows.**  The last
token of the source is a newline then, and a comment may follow. -/
theorem readAll (h : lexer.EndsLine) (hpushed : lexer.pushed = none) (hstops : lexer.stops = [])
    {last : Token} (hok : lexer.readAll.ending = .ok last) :
    ∃ front newline, newline.kind = .newline ∧ lexer.readAll.tokens = front ++ [newline] ∧
      lexer.readAll.lexer.rest = [] ∧
      (lexer.followedBy tail).readAll.ending =
        (lexer.readAll.lexer.followedBy tail).skipComment.readAll.ending ∧
      (lexer.followedBy tail).readAll.tokens = lexer.readAll.tokens ++
        (lexer.readAll.lexer.followedBy tail).skipComment.readAll.tokens := by
  induction lexer using readAll.induct with
  | case1 lexer error behind hnext =>
    rw [readAll_of_error hnext] at hok
    cases hok
  | case2 lexer token behind hnext hend =>
    exact absurd hend (h.kind_ne_endOfFile hpushed hstops hnext)
  | case3 lexer token behind hnext hend _ ih =>
    have hbehind := pushed_of_next hpushed hnext
    have hclosed : IsClosed lexer.next.1 := by
      rw [hnext]
      exact isClosed_ok token
    have hgoes := h.next tail hpushed hclosed
    rw [readAll_of_token hnext hend] at hok ⊢
    rw [hnext] at hgoes
    rcases hgoes with ⟨hends, hmore⟩ | ⟨_, _, heq, hkind, hrest, hmore⟩
    · obtain ⟨front, newline, hnewline, htokens, hrest, hending, hall⟩ :=
        ih hends hbehind ((movesTo_of_next hnext).stops_eq.trans hstops) hok
      refine ⟨token :: front, newline, hnewline, ?_, hrest, ?_, ?_⟩
      · rw [List.cons_append, ← htokens]
      · rw [readAll_of_token hmore hend]
        exact hending
      · rw [readAll_of_token hmore hend]
        show token :: _ = (token :: _) ++ _
        rw [hall]
        rfl
    · cases heq
      rw [readAll_of_rest_eq_nil hrest hbehind]
      refine ⟨[], token, hkind, rfl, hrest, ?_, ?_⟩
      · rw [readAll_of_token hmore hend]
      · rw [readAll_of_token hmore hend]
        rfl

/-- **What is wrong in a source that ends with a line feed is found when text follows.**  Only an
open run could go on in that text. -/
theorem readAll_error (h : lexer.EndsLine) (hpushed : lexer.pushed = none)
    (hstops : lexer.stops = []) {error : ParseError} (herror : lexer.readAll.ending = .error error)
    (hclosed : IsClosed lexer.readAll.ending) :
    (lexer.followedBy tail).readAll.ending = lexer.readAll.ending ∧
      (lexer.followedBy tail).readAll.tokens = lexer.readAll.tokens := by
  induction lexer using readAll.induct with
  | case1 lexer error behind hnext =>
    rw [readAll_of_error hnext] at hclosed ⊢
    have hgoes := h.next tail hpushed (by rw [hnext]; exact hclosed)
    rw [hnext] at hgoes
    rcases hgoes with ⟨_, hmore⟩ | ⟨_, _, heq, _⟩
    · rw [readAll_of_error hmore]
      exact ⟨rfl, rfl⟩
    · cases heq
  | case2 lexer token behind hnext hend =>
    exact absurd hend (h.kind_ne_endOfFile hpushed hstops hnext)
  | case3 lexer token behind hnext hend _ ih =>
    have hbehind := pushed_of_next hpushed hnext
    have hok : IsClosed lexer.next.1 := by
      rw [hnext]
      exact isClosed_ok token
    have hgoes := h.next tail hpushed hok
    rw [readAll_of_token hnext hend] at herror hclosed ⊢
    rw [hnext] at hgoes
    rcases hgoes with ⟨hends, hmore⟩ | ⟨_, _, heq, _, hrest, _⟩
    · obtain ⟨hending, htokens⟩ :=
        ih hends hbehind ((movesTo_of_next hnext).stops_eq.trans hstops) herror hclosed
      rw [readAll_of_token hmore hend]
      exact ⟨hending, congrArg (token :: ·) htokens⟩
    · cases heq
      rw [readAll_of_rest_eq_nil hrest hbehind] at herror
      cases herror

end EndsLine

end Lexer

end SymbolIndex
