import SymbolIndex.Proofs.Lexer.Regions
import SymbolIndex.Proofs.Name.Spelling

/-!
# How tokens lie in a source

Reading to the end loses nothing of a source: token by token, it is put together again from the
texts of the tokens and from gaps of a known shape.  In front of a token stand a comment, if a
newline was given before it, then blanks, then at most one separator.

What a call moves over is told by `MovesOver`, which names the text, where `MovesTo` only says that
there is one.  `Takes` is the stretch of a call that gives the token itself.  The lexer leaves out a
comment when it gives the newline in front of it, so a comment has been moved over before the call
whose gap it belongs to; the induction of `laidOut_readAll` carries it along.

* `takes_next`: what one call moves over.
* `laidOut_readAll`: all calls, up to the end of file or an error.
* `readAll_layout`: texts are slices of the source, in order, and the end of file is its end.
-/

namespace SymbolIndex

/-! ### Texts -/

/-- A run of quotes from its opening quote to the one that closes it: every other quote stands right
behind a backslash, and the closing one does not. -/
def IsQuotedRun (text : List Char) : Prop :=
  ∃ body, text = '"' :: (body ++ ['"']) ∧ body.getLast? ≠ some '\\' ∧
    ∀ front back, body = front ++ '"' :: back → front.getLast? = some '\\'

/-- Stretches outside of quotes, and runs of quotes. -/
inductive IsNameText : List Char → Prop
  | nil : IsNameText []
  | cons {c : Char} {text : List Char} (hc : isSpecial c = false) (htext : IsNameText text) :
      IsNameText (c :: text)
  | quoted {run text : List Char} (hrun : IsQuotedRun run) (htext : IsNameText text) :
      IsNameText (run ++ text)

/-- A comment, up to the line feed or the end of the source behind it. -/
def IsComment (text behind : List Char) : Prop :=
  text.head? = some '#' ∧ '\n' ∉ text ∧ ∀ c ∈ behind.head?, c = '\n'

/-- What stands right in front of a token: a separator in front of a number, perhaps one in front of
a name, nothing in front of any other. -/
def IsLead (kind : TokenKind) (text : List Char) : Prop :=
  text = [] ∧ kind ≠ .number ∨ text ∈ Lexer.separators ∧ (kind = .name ∨ kind = .number)

/-- Spaces and carriage returns. -/
def IsBlanks (text : List Char) : Prop := ∀ c ∈ text, c = ' ' ∨ c = '\r'

/-- The text of a token is one of its kind, and ends where `behind` begins. -/
def Token.Fits (token : Token) (behind : List Char) : Prop :=
  match token.kind with
  | .name => IsNameText token.text.toList ∧
      ∀ c ∈ behind.head?, c = ':' ∨ c = '/' ∨ c = '\r' ∨ c = '\n'
  | .number => (∃ d ∈ token.text.toList.head?, d.isDigit = true) ∧
      (∀ c ∈ token.text.toList, c.isDigit = true ∨ c = '\r') ∧
      ∀ c ∈ behind.head?, c = ':' ∨ c = '\n'
  | .tab => token.text = "\t"
  | .newline => token.text = "\n"
  | .endOfFile => token.text = "" ∧ behind = []

/-- A source from `position` on, laid out as tokens and the gaps in front of them, behind a token of
the kind `previous` if there is one.  The text behind the last token is left. -/
inductive LaidOut : Option TokenKind → Position → List Char → List Token → List Char → Prop
  | nil {previous : Option TokenKind} {position : Position} {rest : List Char} :
      LaidOut previous position rest [] rest
  | cons {previous : Option TokenKind} {position : Position}
      {comment blanks lead behind rest : List Char} {token : Token} {tokens : List Token}
      (hcomment : comment = [] ∨ previous = some .newline ∧
        IsComment comment (blanks ++ (lead ++ (token.text.toList ++ behind))))
      (hblanks : IsBlanks blanks) (hlead : IsLead token.kind lead)
      (hposition : token.position = position.advanceBy (comment ++ (blanks ++ lead)))
      (hfits : token.Fits behind)
      (hrest : LaidOut (some token.kind) (token.position.advanceBy token.text.toList) behind
        tokens rest) :
      LaidOut previous position (comment ++ (blanks ++ (lead ++ (token.text.toList ++ behind))))
        (token :: tokens) rest

namespace LaidOut

variable {previous : Option TokenKind} {position : Position} {source rest : List Char}
  {tokens : List Token}

/-- The text of a token is the slice of the source at its position. -/
theorem exists_slice (h : LaidOut previous position source tokens rest) :
    ∀ token ∈ tokens, ∃ front back, source = front ++ (token.text.toList ++ back) ∧
      token.position = position.advanceBy front := by
  induction h with
  | nil => exact List.forall_mem_nil _
  | @cons _ position comment blanks lead behind _ token _ _ _ _ hposition _ _ ih =>
    refine List.forall_mem_cons.mpr ⟨?_, fun other hother => ?_⟩
    · exact ⟨comment ++ (blanks ++ lead), behind, by simp only [List.append_assoc], hposition⟩
    · obtain ⟨front, back, hbehind, hother⟩ := ih other hother
      refine ⟨comment ++ (blanks ++ (lead ++ (token.text.toList ++ front))), back, ?_, ?_⟩
      · rw [hbehind]
        simp only [List.append_assoc]
      · rw [hother, hposition]
        simp only [Position.advanceBy_append]

theorem offset_le (h : LaidOut previous position source tokens rest) :
    ∀ token ∈ tokens, position.offset ≤ token.position.offset := by
  intro token hmem
  obtain ⟨front, _, _, hposition⟩ := h.exists_slice token hmem
  rw [hposition, Position.offset_advanceBy]
  exact Nat.le_add_right _ _

/-- A token begins behind the texts of the tokens before it. -/
theorem pairwise (h : LaidOut previous position source tokens rest) :
    tokens.Pairwise fun a b => a.position.offset + a.text.utf8ByteSize ≤ b.position.offset := by
  induction h with
  | nil => exact .nil
  | cons _ _ _ _ _ hrest ih =>
    refine .cons (fun other hother => ?_) ih
    have hle := hrest.offset_le other hother
    rwa [Position.offset_advanceBy, String.ofList_toList] at hle

end LaidOut

/-! ### Names -/

/-- A run of quotes that is closed in the text, of which `before` has been read. -/
theorem exists_closing {before text : List Char}
    (h : (Quotes.inside (before.getLast? = some '\\')).behind text = .outside)
    (hcovers : Quotes.Covers [] (.inside (before.getLast? = some '\\')) text) :
    ∃ body rest, text = body ++ '"' :: rest ∧ (before ++ body).getLast? ≠ some '\\' ∧
      (∀ front back, body = front ++ '"' :: back → (before ++ front).getLast? = some '\\') ∧
      Quotes.outside.behind rest = .outside ∧ Quotes.Covers [] .outside rest := by
  induction text generalizing before with
  | nil => cases h
  | cons c text ih =>
    obtain ⟨_, hcovers⟩ := hcovers
    rw [Quotes.behind_cons] at h
    by_cases hclose : c = '"' ∧ before.getLast? ≠ some '\\'
    · obtain ⟨rfl, hlast⟩ := hclose
      have hafter : (Quotes.inside (before.getLast? = some '\\')).after '"' = .outside :=
        if_pos ⟨rfl, decide_eq_false hlast⟩
      rw [hafter] at h hcovers
      refine ⟨[], text, rfl, by rwa [List.append_nil], fun front back hbody => ?_, h, hcovers⟩
      exact absurd hbody (by simp)
    · have hafter : (Quotes.inside (before.getLast? = some '\\')).after c =
          .inside ((before ++ [c]).getLast? = some '\\') := by
        rw [Quotes.after, if_neg (by simpa using hclose), List.getLast?_concat]
        simp only [Option.some.injEq]
      rw [hafter] at h hcovers
      obtain ⟨body, rest, htext, hlast, hquotes, hrest, hcovers⟩ := ih h hcovers
      rw [List.append_assoc, List.singleton_append] at hlast
      refine ⟨c :: body, rest, by rw [htext]; rfl, hlast, fun front back hbody => ?_, hrest,
        hcovers⟩
      cases front with
      | nil =>
        obtain ⟨rfl, _⟩ := List.cons.inj hbody
        rw [List.append_nil]
        exact Decidable.not_not.mp fun hne => hclose ⟨rfl, hne⟩
      | cons d front =>
        obtain ⟨rfl, hmore⟩ := List.cons.inj hbody
        have hescaped := hquotes front back hmore
        rwa [List.append_assoc, List.singleton_append] at hescaped

/-- What is covered by its quotes consists of runs of quotes and of stretches outside. -/
theorem isNameText_of_covers {text : List Char} (hbehind : Quotes.outside.behind text = .outside)
    (hcovers : Quotes.Covers [] .outside text) : IsNameText text := by
  induction hn : text.length using Nat.strong_induction_on generalizing text with
  | _ n ih =>
    cases text with
    | nil => exact .nil
    | cons c text =>
      subst hn
      obtain ⟨hc, hcovers⟩ := hcovers
      rw [Quotes.behind_cons] at hbehind
      by_cases hquote : c = '"'
      · subst hquote
        obtain ⟨body, rest, rfl, hlast, hquotes, hrest, hcovers⟩ :=
          @exists_closing [] text hbehind hcovers
        have hrun : IsQuotedRun ('"' :: (body ++ ['"'])) := ⟨body, rfl, hlast, hquotes⟩
        have hlt : rest.length < ('"' :: (body ++ '"' :: rest)).length := by
          simp only [List.length_cons, List.length_append]
          omega
        have htext := IsNameText.quoted hrun (ih _ hlt hrest hcovers rfl)
        rwa [List.cons_append, List.append_assoc, List.singleton_append] at htext
      · rw [Quotes.after_outside hquote] at hbehind hcovers
        have hends := (hc rfl).resolve_left hquote
        have hspecial : isSpecial c = false := by
          simp only [Lexer.endsName, Lexer.isSeparator, Bool.or_eq_false_iff,
            decide_eq_false_iff_not] at hends
          simp [isSpecial, hquote, hends]
        exact .cons hspecial (ih _ (Nat.lt_succ_self _) hbehind hcovers rfl)

/-! ### One call -/

namespace Lexer

/-- From `lexer` to `behind`, a token is taken. -/
structure Takes (token : Token) (lexer behind : Lexer) : Prop where
  movesOver : MovesOver token.text.toList lexer behind
  position_eq : token.position = lexer.position
  fits : token.Fits behind.rest

variable {lexer : Lexer} {token : Token}

theorem exists_movesOver_skipComment (lexer : Lexer) :
    ∃ comment, MovesOver comment lexer lexer.skipComment ∧
      (comment = [] ∨ IsComment comment lexer.skipComment.rest) := by
  unfold skipComment
  split
  · rename_i hmark
    refine ⟨_, lexer.movesOver_skipWhile _, .inr ⟨?_, fun hmem => ?_, fun c hc => ?_⟩⟩
    · obtain ⟨rest, hrest⟩ := List.head?_eq_some_iff.mp hmark
      rw [hrest, List.takeWhile_cons_of_pos (by decide)]
      rfl
    · exact absurd (List.mem_takeWhile_imp hmem) (by decide)
    · simpa using eq_false_of_head?_dropWhile hc
  · exact ⟨[], lexer.movesOver_nil, .inl rfl⟩

theorem takes_readName (hstops : lexer.stops = []) (h : lexer.readName.1 = .ok token) :
    Takes token lexer lexer.readName.2 ∧ token.kind = .name := by
  unfold readName at h ⊢
  split at h
  · rename_i text rest hname
    cases h
    obtain ⟨hcovers, hbehind, hends⟩ := takeName_eq_ok hname
    rw [hstops] at hcovers hends
    have hfits : ∀ c ∈ rest.head?, c = ':' ∨ c = '/' ∨ c = '\r' ∨ c = '\n' := by
      intro c hc
      have hends := (hends c hc).2
      simp only [endsName, isSeparator, Bool.or_eq_true, decide_eq_true_eq, List.not_mem_nil,
        or_false] at hends
      rcases hends with ((hslash | hcolon) | hfeed) | hreturn
      · exact .inr (.inl hslash)
      · exact .inl hcolon
      · exact .inr (.inr (.inr hfeed))
      · exact .inr (.inr (.inl hreturn))
    refine ⟨⟨⟨?_, ?_⟩, rfl, ?_, hfits⟩, rfl⟩
    · simp only [String.toList_ofList, takeName_append hname]
    · simp only [String.toList_ofList]
    · simp only [String.toList_ofList]
      exact isNameText_of_covers hbehind hcovers
  · cases h

theorem takes_readNumber (hdigit : lexer.rest.head?.any Char.isDigit = true)
    (h : lexer.readNumber.1 = .ok token) :
    Takes token lexer lexer.readNumber.2 ∧ token.kind = .number := by
  unfold readNumber at h ⊢
  dsimp only at h ⊢
  split at h
  · rename_i hall
    cases h
    rw [if_pos hall]
    have hmoves : MovesOver (String.ofList (lexer.rest.takeWhile inNumber)).toList lexer
        (lexer.skipWhile inNumber) := by
      rw [String.toList_ofList]
      exact lexer.movesOver_skipWhile inNumber
    refine ⟨⟨hmoves, rfl, ?_, ?_, ?_⟩, rfl⟩
    · obtain ⟨d, hhead, hd⟩ := (Option.any_eq_true _ _).mp hdigit
      obtain ⟨rest, hrest⟩ := List.head?_eq_some_iff.mp hhead
      simp only [String.toList_ofList]
      rw [hrest, List.takeWhile_cons_of_pos (inNumber_of_isDigit hd)]
      exact ⟨d, rfl, hd⟩
    · simp only [String.toList_ofList]
      simpa using hall
    · intro c hc
      have hends := eq_false_of_head?_dropWhile hc
      simp only [inNumber, Bool.and_eq_false_iff, decide_eq_false_iff_not, not_not] at hends
      exact hends
  · cases h

theorem takes_readSegment (hstops : lexer.stops = []) (h : lexer.readSegment.1 = .ok token) :
    Takes token lexer lexer.readSegment.2 ∧ (token.kind = .name ∨ token.kind = .number) := by
  unfold readSegment at h ⊢
  split
  · rename_i hdigit
    rw [if_pos hdigit] at h
    obtain ⟨htakes, hkind⟩ := takes_readNumber hdigit h
    exact ⟨htakes, .inr hkind⟩
  · rename_i hdigit
    rw [if_neg hdigit] at h
    obtain ⟨htakes, hkind⟩ := takes_readName hstops h
    exact ⟨htakes, .inl hkind⟩

theorem takes_skipOne {c : Char} {rest : List Char} (hrest : lexer.rest = c :: rest)
    (htext : token.text.toList = [c]) (hposition : token.position = lexer.position)
    (hfits : token.Fits rest) : Takes token lexer lexer.skipOne := by
  have htail : lexer.skipOne.rest = rest := congrArg List.tail hrest
  refine ⟨?_, hposition, ?_⟩
  · rw [htext]
    exact movesOver_skipOne hrest
  · rwa [htail]

/-- What a call moves over from `lexer` to `behind`: a text, and behind it a token.  Behind a
newline, a comment is left out as well. -/
def TakesBehind (text : List Char) (token : Token) (lexer behind : Lexer) : Prop :=
  ∃ place taken, MovesOver text lexer place ∧ Takes token place taken ∧
    (behind = taken ∨ token.kind = .newline ∧ behind = taken.skipComment)

theorem takesBehind_read (hstops : lexer.stops = []) (h : lexer.read.1 = .ok token) :
    ∃ lead, IsLead token.kind lead ∧ TakesBehind lead token lexer lexer.read.2 := by
  unfold read at h ⊢
  split at h
  · rename_i hrest
    cases h
    exact ⟨[], .inl ⟨rfl, TokenKind.noConfusion⟩, lexer, lexer, lexer.movesOver_nil,
      ⟨lexer.movesOver_nil, rfl, rfl, hrest⟩, .inl rfl⟩
  · rename_i c rest hrest
    split at h
    · rename_i htab
      cases h
      subst htab
      exact ⟨[], .inl ⟨rfl, TokenKind.noConfusion⟩, lexer, _, lexer.movesOver_nil,
        takes_skipOne hrest (by simp) rfl rfl, .inl rfl⟩
    · rename_i htab
      rw [if_neg htab]
      split at h
      · rename_i hfeed
        cases h
        subst hfeed
        exact ⟨[], .inl ⟨rfl, TokenKind.noConfusion⟩, lexer, _, lexer.movesOver_nil,
          takes_skipOne hrest (by simp) rfl rfl, .inr ⟨rfl, rfl⟩⟩
      · rename_i hfeed
        rw [if_neg hfeed]
        split at h
        · rename_i hseparator
          rw [if_pos hseparator]
          obtain ⟨separator, hmem, hmoves⟩ := exists_movesOver_skipSeparator hrest hseparator
          have hbehind : lexer.skipSeparator.stops = [] :=
            lexer.movesTo_skipSeparator.stops_eq.trans hstops
          obtain ⟨htakes, hkind⟩ := takes_readSegment hbehind h
          exact ⟨separator, .inr ⟨hmem, hkind⟩, _, _, hmoves, htakes, .inl rfl⟩
        · rename_i hseparator
          have hnone : c ∉ lexer.stops := by
            rw [hstops]
            exact List.not_mem_nil
          rw [if_neg hnone] at h
          rw [if_neg hseparator, if_neg hnone]
          obtain ⟨htakes, hkind⟩ := takes_readName hstops h
          refine ⟨[], .inl ⟨rfl, ?_⟩, lexer, _, lexer.movesOver_nil, htakes, .inl rfl⟩
          rw [hkind]
          exact TokenKind.noConfusion

/-- **What a call moves over**: blanks, what leads the token, and the token. -/
theorem takesBehind_next (hpushed : lexer.pushed = none) (hstops : lexer.stops = [])
    {behind : Lexer} (h : lexer.next = (.ok token, behind)) :
    ∃ blanks lead, IsBlanks blanks ∧ IsLead token.kind lead ∧
      TakesBehind (blanks ++ lead) token lexer behind := by
  rw [next_eq_read_skipWhile hpushed] at h
  obtain ⟨lead, hlead, place, taken, hmoves, htakes, hbehind⟩ :=
    @takesBehind_read (lexer.skipWhile isGap) token hstops (congrArg Prod.fst h)
  rw [h] at hbehind
  have hblanks : IsBlanks (lexer.rest.takeWhile isGap) := by
    intro c hc
    have hgap := List.mem_takeWhile_imp hc
    simpa [isGap] using hgap
  exact ⟨_, lead, hblanks, hlead, place, taken, (lexer.movesOver_skipWhile isGap).append hmoves,
    htakes, hbehind⟩

end Lexer

/-! ### All calls -/

/-- The tokens that reading gives, with the one for the end of file. -/
def Reading.allTokens (reading : Reading) : List Token :=
  reading.tokens ++ reading.ending.toOption.toList

namespace Lexer

variable {previous : Option TokenKind} {place lexer : Lexer}

/-- The lexer is at the place, or behind a comment there that was left out with a newline. -/
def StartsAt (previous : Option TokenKind) (place lexer : Lexer) : Prop :=
  ∃ comment, MovesOver comment place lexer ∧
    (comment = [] ∨ previous = some .newline ∧ IsComment comment lexer.rest)

theorem startsAt_self (previous : Option TokenKind) (lexer : Lexer) :
    StartsAt previous lexer lexer :=
  ⟨[], lexer.movesOver_nil, .inl rfl⟩

/-- One call lays out a token in front of those that the calls behind it lay out. -/
theorem StartsAt.laidOut_cons (hplace : StartsAt previous place lexer)
    (hpushed : lexer.pushed = none) (hstops : lexer.stops = []) {token : Token} {behind : Lexer}
    (hnext : lexer.next = (.ok token, behind)) :
    ∃ taken, StartsAt (some token.kind) taken behind ∧ ∀ tokens rest,
      LaidOut (some token.kind) taken.position taken.rest tokens rest →
        LaidOut previous place.position place.rest (token :: tokens) rest := by
  obtain ⟨comment, hmoves, hcomment⟩ := hplace
  obtain ⟨blanks, lead, hblanks, hlead, start, taken, hgap, ⟨htext, hposition, hfits⟩, hcall⟩ :=
    takesBehind_next hpushed hstops hnext
  have hsource : lexer.rest = blanks ++ (lead ++ (token.text.toList ++ taken.rest)) := by
    rw [hgap.rest_eq, htext.rest_eq, List.append_assoc]
  have hstart : token.position = place.position.advanceBy (comment ++ (blanks ++ lead)) := by
    rw [hposition, (hmoves.append hgap).position_eq]
  have htaken : taken.position = token.position.advanceBy token.text.toList := by
    rw [htext.position_eq, hposition]
  refine ⟨taken, ?_, fun tokens rest hlaid => ?_⟩
  · rcases hcall with rfl | ⟨hkind, rfl⟩
    · exact startsAt_self _ _
    · obtain ⟨comment, hmoves, hcomment⟩ := taken.exists_movesOver_skipComment
      exact ⟨comment, hmoves, hcomment.imp_right fun h => ⟨congrArg some hkind, h⟩⟩
  · rw [hmoves.rest_eq, hsource]
    rw [hsource] at hcomment
    rw [htaken] at hlaid
    exact .cons hcomment hblanks hlead hstart hfits hlaid

/-- **The tokens lie in the source**, from the place on where reading begins. -/
theorem StartsAt.laidOut_readAll (hplace : StartsAt previous place lexer)
    (hpushed : lexer.pushed = none) (hstops : lexer.stops = []) :
    ∃ rest, LaidOut previous place.position place.rest lexer.readAll.allTokens rest := by
  induction lexer using readAll.induct generalizing previous place with
  | case1 lexer error behind hnext =>
    rw [readAll_of_error hnext]
    exact ⟨place.rest, .nil⟩
  | case2 lexer token behind hnext hend =>
    rw [readAll_of_endOfFile hnext hend]
    obtain ⟨taken, _, hcons⟩ := hplace.laidOut_cons hpushed hstops hnext
    exact ⟨taken.rest, hcons [] taken.rest .nil⟩
  | case3 lexer token behind hnext hend _ ih =>
    rw [readAll_of_token hnext hend]
    obtain ⟨taken, hbehind, hcons⟩ := hplace.laidOut_cons hpushed hstops hnext
    obtain ⟨rest, hlaid⟩ := ih hbehind (pushed_of_next hpushed hnext)
      ((movesTo_of_next hnext).stops_eq.trans hstops)
    exact ⟨rest, hcons _ rest hlaid⟩

/-- The end of file is given at the end of the source. -/
theorem of_next_endOfFile (hpushed : lexer.pushed = none) (hstops : lexer.stops = [])
    {token : Token} {behind : Lexer} (hnext : lexer.next = (.ok token, behind))
    (hkind : token.kind = .endOfFile) :
    behind.rest = [] ∧ token.position = behind.position := by
  obtain ⟨_, _, _, _, place, taken, _, ⟨htext, hposition, hfits⟩, hcall⟩ :=
    takesBehind_next hpushed hstops hnext
  simp only [Token.Fits, hkind] at hfits
  obtain ⟨hempty, hrest⟩ := hfits
  rcases hcall with rfl | ⟨hnewline, _⟩
  · refine ⟨hrest, ?_⟩
    rw [htext.position_eq, hposition, hempty]
    rfl
  · rw [hkind] at hnewline
    cases hnewline

theorem of_readAll_endOfFile (hpushed : lexer.pushed = none) (hstops : lexer.stops = [])
    {last : Token} (hlast : lexer.readAll.ending = .ok last) :
    lexer.readAll.lexer.rest = [] ∧ last.position = lexer.position.advanceBy lexer.rest := by
  have hends : lexer.readAll.lexer.rest = [] ∧ last.position = lexer.readAll.lexer.position := by
    induction lexer using readAll.induct with
    | case1 lexer error behind hnext =>
      rw [readAll_of_error hnext] at hlast
      cases hlast
    | case2 lexer token behind hnext hend =>
      rw [readAll_of_endOfFile hnext hend] at hlast ⊢
      cases hlast
      exact of_next_endOfFile hpushed hstops hnext hend
    | case3 lexer token behind hnext hend _ ih =>
      rw [readAll_of_token hnext hend] at hlast ⊢
      exact ih (pushed_of_next hpushed hnext) ((movesTo_of_next hnext).stops_eq.trans hstops) hlast
  obtain ⟨hrest, hposition⟩ := hends
  exact ⟨hrest, hposition.trans (lexer.movesTo_readAll.position_eq hrest)⟩

/-- **Reading loses nothing of a source.**  Its tokens, up to the end of file or an error, lie in it
with nothing but comments, blanks and separators between them.  Their texts are the slices of the
source at their offsets, each behind the one before.  The end of file is given only where there is
nothing left. -/
theorem readAll_layout (source : String) :
    (∃ rest, LaidOut none .start source.toList (ofString source).readAll.allTokens rest) ∧
      (∀ token ∈ (ofString source).readAll.allTokens, ∃ front back,
        source = front ++ token.text ++ back ∧ token.position.offset = front.utf8ByteSize) ∧
      (ofString source).readAll.allTokens.Pairwise
        (fun a b => a.position.offset + a.text.utf8ByteSize ≤ b.position.offset) ∧
      (∀ token ∈ (ofString source).readAll.tokens, token.kind ≠ .endOfFile) ∧
      ∀ last, (ofString source).readAll.ending = .ok last →
        last.kind = .endOfFile ∧ (ofString source).readAll.lexer.rest = [] ∧
          last.position = Position.start.advanceBy source.toList := by
  obtain ⟨rest, hlaid⟩ := (startsAt_self none (ofString source)).laidOut_readAll rfl rfl
  refine ⟨⟨rest, hlaid⟩, fun token hmem => ?_, hlaid.pairwise, kind_ne_of_mem_readAll _,
    fun last hlast => ⟨kind_of_ending_readAll hlast, of_readAll_endOfFile rfl rfl hlast⟩⟩
  obtain ⟨front, back, hsource, hposition⟩ := hlaid.exists_slice token hmem
  have hsource : source.toList = front ++ (token.text.toList ++ back) := hsource
  refine ⟨.ofList front, .ofList back, ?_, ?_⟩
  · rw [← String.toList_inj, hsource]
    simp only [String.toList_append, String.toList_ofList, List.append_assoc]
  · rw [hposition, Position.offset_advanceBy]
    exact Nat.zero_add _

end Lexer

end SymbolIndex
