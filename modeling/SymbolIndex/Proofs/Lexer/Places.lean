import SymbolIndex.Proofs.Lexer.Layout

/-!
# Where a call reports something

The position of a token or of an error is that of a place which the call moved over.  So it is the
position of a place in the source, counted from its start, whatever was read before.

If the source ends with a line feed, then it is a place in front of one: a token other than the end
of file stands in front of a line feed, and so does every error but an open run of quotes.  Offsets
tell this, since they grow with every character that is moved over.

* `exists_place_of_next`: the place.
* `isPlaceIn_of_readAll`: the places of all tokens, and of the error that ends them.
* `EndsLine.offset_lt_of_readAll`: they are in front of the end, if that is behind a line feed.
-/

namespace SymbolIndex

/-- Where a token begins, or where an error was noticed. -/
def placeOf : Except ParseError Token → Position
  | .ok token => token.position
  | .error error => error.position

/-- The position is that of a place in the text, counted from its start. -/
def Position.IsPlaceIn (text : List Char) (p : Position) : Prop :=
  ∃ front back, text = front ++ back ∧ p = start.advanceBy front

/-- The offset of a place is the size of what stands in front of it. -/
theorem Position.IsPlaceIn.exists_front {source : String} {p : Position}
    (h : p.IsPlaceIn source.toList) : ∃ front back : String, source = front ++ back ∧
      p = start.advanceBy front.toList ∧ p.offset = front.utf8ByteSize := by
  obtain ⟨front, back, hsource, rfl⟩ := h
  refine ⟨.ofList front, .ofList back, ?_, ?_, ?_⟩
  · rw [← String.ofList_append, ← hsource, String.ofList_toList]
  · rw [String.toList_ofList]
  · rw [offset_advanceBy]
    exact Nat.zero_add _

namespace Lexer

variable {lexer behind : Lexer} {result : Except ParseError Token}

/-! ### The place of a call -/

/-- The call that leads from `lexer` to `behind` has moved over a place at the position. -/
def MovesOverPlace (position : Position) (lexer behind : Lexer) : Prop :=
  ∃ place, MovesTo lexer place ∧ MovesTo place behind ∧ place.position = position

theorem MovesOverPlace.of_movesTo {position : Position} {place : Lexer}
    (hmoves : MovesTo lexer place) (h : MovesOverPlace position place behind) :
    MovesOverPlace position lexer behind := by
  obtain ⟨middle, hfront, hback, hposition⟩ := h
  exact ⟨middle, hmoves.trans hfront, hback, hposition⟩

/-- The place where the lexer stands. -/
theorem MovesTo.movesOverPlace_left (h : MovesTo lexer behind) :
    MovesOverPlace lexer.position lexer behind :=
  ⟨lexer, .refl lexer, h, rfl⟩

theorem MovesTo.movesOverPlace_right (h : MovesTo lexer behind) :
    MovesOverPlace behind.position lexer behind :=
  ⟨behind, h, .refl behind, rfl⟩

theorem opened_after {run other : QuotedRun} {c : Char} (h : run.after c = some other) :
    other.opened = run.opened := by
  unfold QuotedRun.after at h
  split at h
  · cases h
  · cases h
    rfl

/-- A run that stays open was open before, or was opened at a place of the source. -/
theorem exists_opened {stops : List Char} {run : Option QuotedRun} {position opened : Position}
    {source : List Char} (h : takeName stops run position source = .error opened) :
    (∃ other, run = some other ∧ opened = other.opened) ∨
      ∃ front back, source = front ++ back ∧ opened = position.advanceBy front := by
  have hcons {c : Char} {position : Position} {source : List Char}
      (h : ∃ front back, source = front ++ back ∧
        opened = (position.advance c).advanceBy front) :
      ∃ front back, c :: source = front ++ back ∧ opened = position.advanceBy front := by
    obtain ⟨front, back, rfl, hopened⟩ := h
    exact ⟨c :: front, back, rfl, hopened⟩
  fun_induction takeName stops run position source with
  | case1 => cases h
  | case2 run position =>
    cases h
    exact .inl ⟨run, rfl, rfl⟩
  | case3 position r ih =>
    rcases ih (NameCut.cons_eq_error h) with ⟨_, hrun, hopened⟩ | hplace
    · cases hrun
      exact .inr ⟨[], '"' :: r, rfl, hopened⟩
    · exact .inr (hcons hplace)
  | case4 => cases h
  | case5 position c r hquote hends ih =>
    rcases ih (NameCut.cons_eq_error h) with ⟨_, hrun, _⟩ | hplace
    · cases hrun
    · exact .inr (hcons hplace)
  | case6 run position c r ih =>
    rcases ih (NameCut.cons_eq_error h) with ⟨other, hrun, hopened⟩ | hplace
    · exact .inl ⟨run, rfl, hopened.trans (opened_after hrun)⟩
    · exact .inr (hcons hplace)

theorem exists_place_of_readName (lexer : Lexer) :
    MovesOverPlace (placeOf lexer.readName.1) lexer lexer.readName.2 := by
  have hmoves := lexer.movesTo_readName
  unfold readName at hmoves ⊢
  split at hmoves
  · exact hmoves.movesOverPlace_left
  · rename_i opened hname
    rcases exists_opened hname with ⟨_, hrun, _⟩ | ⟨front, back, hrest, hopened⟩
    · cases hrun
    · refine ⟨{ lexer with rest := back, position := opened }, ?_, ?_, rfl⟩
      · exact ⟨⟨front, hrest, hopened⟩, rfl⟩
      · refine ⟨⟨back, (List.append_nil back).symm, ?_⟩, rfl⟩
        show lexer.position.advanceBy lexer.rest = opened.advanceBy back
        rw [hrest, hopened, Position.advanceBy_append]

theorem exists_place_of_readSegment (lexer : Lexer) :
    MovesOverPlace (placeOf lexer.readSegment.1) lexer lexer.readSegment.2 := by
  unfold readSegment
  split
  · have hmoves := lexer.movesTo_readNumber
    unfold readNumber at hmoves ⊢
    dsimp only at hmoves ⊢
    split at hmoves
    · rename_i hall
      rw [if_pos hall]
      exact hmoves.movesOverPlace_left
    · rename_i hall
      rw [if_neg hall]
      exact hmoves.movesOverPlace_right
  · exact lexer.exists_place_of_readName

theorem exists_place_of_read (lexer : Lexer) :
    MovesOverPlace (placeOf lexer.read.1) lexer lexer.read.2 := by
  have hmoves := lexer.movesTo_read
  unfold read at hmoves ⊢
  split
  · exact (MovesTo.refl lexer).movesOverPlace_left
  · split
    · exact lexer.movesTo_skipOne.movesOverPlace_left
    · split
      · exact (lexer.movesTo_skipOne.trans
          lexer.skipOne.movesTo_skipComment).movesOverPlace_left
      · split
        · exact .of_movesTo lexer.movesTo_skipSeparator
            lexer.skipSeparator.exists_place_of_readSegment
        · split
          · exact (MovesTo.refl lexer).movesOverPlace_left
          · exact lexer.exists_place_of_readName

/-- **What a call reports is at a place that it moves over.** -/
theorem exists_place_of_next (hpushed : lexer.pushed = none)
    (hnext : lexer.next = (result, behind)) : MovesOverPlace (placeOf result) lexer behind := by
  rw [next_eq_read_skipWhile hpushed] at hnext
  have hplace := (lexer.skipWhile isGap).exists_place_of_read
  rw [hnext] at hplace
  exact .of_movesTo (lexer.movesTo_skipWhile isGap) hplace

/-! ### Reading to the end -/

/-- What holds of every call, while a property of the lexer is kept, holds of the tokens and of the
ending of reading. -/
theorem readAll_induction {p : Lexer → Prop} {q : Except ParseError Token → Prop}
    (hstep : ∀ {lexer behind result}, p lexer → lexer.next = (result, behind) →
      q result ∧ ∀ token, result = .ok token → token.kind ≠ .endOfFile → p behind)
    (h : p lexer) : (∀ token ∈ lexer.readAll.tokens, q (.ok token)) ∧ q lexer.readAll.ending := by
  induction lexer using readAll.induct with
  | case1 lexer error behind hnext =>
    rw [readAll_of_error hnext]
    exact ⟨List.forall_mem_nil _, (hstep h hnext).1⟩
  | case2 lexer token behind hnext hend =>
    rw [readAll_of_endOfFile hnext hend]
    exact ⟨List.forall_mem_nil _, (hstep h hnext).1⟩
  | case3 lexer token behind hnext hend _ ih =>
    rw [readAll_of_token hnext hend]
    obtain ⟨htoken, hbehind⟩ := hstep h hnext
    obtain ⟨htokens, hending⟩ := ih (hbehind token rfl hend)
    exact ⟨List.forall_mem_cons.mpr ⟨htoken, htokens⟩, hending⟩

section Places

variable {source stops : String}

/-- **Wherever a lexer stands is a place in its source.** -/
theorem isPlaceIn_of_movesTo (h : MovesTo (ofStringWithStops source stops) lexer) :
    lexer.position.IsPlaceIn source.toList := by
  obtain ⟨front, hrest, hposition⟩ := h.exists_text
  exact ⟨front, lexer.rest, hrest, hposition⟩

theorem MovesOverPlace.isPlaceIn {position : Position}
    (h : MovesOverPlace position (ofStringWithStops source stops) lexer) :
    position.IsPlaceIn source.toList := by
  obtain ⟨place, hplace, _, rfl⟩ := h
  exact isPlaceIn_of_movesTo hplace

/-- **Reading reports nothing but places in the source.** -/
theorem isPlaceIn_of_readAll (h : MovesTo (ofStringWithStops source stops) lexer)
    (hpushed : lexer.pushed = none) :
    (∀ token ∈ lexer.readAll.tokens, token.position.IsPlaceIn source.toList) ∧
      (placeOf lexer.readAll.ending).IsPlaceIn source.toList := by
  have hread := @readAll_induction lexer
    (fun other => MovesTo (ofStringWithStops source stops) other ∧ other.pushed = none)
    (fun result => (placeOf result).IsPlaceIn source.toList) ?_ ⟨h, hpushed⟩
  · exact hread
  rintro other behind result ⟨hmoves, hpushed⟩ hnext
  have hplace := MovesOverPlace.of_movesTo hmoves (exists_place_of_next hpushed hnext)
  exact ⟨hplace.isPlaceIn, fun _ _ _ =>
    ⟨hmoves.trans (movesTo_of_next hnext), pushed_of_next hpushed hnext⟩⟩

end Places

/-! ### Sources that end with a line feed -/

/-- The offset of the end of the source. -/
def endOffset (lexer : Lexer) : Nat := lexer.position.offset + lexer.remainder.utf8ByteSize

theorem MovesTo.endOffset_eq (h : MovesTo lexer behind) : behind.endOffset = lexer.endOffset :=
  h.offset_add

theorem MovesOver.endOffset_eq {text : List Char} (h : MovesOver text lexer behind) :
    behind.endOffset = lexer.endOffset :=
  h.offset_add

theorem offset_lt_endOffset (h : lexer.rest ≠ []) : lexer.position.offset < lexer.endOffset := by
  have hall := lexer.movesTo_skipAll
  have hlt := hall.offset_lt (List.length_pos_iff.mpr h)
  rw [← hall.endOffset_eq]
  exact hlt.trans_le (Nat.le_add_right _ _)

theorem EndsLine.rest_ne_nil (h : lexer.EndsLine) : lexer.rest ≠ [] := by
  obtain ⟨c, rest, hrest⟩ := h.exists_cons
  rw [hrest]
  exact List.cons_ne_nil c rest

/-- In a source that ends with a line feed, no call but that for an open run of quotes reports
anything behind it. -/
theorem EndsLine.offset_lt_of_next (h : lexer.EndsLine) (hpushed : lexer.pushed = none)
    (hstops : lexer.stops = []) (hnext : lexer.next = (result, behind))
    (hclosed : IsClosed result) :
    (placeOf result).offset < lexer.endOffset ∧ (behind.EndsLine ∨ behind.rest = []) := by
  have hgoes := h.next [] hpushed (by rw [hnext]; exact hclosed)
  rw [hnext] at hgoes
  rcases hgoes with ⟨hends, _⟩ | ⟨token, _, heq, hkind, hrest, _⟩
  · have hends : behind.EndsLine := hends
    obtain ⟨place, hfront, hback, hposition⟩ := exists_place_of_next hpushed hnext
    refine ⟨?_, .inl hends⟩
    calc (placeOf result).offset
        = place.position.offset := by rw [hposition]
      _ ≤ behind.position.offset := hback.offset_le
      _ < behind.endOffset := offset_lt_endOffset hends.rest_ne_nil
      _ = lexer.endOffset := (hfront.trans hback).endOffset_eq
  · -- The newline stands in front of the last line feed.
    cases heq
    obtain ⟨_, _, _, _, place, taken, hgap, ⟨htext, hposition, hfits⟩, _⟩ :=
      takesBehind_next hpushed hstops hnext
    simp only [Token.Fits, hkind] at hfits
    have hfeed : place.rest ≠ [] := by
      rw [htext.rest_eq, hfits]
      simp
    refine ⟨?_, .inr hrest⟩
    rw [placeOf, hposition, ← hgap.endOffset_eq]
    exact offset_lt_endOffset hfeed

/-- **In a source that ends with a line feed**, all tokens are in front of its end, and so is an
error that ends them. -/
theorem EndsLine.offset_lt_of_readAll (h : lexer.EndsLine) (hpushed : lexer.pushed = none)
    (hstops : lexer.stops = []) :
    (∀ token ∈ lexer.readAll.tokens, token.position.offset < lexer.endOffset) ∧
      ∀ error, lexer.readAll.ending = .error error → IsClosed lexer.readAll.ending →
        error.position.offset < lexer.endOffset := by
  have hread := @readAll_induction lexer
    (fun other => (other.pushed = none ∧ other.stops = [] ∧ other.endOffset = lexer.endOffset) ∧
      (other.EndsLine ∨ other.rest = []))
    (fun result => IsClosed result → (∀ token, result = .ok token → token.kind ≠ .endOfFile) →
      (placeOf result).offset < lexer.endOffset)
    ?_ ⟨⟨hpushed, hstops, rfl⟩, .inl h⟩
  · obtain ⟨htokens, hending⟩ := hread
    refine ⟨fun token hmem => htokens token hmem (isClosed_ok token) ?_,
      fun error herror hclosed => ?_⟩
    · rintro _ ⟨⟩
      exact kind_ne_of_mem_readAll lexer token hmem
    · rw [herror] at hending hclosed
      exact hending hclosed fun _ h => nomatch h
  rintro other behind result ⟨⟨hpushed, hstops, hend⟩, hends | hrest⟩ hnext
  · refine ⟨fun hclosed _ => ?_, ?_⟩
    · rw [← hend]
      exact (hends.offset_lt_of_next hpushed hstops hnext hclosed).1
    · rintro token rfl _
      have hmoves := movesTo_of_next hnext
      exact ⟨⟨pushed_of_next hpushed hnext, hmoves.stops_eq.trans hstops,
        hmoves.endOffset_eq.trans hend⟩,
        (hends.offset_lt_of_next hpushed hstops hnext (isClosed_ok token)).2⟩
  · rw [next_of_rest_eq_nil hrest hpushed] at hnext
    cases hnext
    refine ⟨fun _ hkind => absurd rfl (hkind _ rfl), ?_⟩
    rintro _ ⟨⟩ hkind
    exact absurd rfl hkind

end Lexer

end SymbolIndex
