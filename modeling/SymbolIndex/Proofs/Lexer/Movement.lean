import SymbolIndex.Lexer.Reading

/-!
# Moving over the source

Whatever a lexer does, it moves over a stretch of its source, and its position moves along.
`MovesTo` says this of two lexers; every way to move has it, so every call has it
(`movesTo_next`), and so has reading to the end (`movesTo_readAll`).  `MovesOver` names the
stretch.

* `MovesTo.offset_add`, `MovesTo.offset_lt`: offsets tell how far a lexer has moved.
* `of_read_endOfFile`: a lexer that gives the end of file stands at the end of its source,
  or in front of a stop character.
-/

namespace SymbolIndex.Lexer

/-- The second lexer is the first one behind a stretch of the source. -/
structure MovesTo (lexer behind : Lexer) : Prop where
  exists_text : ∃ text, lexer.rest = text ++ behind.rest ∧
    behind.position = lexer.position.advanceBy text
  stops_eq : behind.stops = lexer.stops

namespace MovesTo

theorem refl (lexer : Lexer) : MovesTo lexer lexer := ⟨⟨[], rfl, rfl⟩, rfl⟩

theorem trans {a b c : Lexer} (hab : MovesTo a b) (hbc : MovesTo b c) : MovesTo a c := by
  obtain ⟨⟨front, hfront, hposition⟩, hstops⟩ := hab
  obtain ⟨⟨back, hback, hposition'⟩, hstops'⟩ := hbc
  refine ⟨⟨front ++ back, ?_, ?_⟩, hstops'.trans hstops⟩
  · rw [hfront, hback, List.append_assoc]
  · rw [hposition', hposition, Position.advanceBy_append]

/-- At the end of the source, the position is that of its end. -/
theorem position_eq {lexer behind : Lexer} (h : MovesTo lexer behind) (hend : behind.rest = []) :
    behind.position = lexer.position.advanceBy lexer.rest := by
  obtain ⟨text, hrest, hposition⟩ := h.exists_text
  rw [hposition, hrest, hend, List.append_nil]

end MovesTo

/-- The second lexer is the first one behind the given text. -/
structure MovesOver (text : List Char) (lexer behind : Lexer) : Prop where
  rest_eq : lexer.rest = text ++ behind.rest
  position_eq : behind.position = lexer.position.advanceBy text

theorem MovesOver.append {front back : List Char} {lexer middle behind : Lexer}
    (hfront : MovesOver front lexer middle) (hback : MovesOver back middle behind) :
    MovesOver (front ++ back) lexer behind := by
  refine ⟨?_, ?_⟩
  · rw [hfront.rest_eq, hback.rest_eq, List.append_assoc]
  · rw [hback.position_eq, hfront.position_eq, Position.advanceBy_append]

theorem movesOver_nil (lexer : Lexer) : MovesOver [] lexer lexer := ⟨rfl, rfl⟩

theorem movesOver_skipOne {lexer : Lexer} {c : Char} {rest : List Char}
    (hrest : lexer.rest = c :: rest) : MovesOver [c] lexer lexer.skipOne := by
  refine ⟨?_, ?_⟩
  · show lexer.rest = [c] ++ lexer.rest.tail
    rw [hrest]
    rfl
  · show lexer.position.advanceBy (lexer.rest.take 1) = _
    rw [hrest]
    rfl

variable (lexer : Lexer)

theorem movesOver_skipWhile (p : Char → Bool) :
    MovesOver (lexer.rest.takeWhile p) lexer (lexer.skipWhile p) :=
  ⟨List.takeWhile_append_dropWhile.symm, rfl⟩

theorem movesTo_skipWhile (p : Char → Bool) : MovesTo lexer (lexer.skipWhile p) :=
  ⟨⟨lexer.rest.takeWhile p, List.takeWhile_append_dropWhile.symm, rfl⟩, rfl⟩

theorem movesTo_skipOne : MovesTo lexer lexer.skipOne := by
  refine ⟨⟨lexer.rest.take 1, ?_, rfl⟩, rfl⟩
  rw [skipOne, ← List.drop_one, List.take_append_drop]

theorem movesTo_skipAll : MovesTo lexer lexer.skipAll :=
  ⟨⟨lexer.rest, (List.append_nil _).symm, rfl⟩, rfl⟩

theorem movesTo_skipComment : MovesTo lexer lexer.skipComment := by
  unfold skipComment
  split
  · exact lexer.movesTo_skipWhile _
  · exact .refl lexer

theorem movesTo_skipSeparator : MovesTo lexer lexer.skipSeparator := by
  unfold skipSeparator
  dsimp only
  split
  · exact lexer.movesTo_skipOne.trans lexer.skipOne.movesTo_skipOne
  · exact lexer.movesTo_skipOne

theorem movesTo_readName : MovesTo lexer lexer.readName.2 := by
  unfold readName
  split
  · rename_i text rest h
    exact ⟨⟨text, (takeName_append h).symm, rfl⟩, rfl⟩
  · exact lexer.movesTo_skipAll

theorem movesTo_readNumber : MovesTo lexer lexer.readNumber.2 := by
  unfold readNumber
  dsimp only
  split <;> exact lexer.movesTo_skipWhile inNumber

theorem movesTo_readSegment : MovesTo lexer lexer.readSegment.2 := by
  unfold readSegment
  split
  · exact lexer.movesTo_readNumber
  · exact lexer.movesTo_readName

theorem movesTo_read : MovesTo lexer lexer.read.2 := by
  unfold read
  split
  · exact .refl lexer
  · split
    · exact lexer.movesTo_skipOne
    · split
      · exact lexer.movesTo_skipOne.trans lexer.skipOne.movesTo_skipComment
      · split
        · exact lexer.movesTo_skipSeparator.trans lexer.skipSeparator.movesTo_readSegment
        · split
          · exact .refl lexer
          · exact lexer.movesTo_readName

/-- **Every call moves over a stretch of the source.** -/
theorem movesTo_next : MovesTo lexer lexer.next.2 := by
  unfold next
  split
  · exact ⟨⟨[], rfl, rfl⟩, rfl⟩
  · exact (lexer.movesTo_skipWhile isGap).trans (lexer.skipWhile isGap).movesTo_read

theorem movesTo_of_next {lexer behind : Lexer} {result : Except ParseError Token}
    (h : lexer.next = (result, behind)) : MovesTo lexer behind := by
  have hmoves := lexer.movesTo_next
  rwa [h] at hmoves

/-- **Reading to the end moves over a stretch of the source.** -/
theorem movesTo_readAll : MovesTo lexer lexer.readAll.lexer := by
  induction lexer using readAll.induct with
  | case1 lexer error behind h =>
    rw [readAll_of_error h]
    exact movesTo_of_next h
  | case2 lexer token behind h hend =>
    rw [readAll_of_endOfFile h hend]
    exact movesTo_of_next h
  | case3 lexer token behind h hend _ ih =>
    rw [readAll_of_token h hend]
    exact (movesTo_of_next h).trans ih

/-! ### Offsets -/

section Offsets

variable {lexer behind : Lexer}

/-- What is moved over is what is no longer left, in bytes. -/
theorem MovesOver.offset_add {text : List Char} (h : MovesOver text lexer behind) :
    behind.position.offset + behind.remainder.utf8ByteSize =
      lexer.position.offset + lexer.remainder.utf8ByteSize := by
  rw [remainder, remainder, h.rest_eq, h.position_eq, Position.offset_advanceBy,
    String.ofList_append, String.utf8ByteSize_append]
  omega

namespace MovesTo

theorem offset_add (h : MovesTo lexer behind) :
    behind.position.offset + behind.remainder.utf8ByteSize =
      lexer.position.offset + lexer.remainder.utf8ByteSize := by
  obtain ⟨text, hrest, hposition⟩ := h.exists_text
  exact MovesOver.offset_add ⟨hrest, hposition⟩

theorem offset_le (h : MovesTo lexer behind) :
    lexer.position.offset ≤ behind.position.offset := by
  obtain ⟨text, _, hposition⟩ := h.exists_text
  rw [hposition, Position.offset_advanceBy]
  exact Nat.le_add_right _ _

/-- A lexer that has less left stands further on. -/
theorem offset_lt (h : MovesTo lexer behind) (hlength : behind.rest.length < lexer.rest.length) :
    lexer.position.offset < behind.position.offset := by
  obtain ⟨text, hrest, hposition⟩ := h.exists_text
  cases text with
  | nil =>
    rw [hrest] at hlength
    exact absurd hlength (Nat.lt_irrefl _)
  | cons c text =>
    have hc := c.utf8Size_pos
    rw [hposition, Position.advanceBy_cons, Position.offset_advanceBy, Position.offset_advance]
    omega

/-- A lexer that stands as far on as another has as much left. -/
theorem rest_eq (h : MovesTo lexer behind)
    (hoffset : behind.position.offset ≤ lexer.position.offset) : behind.rest = lexer.rest := by
  obtain ⟨text, hrest, _⟩ := h.exists_text
  cases text with
  | nil => exact hrest.symm
  | cons c text =>
    have hlength : behind.rest.length < lexer.rest.length := by
      rw [hrest, List.length_append, List.length_cons]
      omega
    exact absurd (h.offset_lt hlength) (Nat.not_lt.mpr hoffset)

end MovesTo

end Offsets

/-! ### What is left -/

theorem next_eq_read_skipWhile {lexer : Lexer} (hpushed : lexer.pushed = none) :
    lexer.next = (lexer.skipWhile isGap).read := by
  rw [next, hpushed]

/-- No call puts a token back. -/
theorem pushed_of_next {lexer behind : Lexer} {result : Except ParseError Token}
    (hpushed : lexer.pushed = none) (h : lexer.next = (result, behind)) : behind.pushed = none := by
  have hread := (lexer.skipWhile isGap).pushed_read
  rw [next_eq_read_skipWhile hpushed] at h
  rw [h] at hread
  exact hread.trans hpushed

theorem pushed_skipComment : lexer.skipComment.pushed = lexer.pushed := by
  unfold skipComment
  split <;> rfl

theorem pushed_readAll {lexer : Lexer} (hpushed : lexer.pushed = none) :
    lexer.readAll.lexer.pushed = none := by
  induction lexer using readAll.induct with
  | case1 lexer error behind h =>
    rw [readAll_of_error h]
    exact pushed_of_next hpushed h
  | case2 lexer token behind h hend =>
    rw [readAll_of_endOfFile h hend]
    exact pushed_of_next hpushed h
  | case3 lexer token behind h hend _ ih =>
    rw [readAll_of_token h hend]
    exact ih (pushed_of_next hpushed h)

/-! ### The end of file -/

theorem kind_of_readName {lexer : Lexer} {token : Token} (h : lexer.readName.1 = .ok token) :
    token.kind = .name := by
  unfold readName at h
  split at h
  · cases h
    rfl
  · cases h

theorem kind_of_readSegment {lexer : Lexer} {token : Token} (h : lexer.readSegment.1 = .ok token) :
    token.kind = .name ∨ token.kind = .number := by
  unfold readSegment readNumber at h
  dsimp only at h
  split at h
  · split at h
    · cases h
      exact .inr rfl
    · cases h
  · exact .inl (kind_of_readName h)

/-- The end of file is given where there is nothing more to read, and the lexer stays there. -/
theorem of_read_endOfFile {lexer : Lexer} {token : Token} (h : lexer.read.1 = .ok token)
    (hkind : token.kind = .endOfFile) :
    lexer.read = (.ok lexer.endOfFile, lexer) ∧ ∀ c ∈ lexer.rest.head?, c ∈ lexer.stops := by
  unfold read at h ⊢
  split at h
  · rename_i hrest
    rw [hrest]
    exact ⟨rfl, fun _ hc => nomatch hc⟩
  · rename_i c rest hrest
    rw [hrest]
    split at h
    · cases h
      cases hkind
    · split at h
      · cases h
        cases hkind
      · split at h
        · rcases kind_of_readSegment h with hname | hnumber
          · rw [hname] at hkind
            cases hkind
          · rw [hnumber] at hkind
            cases hkind
        · split at h
          · rename_i htab hfeed hseparator hstop
            rw [if_neg htab, if_neg hfeed, if_neg hseparator, if_pos hstop]
            refine ⟨rfl, ?_⟩
            rintro _ ⟨⟩
            exact hstop
          · rw [kind_of_readName h] at hkind
            cases hkind

theorem kind_ne_of_mem_readAll (lexer : Lexer) :
    ∀ token ∈ lexer.readAll.tokens, token.kind ≠ .endOfFile := by
  induction lexer using readAll.induct with
  | case1 lexer error behind h =>
    rw [readAll_of_error h]
    exact List.forall_mem_nil _
  | case2 lexer token behind h hend =>
    rw [readAll_of_endOfFile h hend]
    exact List.forall_mem_nil _
  | case3 lexer token behind h hend _ ih =>
    rw [readAll_of_token h hend]
    exact List.forall_mem_cons.mpr ⟨hend, ih⟩

theorem kind_of_ending_readAll {lexer : Lexer} {last : Token}
    (hlast : lexer.readAll.ending = .ok last) : last.kind = .endOfFile := by
  induction lexer using readAll.induct with
  | case1 lexer error behind h =>
    rw [readAll_of_error h] at hlast
    cases hlast
  | case2 lexer token behind h hend =>
    rw [readAll_of_endOfFile h hend] at hlast
    cases hlast
    exact hend
  | case3 lexer token behind h hend _ ih =>
    rw [readAll_of_token h hend] at hlast
    exact ih hlast

/-- At the end of the source there is nothing but the end of file. -/
theorem next_of_rest_eq_nil {lexer : Lexer} (hrest : lexer.rest = [])
    (hpushed : lexer.pushed = none) : lexer.next = (.ok lexer.endOfFile, lexer) := by
  have hskip : lexer.skipWhile isGap = lexer := by
    cases lexer
    simp only at hrest
    subst hrest
    rfl
  rw [next_eq_read_skipWhile hpushed, hskip, read, hrest]

theorem readAll_of_rest_eq_nil {lexer : Lexer} (hrest : lexer.rest = [])
    (hpushed : lexer.pushed = none) : lexer.readAll = ⟨[], .ok lexer.endOfFile, lexer⟩ :=
  readAll_of_endOfFile (next_of_rest_eq_nil hrest hpushed) rfl

end SymbolIndex.Lexer
