import SymbolIndex.Proofs.Lexer.Places
import SymbolIndex.Proofs.Lexer.Stops

/-!
# Sequences of calls

A lexer can be asked for tokens, can be given one of them back, and can be told to skip a comment at
its start, in any order.  Whatever the order, it stands at a place of its source, and what it has
given are tokens and errors at places that it has moved over.

A call that reads, and gives anything but the end of file, moves over at least one character.  So
there are at most as many such calls as the source has bytes.  At the end of file nothing moves any
more, a comment apart that a lexer at its start may still skip.

* `Reaches.movesTo`, `Reaches.movesOverPlace`: where a lexer stands, and where its results are.
* `offset_lt_of_next`: progress.
* `next_of_isEnd`, `rests_of_isEnd`: what comes behind the end of file.
* `Reaches.length_exhaust_le`: the number of calls up to the end of file.
-/

namespace SymbolIndex.Lexer

/-- What the calls of a lexer have given so far, the last one first, and the lexer behind them.  It
goes on from a lexer that has given something earlier.  A token that was given can be put back. -/
inductive Reaches (earlier : List (Except ParseError Token)) (start : Lexer) :
    List (Except ParseError Token) → Lexer → Prop
  | start : Reaches earlier start earlier start
  | next {given : List (Except ParseError Token)} {lexer : Lexer}
      (h : Reaches earlier start given lexer) :
      Reaches earlier start (lexer.next.1 :: given) lexer.next.2
  | push {given : List (Except ParseError Token)} {lexer : Lexer} {token : Token}
      (h : Reaches earlier start given lexer) (htoken : .ok token ∈ given) :
      Reaches earlier start given (lexer.push token)
  | skipLeadingComment {given : List (Except ParseError Token)} {lexer : Lexer}
      (h : Reaches earlier start given lexer) :
      Reaches earlier start given lexer.skipLeadingComment

/-- The lexer behind the given number of calls. -/
def behindCalls (calls : Nat) (lexer : Lexer) : Lexer :=
  (fun other : Lexer => other.next.2)^[calls] lexer

/-- From here on the lexer stays where it is, and gives the same again and again, tokens apart that
are put back. -/
def Rests (earlier : List (Except ParseError Token)) (result : Except ParseError Token)
    (lexer : Lexer) : Prop :=
  ∀ given later, Reaches earlier lexer given later →
    later.position = lexer.position ∧ (later.pushed = none → later.next = (result, later))

variable {start lexer behind : Lexer} {earlier given : List (Except ParseError Token)}
  {result : Except ParseError Token}

/-! ### Places -/

theorem movesTo_push (lexer : Lexer) (token : Token) : MovesTo lexer (lexer.push token) :=
  ⟨⟨[], rfl, rfl⟩, rfl⟩

theorem movesTo_skipLeadingComment (lexer : Lexer) : MovesTo lexer lexer.skipLeadingComment := by
  unfold skipLeadingComment
  split
  · exact lexer.movesTo_skipComment
  · exact .refl lexer

theorem pushed_skipLeadingComment (lexer : Lexer) :
    lexer.skipLeadingComment.pushed = lexer.pushed := by
  unfold skipLeadingComment
  split
  · exact lexer.pushed_skipComment
  · rfl

/-- There is a comment only where the source begins with `#`. -/
theorem skipLeadingComment_eq_self (h : lexer.position.offset = 0 → ¬ lexer.rest.head? = some '#') :
    lexer.skipLeadingComment = lexer := by
  unfold Lexer.skipLeadingComment skipComment
  split
  next hstart => exact if_neg (h hstart)
  next => rfl

/-- A token that was put back is given, and the lexer stays where it is. -/
theorem next_of_pushed {token : Token} (h : lexer.pushed = some token) :
    lexer.next = (.ok token, { lexer with pushed := none }) := by
  rw [next, h]

theorem MovesOverPlace.trans_movesTo {position : Position} {middle : Lexer}
    (h : MovesOverPlace position lexer middle) (hmoves : MovesTo middle behind) :
    MovesOverPlace position lexer behind := by
  obtain ⟨place, hfront, hback, hposition⟩ := h
  exact ⟨place, hfront, hback.trans hmoves, hposition⟩

namespace Reaches

/-- **The lexer stands at a place of its source.** -/
theorem movesTo (h : Reaches earlier start given lexer) : MovesTo start lexer := by
  induction h with
  | start => exact .refl start
  | next _ ih => exact ih.trans (movesTo_next _)
  | push _ _ ih => exact ih.trans (movesTo_push _ _)
  | skipLeadingComment _ ih => exact ih.trans (movesTo_skipLeadingComment _)

/-- A token that is put back was given. -/
theorem mem_of_pushed (h : Reaches [] start given lexer) (hstart : start.pushed = none) :
    ∀ token ∈ lexer.pushed, .ok token ∈ given := by
  induction h with
  | start =>
    rw [hstart]
    exact fun _ hmem => nomatch hmem
  | @next given lexer _ ih =>
    have hbehind : lexer.next.2.pushed = none := by
      cases hpushed : lexer.pushed with
      | none => exact pushed_of_next hpushed rfl
      | some token => rw [next_of_pushed hpushed]
    rw [hbehind]
    exact fun _ hmem => nomatch hmem
  | push _ htoken _ =>
    rintro _ ⟨⟩
    exact htoken
  | @skipLeadingComment given lexer _ ih =>
    rw [pushed_skipLeadingComment]
    exact ih

/-- **All results are at places that were moved over.** -/
theorem movesOverPlace (h : Reaches [] start given lexer) (hstart : start.pushed = none) :
    ∀ result ∈ given, MovesOverPlace (placeOf result) start lexer := by
  induction h with
  | start => exact List.forall_mem_nil _
  | @next given lexer h ih =>
    have hmoves := lexer.movesTo_next
    refine List.forall_mem_cons.mpr ⟨?_, fun result hmem => (ih result hmem).trans_movesTo hmoves⟩
    cases hpushed : lexer.pushed with
    | none => exact .of_movesTo h.movesTo (exists_place_of_next hpushed rfl)
    | some token =>
      -- A token that was put back is at the place where it was given.
      rw [next_of_pushed hpushed] at hmoves ⊢
      exact (ih _ (h.mem_of_pushed hstart token hpushed)).trans_movesTo hmoves
  | push _ _ ih => exact fun result hmem => (ih result hmem).trans_movesTo (movesTo_push _ _)
  | skipLeadingComment _ ih =>
    exact fun result hmem => (ih result hmem).trans_movesTo (movesTo_skipLeadingComment _)

end Reaches

/-! ### Progress -/

/-- **A call that reads makes progress**, unless it gives the end of file.  An error is progress. -/
theorem offset_lt_of_next (hpushed : lexer.pushed = none) (hnext : lexer.next = (result, behind))
    (hend : ¬ isEnd result = true) : lexer.position.offset < behind.position.offset := by
  have hsize := size_lt_of_next hnext hend
  rw [size, size, hpushed, pushed_of_next hpushed hnext] at hsize
  exact (movesTo_of_next hnext).offset_lt (Nat.lt_of_add_lt_add_right hsize)

/-! ### Behind the end of file -/

theorem exists_token_of_isEnd (h : isEnd result = true) :
    ∃ token, result = .ok token ∧ token.kind = .endOfFile := by
  cases result with
  | error error => cases h
  | ok token => exact ⟨token, rfl, of_decide_eq_true h⟩

theorem skipWhile_skipWhile (lexer : Lexer) (p : Char → Bool) :
    (lexer.skipWhile p).skipWhile p = lexer.skipWhile p := by
  have hdrop := List.dropWhile_idempotent p lexer.rest
  have htake : (lexer.rest.dropWhile p).takeWhile p = [] := by
    have happend := List.takeWhile_append_dropWhile (p := p) (l := lexer.rest.dropWhile p)
    rwa [hdrop, List.append_left_eq_self] at happend
  simp only [skipWhile, hdrop, htake, Position.advanceBy_nil]

/-- **Behind the end of file nothing moves**: it is given again and again, and no stretch of the
source is left but one that a stop character begins. -/
theorem next_of_isEnd (hpushed : lexer.pushed = none) (hnext : lexer.next = (result, behind))
    (hend : isEnd result = true) :
    behind.next = (result, behind) ∧ ∀ c ∈ behind.rest.head?, c ∈ behind.stops := by
  obtain ⟨token, rfl, hkind⟩ := exists_token_of_isEnd hend
  rw [next_eq_read_skipWhile hpushed] at hnext
  obtain ⟨hread, hstop⟩ := of_read_endOfFile (congrArg Prod.fst hnext) hkind
  have hskipped : (lexer.skipWhile isGap).pushed = none := hpushed
  rw [hread] at hnext
  cases hnext
  refine ⟨?_, hstop⟩
  rw [next_eq_read_skipWhile hskipped, skipWhile_skipWhile, hread]

/-- However often a lexer is asked behind the end of file, it gives that and stays. -/
theorem behindCalls_of_isEnd (hpushed : lexer.pushed = none)
    (hnext : lexer.next = (result, behind)) (hend : isEnd result = true) (calls : Nat) :
    behind.behindCalls calls = behind := by
  refine Function.iterate_fixed ?_ calls
  rw [(next_of_isEnd hpushed hnext hend).1]

/-- The same for all calls, where no comment can be skipped: all that changes is whether a token is
put back. -/
theorem Reaches.eq_of_isEnd (hpushed : lexer.pushed = none) (hnext : lexer.next = (result, behind))
    (hend : isEnd result = true)
    (hcomment : behind.position.offset = 0 → ¬ behind.rest.head? = some '#') {later : Lexer}
    (h : Reaches earlier behind given later) :
    later = { behind with pushed := later.pushed } := by
  have hbehind : behind.pushed = none := pushed_of_next hpushed hnext
  induction h with
  | start => rfl
  | @next given later _ ih =>
    cases hlater : later.pushed with
    | none =>
      rw [hlater, ← hbehind] at ih
      rw [show later = behind from ih, (next_of_isEnd hpushed hnext hend).1]
    | some token =>
      rw [next_of_pushed hlater, ih]
  | @push given later token _ _ ih =>
    rw [Lexer.push, ih]
  | @skipLeadingComment given later _ ih =>
    rwa [skipLeadingComment_eq_self (by rwa [ih])]

/-- **Behind the end of file a lexer rests.** -/
theorem rests_of_isEnd (hpushed : lexer.pushed = none) (hnext : lexer.next = (result, behind))
    (hend : isEnd result = true)
    (hcomment : behind.position.offset = 0 → ¬ behind.rest.head? = some '#') :
    Rests earlier result behind := by
  intro given later h
  have hlater := h.eq_of_isEnd hpushed hnext hend hcomment
  refine ⟨by rw [hlater], fun hnone => ?_⟩
  have hbehind : behind.pushed = none := pushed_of_next hpushed hnext
  rw [hnone, ← hbehind] at hlater
  rw [show later = behind from hlater, (next_of_isEnd hpushed hnext hend).1]

/-! ### The number of calls -/

/-- The last of all calls gives the end of file. -/
theorem isEnd_behindCalls (lexer : Lexer) :
    ∃ calls, lexer.exhaust.1.length = calls + 1 ∧
      isEnd (lexer.behindCalls calls).next.1 = true := by
  induction lexer using exhaust.induct with
  | case1 lexer result behind hnext hend =>
    rw [exhaust_of_isEnd hnext hend]
    refine ⟨0, rfl, ?_⟩
    show isEnd lexer.next.1 = true
    rw [hnext]
    exact hend
  | case2 lexer result behind hnext hend _ ih =>
    obtain ⟨calls, hlength, hlast⟩ := ih
    refine ⟨calls + 1, ?_, ?_⟩
    · rw [exhaust_of_not_isEnd hnext hend, List.length_cons, hlength]
    · show isEnd (lexer.next.2.behindCalls calls).next.1 = true
      rw [hnext]
      exact hlast

/-- There are at most as many calls up to the end of file as there are bytes left, and one more. -/
theorem length_exhaust_le (hpushed : lexer.pushed = none) :
    lexer.exhaust.1.length ≤ lexer.remainder.utf8ByteSize + 1 := by
  induction lexer using exhaust.induct with
  | case1 lexer result behind hnext hend =>
    rw [exhaust_of_isEnd hnext hend]
    exact Nat.le_add_left 1 _
  | case2 lexer result behind hnext hend _ ih =>
    have hprogress := offset_lt_of_next hpushed hnext hend
    have hleft := (movesTo_of_next hnext).offset_add
    have hbehind := ih (pushed_of_next hpushed hnext)
    rw [exhaust_of_not_isEnd hnext hend, List.length_cons]
    omega

namespace Reaches

/-- Behind a result that is not the end of file, a lexer does not stand at its start. -/
theorem offset_lt (h : Reaches [] start given lexer) (hstart : start.pushed = none) :
    ∀ result ∈ given, ¬ isEnd result = true → start.position.offset < lexer.position.offset := by
  induction h with
  | start => exact List.forall_mem_nil _
  | @next given lexer h ih =>
    have hle := lexer.movesTo_next.offset_le
    refine List.forall_mem_cons.mpr
      ⟨fun hend => ?_, fun result hmem hend => (ih result hmem hend).trans_le hle⟩
    cases hpushed : lexer.pushed with
    | none => exact h.movesTo.offset_le.trans_lt (offset_lt_of_next hpushed rfl hend)
    | some token =>
      rw [next_of_pushed hpushed] at hend ⊢
      exact ih _ (h.mem_of_pushed hstart token hpushed) hend
  | push _ _ ih => exact ih
  | @skipLeadingComment given lexer _ ih =>
    have hle := lexer.movesTo_skipLeadingComment.offset_le
    exact fun result hmem hend => (ih result hmem hend).trans_le hle

/-- **Calls come to an end**, wherever the lexer stands: there are at most as many up to the end of
file as the source has bytes, and one more. -/
theorem length_exhaust_le (h : Reaches [] start given lexer) (hstart : start.pushed = none) :
    lexer.exhaust.1.length ≤ start.remainder.utf8ByteSize + 1 := by
  have hleft := h.movesTo.offset_add
  have hle := h.movesTo.offset_le
  cases hpushed : lexer.pushed with
  | none =>
    have hlength := Lexer.length_exhaust_le hpushed
    omega
  | some token =>
    have hnext := next_of_pushed hpushed
    by_cases hend : isEnd (.ok token) = true
    · rw [exhaust_of_isEnd hnext hend]
      exact Nat.le_add_left 1 _
    · -- The token that was put back was read before, which has taken a byte off.
      have hlt := h.offset_lt hstart _ (h.mem_of_pushed hstart token hpushed) hend
      have hlength := @Lexer.length_exhaust_le { lexer with pushed := none } rfl
      change _ ≤ lexer.remainder.utf8ByteSize + 1 at hlength
      rw [exhaust_of_not_isEnd hnext hend, List.length_cons]
      omega

end Reaches

/-! ### Reading with a number of calls -/

/-- Reads up to the end of file or the first error, with no more than the given number of calls. -/
def readWithin : Nat → Lexer → Option Reading
  | 0, _ => none
  | calls + 1, lexer =>
    match lexer.next with
    | (.error error, behind) => some ⟨[], .error error, behind⟩
    | (.ok token, behind) =>
      if token.kind = .endOfFile then some ⟨[], .ok token, behind⟩
      else (readWithin calls behind).map fun reading =>
        { reading with tokens := token :: reading.tokens }

/-- The calls of reading are the first of all calls: one for each token, and one more. -/
theorem length_readAll_lt (lexer : Lexer) :
    lexer.readAll.tokens.length < lexer.exhaust.1.length := by
  induction lexer using readAll.induct with
  | case1 lexer error behind hnext =>
    rw [readAll_of_error hnext, exhaust_of_not_isEnd hnext Bool.false_ne_true]
    exact Nat.zero_lt_succ _
  | case2 lexer token behind hnext hend =>
    rw [readAll_of_endOfFile hnext hend, exhaust_of_isEnd hnext (decide_eq_true hend)]
    exact Nat.zero_lt_one
  | case3 lexer token behind hnext hend _ ih =>
    rw [readAll_of_token hnext hend, exhaust_of_not_isEnd hnext (mt of_decide_eq_true hend)]
    exact Nat.succ_lt_succ ih

/-- There are enough calls for reading if there are more than tokens. -/
theorem readWithin_eq_some {calls : Nat} (h : lexer.readAll.tokens.length < calls) :
    readWithin calls lexer = some lexer.readAll := by
  obtain ⟨calls, rfl⟩ := Nat.exists_eq_add_one_of_ne_zero (Nat.ne_zero_of_lt h)
  induction lexer using readAll.induct generalizing calls with
  | case1 lexer error behind hnext =>
    rw [readWithin, hnext, readAll_of_error hnext]
  | case2 lexer token behind hnext hend =>
    rw [readWithin, hnext, readAll_of_endOfFile hnext hend]
    exact if_pos hend
  | case3 lexer token behind hnext hend _ ih =>
    rw [readAll_of_token hnext hend] at h ⊢
    have hcalls : behind.readAll.tokens.length < calls := Nat.lt_of_succ_lt_succ h
    obtain ⟨calls, rfl⟩ := Nat.exists_eq_add_one_of_ne_zero (Nat.ne_zero_of_lt hcalls)
    rw [readWithin, hnext]
    dsimp only
    rw [if_neg hend, ih calls hcalls]
    rfl

end SymbolIndex.Lexer
