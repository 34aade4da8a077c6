import Mathlib
import SymbolIndex.Proofs.Lexer.Layout

/-!
# Where stop characters end the input

A lexer with extra stop characters reads a source as if it ended in front of one of them.  Which one
that is can be told from the regions of the source: a stop character in a comment or in quotes does
not count, and neither does one in a number.

The lexer that reads the shorter source is followed call by call.  Gaps, names and separators end in
front of the stop character, as they do at the end of a source.  A comment, a number and an open run
of quotes would run over it, so where these reach the end of the shorter source, nothing is behind
it (`IsCut.eq_nil`).

* `next_stoppedBy`: one call.
* `exhaust_stoppedBy`: all calls up to the end of file.
* `exhaust_withStops`: where the input ends, and when that is at the first stop character outside of
  comments and quotes.
-/

namespace SymbolIndex

open Lexer

/-! ### Cutting a source -/

namespace Region

/-- The front of a text, up to a character that satisfies `p` in its region, and the rest. -/
def cut (p : Region → Char → Bool) : Region → List Char → List Char × List Char
  | _, [] => ([], [])
  | region, c :: rest =>
    if p region c then ([], c :: rest)
    else (c :: (cut p (region.after c) rest).1, (cut p (region.after c) rest).2)

/-- A text is cut there: no character of the front satisfies `p`, but the one behind it does. -/
def IsCut (p : Region → Char → Bool) : Region → List Char → List Char → Prop
  | region, [], back => ∀ c ∈ back.head?, p region c = true
  | region, c :: front, back => p region c = false ∧ IsCut p (region.after c) front back

variable {p q : Region → Char → Bool} {region : Region} {front back : List Char}

theorem isCut_cut (p : Region → Char → Bool) (region : Region) (text : List Char) :
    IsCut p region (cut p region text).1 (cut p region text).2 := by
  fun_induction cut p region text with
  | case1 region => exact fun _ hc => nomatch hc
  | case2 region c rest hc =>
    rintro _ ⟨⟩
    exact hc
  | case3 region c rest hc ih => exact ⟨Bool.eq_false_iff.mpr hc, ih⟩

theorem cut_append (p : Region → Char → Bool) (region : Region) (text : List Char) :
    (cut p region text).1 ++ (cut p region text).2 = text := by
  fun_induction cut p region text with
  | case1 => rfl
  | case2 => rfl
  | case3 region c rest hc ih => rw [List.cons_append, ih]

namespace IsCut

/-- There is one way to cut a text. -/
theorem cut_eq (h : IsCut p region front back) : cut p region (front ++ back) = (front, back) := by
  induction front generalizing region with
  | nil =>
    cases back with
    | nil => rfl
    | cons c back => exact if_pos (h c rfl)
  | cons c front ih =>
    rw [List.cons_append, cut, if_neg (Bool.eq_false_iff.mp h.1), ih h.2]

theorem head (h : IsCut p region front back) :
    ∀ c ∈ back.head?, p (region.behind front) c = true := by
  induction front generalizing region with
  | nil => exact h
  | cons c front ih => exact ih h.2

/-- Where nothing satisfies `p`, a text is not cut but at its end. -/
theorem eq_nil (h : IsCut p region front back) (hnone : ∀ c, p (region.behind front) c = false) :
    back = [] := by
  cases back with
  | nil => rfl
  | cons c back =>
    have hc := h.head c rfl
    rw [hnone c] at hc
    cases hc

/-- The same where the front is all one stretch. -/
theorem eq_nil_of_dropWhile {r : Char → Bool} (h : IsCut p region front back)
    (hdrop : front.dropWhile r = [])
    (hnone : ∀ c, p (region.behind (front.takeWhile r)) c = false) : back = [] := by
  have hfront := List.takeWhile_append_dropWhile (p := r) (l := front)
  rw [hdrop, List.append_nil] at hfront
  rw [hfront] at hnone
  exact h.eq_nil hnone

theorem behind {s t : List Char} (h : IsCut p region (s ++ t) back) :
    IsCut p (region.behind s) t back := by
  induction s generalizing region with
  | nil => exact h
  | cons c s ih => exact ih h.2

/-- A text is cut at the same place for a stronger reason. -/
theorem mono (h : IsCut p region front back)
    (hqp : ∀ region c, q region c = true → p region c = true)
    (hback : ∀ c ∈ back.head?, q (region.behind front) c = true) : IsCut q region front back := by
  induction front generalizing region with
  | nil => exact hback
  | cons c front ih =>
    refine ⟨Bool.eq_false_iff.mpr fun hq => ?_, ih h.2 hback⟩
    exact Bool.eq_false_iff.mp h.1 (hqp region c hq)

end IsCut

/-! ### Stop characters -/

/-- Is the place in neither a comment nor a run of quotes? -/
def isExposed : Region → Bool
  | comment => false
  | region => !region.isQuoted

/-- A stop character outside of comments and quotes. -/
def isStop (stops : List Char) (region : Region) (c : Char) : Bool :=
  c ∈ stops && region.isExposed

/-- A stop character that is part of no number either. -/
def endsInput (stops : List Char) (region : Region) (c : Char) : Bool :=
  isStop stops region c && region.after c ≠ number

variable {stops : List Char} {c : Char}

theorem endsInput_iff : endsInput stops region c = true ↔
    c ∈ stops ∧ region.isExposed = true ∧ region.after c ≠ number := by
  simp [endsInput, isStop, and_assoc]

/-- Characters that mean something to the lexer and are not to be stop characters. -/
def reserved : List Char := [' ', '\t', '\r', '\n', '/', ':', '#', '"']

theorem not_mem_reserved_iff : c ∉ reserved ↔
    c ≠ ' ' ∧ c ≠ '\t' ∧ c ≠ '\r' ∧ c ≠ '\n' ∧ c ≠ '/' ∧ c ≠ ':' ∧ c ≠ '#' ∧ c ≠ '"' := by
  simp [reserved]

/-- Any other character is part of a name. -/
theorem ofChar_of_not_reserved (hc : c ∉ reserved) : ofChar c = between := by
  obtain ⟨_, _, _, hfeed, hslash, hcolon, _, hquote⟩ := not_mem_reserved_iff.mp hc
  rw [ofChar, if_neg hfeed, if_neg (by simp [isSeparator, hslash, hcolon]),
    Quotes.after_outside hquote]
  rfl

/-- A place that reads such a character as any place between tokens does is in neither a comment nor
a run of quotes. -/
theorem isExposed_of_after (hc : c ∉ reserved) (h : region.after c = ofChar c) :
    region.isExposed = true := by
  rw [ofChar_of_not_reserved hc] at h
  obtain ⟨_, _, _, hfeed, _, _, _, hquote⟩ := not_mem_reserved_iff.mp hc
  cases region with
  | comment =>
    rw [after, if_neg hfeed] at h
    cases h
  | name quotes =>
    cases quotes with
    | outside => rfl
    | inside escape =>
      rw [after, Quotes.after, if_neg fun hclosed => hquote hclosed.1] at h
      cases h
  | _ => rfl

/-- Comments and quotes run over stop characters. -/
theorem endsInput_hidden (h : region.isExposed = false) : endsInput stops region c = false := by
  rw [endsInput, isStop, h, Bool.and_false, Bool.false_and]

section Unreserved

variable (hstops : ∀ c ∈ stops, c ∉ reserved)

include hstops

/-- Between two tokens, every stop character ends the input. -/
theorem endsInput_between (hc : c ∈ stops) :
    endsInput stops between c = true := by
  refine endsInput_iff.mpr ⟨hc, rfl, ?_⟩
  show ofChar c ≠ number
  rw [ofChar_of_not_reserved (hstops c hc)]
  exact Region.noConfusion

theorem not_mem_of_between (hc : endsInput stops between c = false) : c ∉ stops :=
  fun hmem => Bool.eq_false_iff.mp hc (endsInput_between hstops hmem)

/-- A number runs over stop characters. -/
theorem endsInput_number : endsInput stops number c = false := by
  refine Bool.eq_false_iff.mpr fun h => ?_
  obtain ⟨hc, _, hafter⟩ := endsInput_iff.mp h
  have hreserved := not_mem_reserved_iff.mp (hstops c hc)
  exact hafter (if_pos (by simp [inNumber, hreserved]))

/-- Between two tokens the region does not matter. -/
theorem IsCut.between (h : IsCut (endsInput stops) region front back)
    (hbetween : IsBetween region front) : IsCut (endsInput stops) between front back := by
  cases front with
  | nil =>
    intro c hc
    obtain ⟨hmem, _⟩ := endsInput_iff.mp (h c hc)
    exact endsInput_between hstops hmem
  | cons c front =>
    have hafter : region.after c = ofChar c := isBetween_cons.mp hbetween
    obtain ⟨hc, hfront⟩ := h
    rw [hafter] at hfront
    refine ⟨Bool.eq_false_iff.mpr fun hends => ?_, hfront⟩
    obtain ⟨hmem, _, hnumber⟩ := endsInput_iff.mp hends
    refine Bool.eq_false_iff.mp hc (endsInput_iff.mpr ⟨hmem, ?_, ?_⟩)
    · exact isExposed_of_after (hstops c hmem) hafter
    · rw [hafter]
      exact hnumber

end Unreserved

end Region

namespace Lexer

open Region

/-! ### All calls -/

/-- Is this the end of file?  An error is not. -/
def isEnd : Except ParseError Token → Bool
  | .ok token => token.kind = .endOfFile
  | .error _ => false

variable {lexer : Lexer}

theorem size_lt_of_next {behind : Lexer} {result : Except ParseError Token}
    (h : lexer.next = (result, behind)) (hend : ¬ isEnd result = true) :
    behind.size < lexer.size := by
  have hlt := lexer.size_next_lt
  rw [h] at hlt
  refine hlt fun token htoken hkind => hend ?_
  have htoken : result = .ok token := htoken
  rw [htoken]
  exact decide_eq_true hkind

/-- What the calls give up to the end of file, which is the last of it, and the lexer there.  An
error does not end the reading. -/
def exhaust (lexer : Lexer) : List (Except ParseError Token) × Lexer :=
  match h : lexer.next with
  | (result, behind) =>
    if hend : isEnd result = true then ([result], behind)
    else
      have : behind.size < lexer.size := size_lt_of_next h hend
      (result :: behind.exhaust.1, behind.exhaust.2)
termination_by lexer.size

theorem exhaust_of_isEnd {behind : Lexer} {result : Except ParseError Token}
    (h : lexer.next = (result, behind)) (hend : isEnd result = true) :
    lexer.exhaust = ([result], behind) := by
  rw [exhaust]
  split
  simp_all

theorem exhaust_of_not_isEnd {behind : Lexer} {result : Except ParseError Token}
    (h : lexer.next = (result, behind)) (hend : ¬ isEnd result = true) :
    lexer.exhaust = (result :: behind.exhaust.1, behind.exhaust.2) := by
  rw [exhaust]
  split
  simp_all

/-! ### Moving -/

/-- The lexer of a longer source, in which the given stop characters end the input. -/
def stoppedBy (lexer : Lexer) (stops back : List Char) : Lexer :=
  { lexer with rest := lexer.rest ++ back, stops }

/-- What a call gives in the longer source. -/
def stoppedCall (stops back : List Char) (call : Except ParseError Token × Lexer) :
    Except ParseError Token × Lexer :=
  (call.1, call.2.stoppedBy stops back)

variable {stops back : List Char} {region : Region}

theorem skipWhile_stoppedBy {p : Char → Bool}
    (h : lexer.rest.dropWhile p = [] → ∀ c ∈ back.head?, p c = false) :
    (lexer.stoppedBy stops back).skipWhile p = (lexer.skipWhile p).stoppedBy stops back := by
  simp only [skipWhile, stoppedBy, (span_append_of_head? h).1, (span_append_of_head? h).2]

theorem skipOne_stoppedBy (h : lexer.rest ≠ []) :
    (lexer.stoppedBy stops back).skipOne = lexer.skipOne.stoppedBy stops back := by
  obtain ⟨c, rest, hrest⟩ := List.exists_cons_of_ne_nil h
  simp only [skipOne, stoppedBy, hrest]
  rfl

theorem endsName_eq (stops : List Char) (c : Char) :
    endsName stops c = (endsName [] c || decide (c ∈ stops)) := by
  simp [endsName]

/-- What is taken of a name when more text follows. -/
def NameCut.followedBy (cut : NameCut) (back : List Char) : NameCut :=
  cut.map fun (text, rest) => (text, rest ++ back)

theorem NameCut.cons_followedBy (c : Char) (cut : NameCut) :
    NameCut.cons c (cut.followedBy back) = (cut.cons c).followedBy back := by
  cases cut <;> rfl

/-- At a stop character there is the end of file. -/
theorem read_of_stop {c : Char} {rest : List Char} (hrest : lexer.rest = c :: rest)
    (hc : c ∈ lexer.stops) (hreserved : c ∉ reserved) :
    lexer.read = (.ok lexer.endOfFile, lexer) := by
  obtain ⟨_, htab, _, hfeed, hslash, hcolon, _⟩ := not_mem_reserved_iff.mp hreserved
  have hseparator : ¬ isSeparator c = true := by simp [isSeparator, hslash, hcolon]
  unfold read
  rw [hrest]
  dsimp only
  rw [if_neg htab, if_neg hfeed, if_neg hseparator, if_pos hc]

section Unreserved

variable (hstops : ∀ c ∈ stops, c ∉ reserved)

include hstops

theorem reserved_of_head? (hcut : IsCut (endsInput stops) region lexer.rest back) {c : Char}
    (hc : c ∈ back.head?) : c ∈ stops ∧ c ∉ reserved := by
  obtain ⟨hmem, _⟩ := endsInput_iff.mp (hcut.head c hc)
  exact ⟨hmem, hstops c hmem⟩

/-- A reserved character does not begin the text behind the cut. -/
theorem head?_stoppedBy (hcut : IsCut (endsInput stops) region lexer.rest back) {c : Char}
    (hc : c ∈ reserved) :
    (lexer.stoppedBy stops back).rest.head? = some c ↔ lexer.rest.head? = some c := by
  show (lexer.rest ++ back).head? = some c ↔ _
  cases hrest : lexer.rest with
  | nil =>
    refine iff_of_false (fun hhead => ?_) (fun hhead => nomatch hhead)
    exact (reserved_of_head? hstops hcut hhead).2 hc
  | cons => rfl

/-- A comment runs over stop characters. -/
theorem skipComment_stoppedBy (hcut : IsCut (endsInput stops) .lineStart lexer.rest back) :
    (lexer.stoppedBy stops back).skipComment = lexer.skipComment.stoppedBy stops back := by
  have hmark := @head?_stoppedBy _ _ _ _ hstops hcut '#' (by decide)
  unfold skipComment
  by_cases hhead : lexer.rest.head? = some '#'
  · rw [if_pos hhead, if_pos (hmark.mpr hhead)]
    refine skipWhile_stoppedBy fun hdrop => ?_
    have hnil := hcut.eq_nil_of_dropWhile hdrop fun c => by
      rw [lineStart_behind_mark hhead, endsInput_hidden rfl]
    rw [hnil]
    exact fun _ hc => nomatch hc
  · rw [if_neg hhead, if_neg (mt hmark.mp hhead)]

theorem skipSeparator_stoppedBy (hcut : IsCut (endsInput stops) region lexer.skipOne.rest back)
    (hne : lexer.rest ≠ []) :
    (lexer.stoppedBy stops back).skipSeparator = lexer.skipSeparator.stoppedBy stops back := by
  have hcolon := @head?_stoppedBy _ _ _ _ hstops hcut ':' (by decide)
  unfold skipSeparator
  dsimp only
  rw [skipOne_stoppedBy hne]
  by_cases hhead : lexer.skipOne.rest.head? = some ':'
  · rw [if_pos hhead, if_pos (hcolon.mpr hhead)]
    refine skipOne_stoppedBy fun hnil => ?_
    rw [hnil] at hhead
    cases hhead
  · rw [if_neg hhead, if_neg (mt hcolon.mp hhead)]

/-! ### Names and numbers -/

/-- **A name ends at a stop character as at the end of the source.**  An open run of quotes leaves
nothing behind the end. -/
theorem takeName_stoppedBy {run : Option QuotedRun} {position : Position} {front : List Char}
    (hcut : IsCut (endsInput stops) (name (Quotes.ofRun run)) front back) :
    takeName stops run position (front ++ back) =
      (takeName [] run position front).followedBy back := by
  fun_induction takeName [] run position front with
  | case1 =>
    refine takeName_of_endsName fun c hc => ?_
    obtain ⟨hmem, _⟩ := endsInput_iff.mp (hcut c hc)
    refine ⟨?_, by simp [endsName, hmem]⟩
    rintro rfl
    exact hstops _ hmem (by decide)
  | case2 run =>
    obtain rfl := hcut.eq_nil fun c => endsInput_hidden rfl
    rfl
  | case3 position rest ih =>
    rw [List.cons_append, takeName, if_pos rfl, ih hcut.2, NameCut.cons_followedBy]
  | case4 position c rest hquote hends =>
    have hmore : endsName stops c = true := by rw [endsName_eq, hends, Bool.true_or]
    rw [List.cons_append, takeName, if_neg hquote, if_pos hmore]
    rfl
  | case5 position c rest hquote hends ih =>
    obtain ⟨hc, hrest⟩ := hcut
    have hmem := not_mem_of_between hstops hc
    have hmore : ¬ endsName stops c = true := by
      rw [endsName_eq]
      simp [hends, hmem]
    have hafter : (name .outside).after c = name .outside := by
      rw [@name_after [] _ c fun _ => .inr (Bool.eq_false_iff.mpr hends),
        Quotes.after_outside hquote]
    rw [Quotes.ofRun_none, hafter] at hrest
    rw [List.cons_append, takeName, if_neg hquote, if_neg hmore, ih hrest, NameCut.cons_followedBy]
  | case6 run position c rest ih =>
    have hrest := hcut.2
    change IsCut _ (name ((Quotes.ofRun (some run)).after c)) rest back at hrest
    rw [← Quotes.ofRun_after] at hrest
    rw [List.cons_append, takeName, ih hrest, NameCut.cons_followedBy]

theorem readName_stoppedBy (hnone : lexer.stops = [])
    (hcut : IsCut (endsInput stops) between lexer.rest back) :
    (lexer.stoppedBy stops back).readName = stoppedCall stops back lexer.readName := by
  have hname : takeName stops none lexer.position (lexer.rest ++ back) =
      (takeName lexer.stops none lexer.position lexer.rest).followedBy back := by
    rw [hnone]
    exact takeName_stoppedBy hstops hcut
  change takeName (lexer.stoppedBy stops back).stops none (lexer.stoppedBy stops back).position
    (lexer.stoppedBy stops back).rest = _ at hname
  unfold readName
  rw [hname]
  cases htake : takeName lexer.stops none lexer.position lexer.rest with
  | ok cut => rfl
  | error opened =>
    -- The run is open at the end, so nothing is behind it.
    obtain rfl : back = [] := by
      obtain ⟨hcovers, hopen⟩ := takeName_eq_error htake
      rw [Quotes.ofRun_none] at hcovers hopen
      refine hcut.eq_nil fun c => endsInput_hidden ?_
      rw [between, name_behind hcovers]
      cases hquotes : Quotes.outside.behind lexer.rest with
      | outside => exact absurd hquotes hopen
      | inside escape => rfl
    show (_, (lexer.stoppedBy stops []).skipAll) = (_, lexer.skipAll.stoppedBy stops [])
    simp only [skipAll, stoppedBy, List.append_nil]

/-- A number runs over stop characters, so none is behind one that reaches the end. -/
theorem readNumber_stoppedBy (hcut : IsCut (endsInput stops) .separator lexer.rest back)
    (hdigit : lexer.rest.head?.any Char.isDigit = true) :
    (lexer.stoppedBy stops back).readNumber = stoppedCall stops back lexer.readNumber := by
  have hspan : lexer.rest.dropWhile inNumber = [] → ∀ c ∈ back.head?, inNumber c = false := by
    intro hdrop
    have hnil := hcut.eq_nil_of_dropWhile hdrop fun c => by
      rw [separator_behind_digit hdigit, endsInput_number hstops]
    rw [hnil]
    exact fun _ hc => nomatch hc
  have htext : (lexer.stoppedBy stops back).rest.takeWhile inNumber =
      lexer.rest.takeWhile inNumber := (span_append_of_head? hspan).1
  unfold readNumber
  dsimp only
  rw [htext, skipWhile_stoppedBy hspan]
  split <;> rfl

theorem readSegment_stoppedBy (hnone : lexer.stops = [])
    (hcut : IsCut (endsInput stops) .separator lexer.rest back) :
    (lexer.stoppedBy stops back).readSegment = stoppedCall stops back lexer.readSegment := by
  have hhead : (lexer.stoppedBy stops back).rest.head?.any Char.isDigit =
      lexer.rest.head?.any Char.isDigit := by
    show (lexer.rest ++ back).head?.any Char.isDigit = _
    cases hrest : lexer.rest with
    | cons => rfl
    | nil =>
      rw [hrest] at hcut
      cases back with
      | nil => rfl
      | cons c back =>
        -- A digit would begin a number here.
        obtain ⟨_, _, hafter⟩ := endsInput_iff.mp (hcut c rfl)
        exact Bool.eq_false_iff.mpr fun hdigit => hafter (if_pos hdigit)
  unfold readSegment
  rw [hhead]
  split
  · rename_i hdigit
    exact readNumber_stoppedBy hstops hcut hdigit
  · rename_i hdigit
    exact readName_stoppedBy hstops hnone (hcut.between hstops (isBetween_separator hdigit))

/-! ### Calls -/

/-- At the cut there is the end of file. -/
theorem read_stoppedBy_of_nil (hcut : IsCut (endsInput stops) region lexer.rest back)
    (hrest : lexer.rest = []) :
    (lexer.stoppedBy stops back).read = (.ok lexer.endOfFile, lexer.stoppedBy stops back) := by
  have hback : (lexer.stoppedBy stops back).rest = back := by
    rw [stoppedBy, hrest, List.nil_append]
  cases back with
  | nil =>
    rw [read, hback]
    rfl
  | cons c more =>
    obtain ⟨hmem, hreserved⟩ := reserved_of_head? hstops hcut rfl
    exact read_of_stop hback hmem hreserved

theorem read_stoppedBy (hnone : lexer.stops = [])
    (hcut : IsCut (endsInput stops) between lexer.rest back) :
    (lexer.stoppedBy stops back).read = stoppedCall stops back lexer.read := by
  cases hrest : lexer.rest with
  | nil =>
    rw [read_stoppedBy_of_nil hstops hcut hrest, read, hrest]
    rfl
  | cons c rest =>
    have hne : lexer.rest ≠ [] := by
      rw [hrest]
      exact List.cons_ne_nil c rest
    have hone : lexer.skipOne.rest = rest := congrArg List.tail hrest
    have hmore : (lexer.stoppedBy stops back).rest = c :: (rest ++ back) := by
      rw [stoppedBy, hrest, List.cons_append]
    obtain ⟨hc, hbehind⟩ : IsCut (endsInput stops) between (c :: rest) back := by
      rwa [hrest] at hcut
    have hmem := not_mem_of_between hstops hc
    unfold read
    rw [hmore, hrest]
    dsimp only
    split
    · rw [skipOne_stoppedBy hne]
      rfl
    split
    · rename_i hfeed
      rw [hfeed, ← hone] at hbehind
      rw [skipOne_stoppedBy hne, skipComment_stoppedBy hstops hbehind]
      rfl
    split
    · rename_i hseparator
      obtain ⟨front, hmem, hfront⟩ := exists_movesOver_skipSeparator hrest hseparator
      rw [hfront.rest_eq] at hcut
      have hsegment := hcut.behind
      rw [between_behind_separator hmem] at hsegment
      rw [← hone] at hbehind
      have hskip : lexer.skipSeparator.stops = [] :=
        lexer.movesTo_skipSeparator.stops_eq.trans hnone
      rw [skipSeparator_stoppedBy hstops hbehind hne]
      exact readSegment_stoppedBy hstops hskip hsegment
    · have hstop : ¬ c ∈ lexer.stops := by
        rw [hnone]
        exact List.not_mem_nil
      show (if c ∈ stops then _ else _) = _
      rw [if_neg hmem, if_neg hstop]
      exact readName_stoppedBy hstops hnone hcut

/-- **A call in front of the cut** gives what it gives where the source ends there. -/
theorem next_stoppedBy (hnone : lexer.stops = []) (hpushed : lexer.pushed = none)
    (hcut : IsCut (endsInput stops) between lexer.rest back) :
    (lexer.stoppedBy stops back).next = stoppedCall stops back lexer.next := by
  have hgap : lexer.rest.dropWhile isGap = [] → ∀ c ∈ back.head?, isGap c = false := by
    intro _ c hc
    have hreserved := not_mem_reserved_iff.mp (reserved_of_head? hstops hcut hc).2
    simp [isGap, hreserved]
  have hbehind : IsCut (endsInput stops) between (lexer.skipWhile isGap).rest back := by
    rw [← List.takeWhile_append_dropWhile (p := isGap) (l := lexer.rest)] at hcut
    have hskip := hcut.behind
    rwa [between_behind_gaps] at hskip
  have hmore : (lexer.stoppedBy stops back).next =
      ((lexer.skipWhile isGap).stoppedBy stops back).read := by
    rw [← skipWhile_stoppedBy hgap]
    exact next_eq_read_skipWhile hpushed
  rw [hmore, next_eq_read_skipWhile hpushed]
  exact read_stoppedBy hstops hnone hbehind

/-- The source that a call leaves is cut at the same place. -/
theorem isCut_of_next (hpushed : lexer.pushed = none) {behind : Lexer}
    {result : Except ParseError Token} (hnext : lexer.next = (result, behind))
    (hcut : IsCut (endsInput stops) between lexer.rest back) :
    IsCut (endsInput stops) between behind.rest back :=
  between_of_next (q := fun region rest => IsCut (endsInput stops) region rest back)
    (fun _ _ _ h => h.behind) (fun _ _ hbetween h => h.between hstops hbetween) hpushed hnext hcut

/-- **All calls** give what they give where the source ends at the cut, and the text behind the cut
is left. -/
theorem exhaust_stoppedBy (hnone : lexer.stops = []) (hpushed : lexer.pushed = none)
    (hcut : IsCut (endsInput stops) between lexer.rest back) :
    (lexer.stoppedBy stops back).exhaust.1 = lexer.exhaust.1 ∧
      (lexer.stoppedBy stops back).exhaust.2.rest = back := by
  induction lexer using exhaust.induct with
  | case1 lexer result behind hnext hend =>
    have hmore : (lexer.stoppedBy stops back).next = (result, behind.stoppedBy stops back) := by
      rw [next_stoppedBy hstops hnone hpushed hcut, hnext]
      rfl
    rw [exhaust_of_isEnd hmore hend, exhaust_of_isEnd hnext hend]
    refine ⟨rfl, ?_⟩
    cases result with
    | error error => cases hend
    | ok token =>
      obtain ⟨hrest, _⟩ := of_next_endOfFile hpushed hnone hnext (of_decide_eq_true hend)
      show behind.rest ++ back = back
      rw [hrest, List.nil_append]
  | case2 lexer result behind hnext hend _ ih =>
    have hmore : (lexer.stoppedBy stops back).next = (result, behind.stoppedBy stops back) := by
      rw [next_stoppedBy hstops hnone hpushed hcut, hnext]
      rfl
    obtain ⟨hresults, hrest⟩ := ih ((movesTo_of_next hnext).stops_eq.trans hnone)
      (pushed_of_next hpushed hnext) (isCut_of_next hstops hpushed hnext hcut)
    rw [exhaust_of_not_isEnd hmore hend, exhaust_of_not_isEnd hnext hend]
    exact ⟨congrArg (result :: ·) hresults, hrest⟩

end Unreserved

/-! ### Sources with stop characters -/

/-- Stop characters end the input at the given place: all calls give what they give for the front
alone, and the rest is left. -/
def EndsAt (source stops : String) (place : List Char × List Char) : Prop :=
  (ofStringWithStops source stops).exhaust.1 = (ofString (.ofList place.1)).exhaust.1 ∧
    (ofStringWithStops source stops).exhaust.2.remainder = .ofList place.2

variable {source stopChars : String}

/-- There is one place where the input ends, since different places leave different rests. -/
theorem EndsAt.snd_eq {one two : List Char × List Char} (hone : EndsAt source stopChars one)
    (htwo : EndsAt source stopChars two) : one.2 = two.2 :=
  String.ofList_injective (hone.2.symm.trans htwo.2)

/-- Where stop characters end the input. -/
theorem endsAt_cut (hstops : ∀ c ∈ stopChars.toList, c ∉ reserved) :
    EndsAt source stopChars (cut (endsInput stopChars.toList) .between source.toList) := by
  have hcut := isCut_cut (endsInput stopChars.toList) .between source.toList
  have hsource := cut_append (endsInput stopChars.toList) .between source.toList
  generalize cut (endsInput stopChars.toList) .between source.toList = place at hcut hsource ⊢
  obtain ⟨front, back⟩ := place
  have hlexer : ofStringWithStops source stopChars =
      (ofString (.ofList front)).stoppedBy stopChars.toList back := by
    simp only [ofStringWithStops, ofString, stoppedBy, String.toList_ofList, hsource]
  have hrest : (ofString (.ofList front)).rest = front := String.toList_ofList
  rw [← hrest] at hcut
  obtain ⟨hresults, hback⟩ := exhaust_stoppedBy hstops rfl rfl hcut
  rw [EndsAt, hlexer, remainder, hback]
  exact ⟨hresults, rfl⟩

/-- **Extra stop characters end the input**, at the first of them that is in no comment, in no
quotes and in no number.  Up to there a lexer gives the tokens and errors of the source that ends
there, and the rest is left.  So it is the first one outside of comments and quotes that ends the
input exactly if that one is in no number. -/
theorem exhaust_withStops (source stops : String) (hstops : ∀ c ∈ stops.toList, c ∉ reserved) :
    let first := cut (isStop stops.toList) .between source.toList
    EndsAt source stops (cut (endsInput stops.toList) .between source.toList) ∧
      (EndsAt source stops first ↔
        ∀ c ∈ first.2.head?, (between.behind first.1).after c ≠ .number) := by
  intro first
  have hends : EndsAt source stops _ := endsAt_cut hstops
  have hfirst := isCut_cut (isStop stops.toList) .between source.toList
  have hcut := isCut_cut (endsInput stops.toList) .between source.toList
  have hsource : first.1 ++ first.2 = source.toList := cut_append _ _ _
  refine ⟨hends, fun hplace c hc => ?_, fun hnumber => ?_⟩
  · -- Both places leave the same rest, so they are the same.
    have hback := hplace.snd_eq hends
    have hfront : first.1 ++ first.2 =
        (cut (endsInput stops.toList) .between source.toList).1 ++ first.2 := by
      rw [hsource, hback, cut_append]
    rw [hback] at hc
    rw [List.append_cancel_right hfront]
    exact (endsInput_iff.mp (hcut.head c hc)).2.2
  · have hsame : IsCut (endsInput stops.toList) .between first.1 first.2 := by
      refine hfirst.mono (fun _ _ h => (Bool.and_eq_true_iff.mp h).1) fun c hc => ?_
      rw [endsInput, hfirst.head c hc]
      exact decide_eq_true (hnumber c hc)
    rw [← hsource, hsame.cut_eq] at hends
    exact hends

/-- A number, stop characters in a comment and in quotes, and then one behind a name. -/
theorem exhaust_withStops_label :
    (∀ c ∈ "[]".toList, c ∉ reserved) ∧
      EndsAt "a::12\n#[b\n\"[\\\"]\"/c[::3]" "[]"
        ("a::12\n#[b\n\"[\\\"]\"/c".toList, "[::3]".toList) := by
  have hstops : ∀ c ∈ "[]".toList, c ∉ reserved := by simp [reserved]
  have hfirst : cut (isStop "[]".toList) .between "a::12\n#[b\n\"[\\\"]\"/c[::3]".toList =
      ("a::12\n#[b\n\"[\\\"]\"/c".toList, "[::3]".toList) := by decide +kernel
  have hplace := (exhaust_withStops "a::12\n#[b\n\"[\\\"]\"/c[::3]" "[]" hstops).2
  rw [hfirst] at hplace
  refine ⟨hstops, hplace.mpr ?_⟩
  rintro _ ⟨⟩
  decide

/-- A number is not ended by a stop character, so its source is read to the end. -/
theorem not_endsAt_number :
    (∀ c ∈ "[".toList, c ∉ reserved) ∧
      cut (isStop "[".toList) .between "a::12[b]".toList = ("a::12".toList, "[b]".toList) ∧
      ¬ EndsAt "a::12[b]" "[" ("a::12".toList, "[b]".toList) := by
  have hrest : (ofStringWithStops "a::12[b]" "[").exhaust.2.remainder = "" := by cbv
  refine ⟨by simp [reserved], by decide +kernel, fun hplace => ?_⟩
  have hback := hplace.2
  rw [hrest] at hback
  exact absurd hback (by decide)

end Lexer

end SymbolIndex
