import SymbolIndex.Proofs.Document.Writing

/-!
# The tokens of a written document

The lexer gives the tokens of each line one after another, then those of the next: a tab
for each step of depth, the first name, the segments and the line feed.  Every piece ends
where the next begins, since a segment begins with a colon and no name or number runs over
one; and no line begins a comment, since no spelled name begins with its mark.

* `ofDocument_write`: parted at the line feeds, the tokens of a document are those of its
  lines.
-/

namespace SymbolIndex

open Lexer

/-- A colon or a line feed is next. -/
def EndsSegment (rest : List Char) : Prop := ∀ c ∈ rest.head?, c = ':' ∨ c = '\n'

theorem EndsSegment.endsName {rest : List Char} (h : EndsSegment rest) : EndsName [] rest := by
  intro c hc
  rcases h c hc with rfl | rfl <;> decide

/-! ### Segments -/

namespace Segment

def kind : Segment → TokenKind
  | number _ => .number
  | name .. => .name

def token (segment : Segment) (position : Position) : Token :=
  ⟨segment.kind, .ofList segment.text, position.advanceBy segment.separator⟩

def tokens : Position → List Segment → List Token
  | _, [] => []
  | position, segment :: rest =>
    segment.token position :: tokens (position.advanceBy segment.written) rest

theorem separator_mem (segment : Segment) : segment.separator ∈ separators := by
  cases segment with
  | number value => simp [separator, separators]
  | name doubled name => cases doubled <;> simp [separator, separators]

theorem next_eq (segment : Segment) {position : Position} {rest : List Char}
    (hends : EndsSegment rest) :
    next ⟨segment.separator ++ (segment.text ++ rest), position, [], none⟩ =
      (.ok (segment.token position), ⟨rest, position.advanceBy segment.written, [], none⟩) := by
  have hseparator := segment.separator_mem
  cases segment with
  | number value =>
    refine next_segment_number hseparator Nat.toDigits_ne_nil ?_ ?_
    · intro d hd
      exact Decimal.isDigit_of_mem_toDigits hd
    · intro d hd
      rcases hends d hd with rfl | rfl <;> decide
  | name doubled name =>
    have hhead : ((Segment.name doubled name).text ++ rest).head? = name.text.head? :=
      name.head?_text_append rest
    refine next_segment_name hseparator name.passes hends.endsName ?_ ?_
    · intro hcolon
      rw [hhead] at hcolon
      exact absurd (name.beginsName_text ':' hcolon).1 (by decide)
    · rw [hhead]
      exact name.isDigit_text

theorem endsSegment_flatMap (segments : List Segment) (rest : List Char) :
    EndsSegment (segments.flatMap written ++ '\n' :: rest) := by
  intro c hc
  cases segments with
  | nil => exact .inr (Option.some.inj hc).symm
  | cons segment segments =>
    left
    cases segment with
    | number value => exact (Option.some.inj hc).symm
    | name doubled name => cases doubled <;> exact (Option.some.inj hc).symm

theorem gives_tokens (segments : List Segment) (position : Position) (rest : List Char) :
    Gives ⟨segments.flatMap written ++ '\n' :: rest, position, [], none⟩ (tokens position segments)
      ⟨'\n' :: rest, position.advanceBy (segments.flatMap written), [], none⟩ := by
  induction segments generalizing position with
  | nil => exact .nil _
  | cons segment segments ih =>
    have hends := endsSegment_flatMap segments rest
    rw [List.flatMap_cons, Position.advanceBy_append, written, List.append_assoc, List.append_assoc]
    refine .cons (segment.next_eq hends) ?_ (ih _)
    cases segment <;> simp [token, kind]

theorem kind_ne_newline_of_mem_tokens {segments : List Segment} {position : Position}
    {token : Token} (h : token ∈ tokens position segments) : token.kind ≠ .newline := by
  induction segments generalizing position with
  | nil => cases h
  | cons segment segments ih =>
    rcases List.mem_cons.mp h with rfl | h
    · cases segment <;> exact TokenKind.noConfusion
    · exact ih h

end Segment

/-! ### The first name of a line -/

namespace SpelledContent

theorem passes_head (content : SpelledContent) : Passes [] content.head := by
  cases content with
  | group name => exact name.passes
  | leaf spelled =>
    refine spelled.element.passes.append ?_
    cases spelled.member with
    | none => exact passes_nil
    | some member =>
      exact (SymbolName.passes_delimiter member.known).append member.property.passes

theorem head_ne_nil (content : SpelledContent) : content.head ≠ [] := by
  cases content with
  | group name => exact name.text_ne_nil
  | leaf spelled => exact List.append_ne_nil_of_left_ne_nil spelled.element.text_ne_nil _

theorem beginsName_head (content : SpelledContent) :
    ∀ c ∈ content.head.head?, beginsName [] c = true ∧ c ≠ '#' := by
  cases content with
  | group name => exact name.beginsName_text
  | leaf spelled =>
    intro c hc
    rw [head, spelled.element.head?_text_append] at hc
    exact spelled.element.beginsName_text c hc

end SpelledContent

/-! ### Lines -/

/-- The tokens of `n` tabs. -/
def tabTokens : Position → Nat → List Token
  | _, 0 => []
  | position, n + 1 => ⟨.tab, "\t", position⟩ :: tabTokens (position.advance '\t') n

theorem gives_tabTokens (n : Nat) (position : Position) (rest : List Char) :
    Gives ⟨List.replicate n '\t' ++ rest, position, [], none⟩ (tabTokens position n)
      ⟨rest, position.advanceBy (List.replicate n '\t'), [], none⟩ := by
  induction n generalizing position with
  | zero => exact .nil _
  | succ n ih => exact .cons next_tab TokenKind.noConfusion (ih _)

theorem kind_of_mem_tabTokens {n : Nat} {position : Position} {token : Token}
    (h : token ∈ tabTokens position n) : token.kind = .tab := by
  induction n generalizing position with
  | zero => cases h
  | succ n ih =>
    rcases List.mem_cons.mp h with rfl | h
    · rfl
    · exact ih h

theorem length_tabTokens (n : Nat) (position : Position) : (tabTokens position n).length = n := by
  induction n generalizing position with
  | zero => rfl
  | succ n ih => rw [tabTokens, List.length_cons, ih]

namespace SpelledLine

/-- Where the name of a line begins that begins at `position`. -/
def namePosition (line : SpelledLine) (position : Position) : Position :=
  position.advanceBy line.tabs

/-- Where the segments of the line begin. -/
def segmentsPosition (line : SpelledLine) (position : Position) : Position :=
  (line.namePosition position).advanceBy line.content.head

def nameToken (line : SpelledLine) (position : Position) : Token :=
  ⟨.name, .ofList line.content.head, line.namePosition position⟩

def tokens (line : SpelledLine) (position : Position) : List Token :=
  tabTokens position line.depth ++ line.nameToken position ::
    Segment.tokens (line.segmentsPosition position) line.content.segments

/-- The token that ends the line. -/
def newline (line : SpelledLine) (position : Position) : Token :=
  ⟨.newline, "\n",
    (line.segmentsPosition position).advanceBy (line.content.segments.flatMap Segment.written)⟩

theorem gives_line (line : SpelledLine) (position : Position) {rest : List Char}
    (hcomment : rest.head? ≠ some '#') :
    Gives ⟨line.text ++ rest, position, [], none⟩
      (line.tokens position ++ [line.newline position])
      ⟨rest, position.advanceBy line.text, [], none⟩ := by
  have hends := Segment.endsSegment_flatMap line.content.segments rest
  have hname := next_name (line.namePosition position) line.content.passes_head hends.endsName
    line.content.head_ne_nil fun c hc => (line.content.beginsName_head c hc).1
  have hsegments :=
    Segment.gives_tokens line.content.segments (line.segmentsPosition position) rest
  have htext : line.text ++ rest = List.replicate line.depth '\t' ++
      (line.content.head ++ (line.content.segments.flatMap Segment.written ++ '\n' :: rest)) := by
    simp [text, tabs]
  have hbehind : position.advanceBy line.text = (line.newline position).position.advance '\n' := by
    simp [text, newline, segmentsPosition, namePosition]
  rw [htext, hbehind, tokens, List.append_assoc]
  refine (gives_tabTokens line.depth position _).append (.cons hname TokenKind.noConfusion ?_)
  exact hsegments.append (.cons (next_newline _ hcomment) TokenKind.noConfusion (.nil _))

/-! ### Documents -/

theorem head?_flatMap_text (lines : List SpelledLine) : (lines.flatMap text).head? ≠ some '#' := by
  intro h
  cases lines with
  | nil => cases h
  | cons line lines =>
    rw [List.flatMap_cons, text, tabs, List.append_assoc] at h
    cases hdepth : line.depth with
    | zero =>
      obtain ⟨c, front, hhead⟩ := List.exists_cons_of_ne_nil line.content.head_ne_nil
      have hc := (line.content.beginsName_head c (by rw [hhead]; rfl)).2
      rw [hdepth, hhead] at h
      exact hc (Option.some.inj h)
    | succ n =>
      rw [hdepth] at h
      exact absurd h (by simp [List.replicate_succ])

/-- The lines of tokens of a written document.  Behind the last line feed is an empty line. -/
def tokenLines : Position → List SpelledLine → List TokenLine
  | position, [] => [⟨[], .ok ⟨.endOfFile, "", position⟩⟩]
  | position, line :: rest =>
    ⟨line.tokens position, .ok (line.newline position)⟩ ::
      tokenLines (position.advanceBy line.text) rest

end SpelledLine

theorem TokenLine.split_append_newline {front : List Token} {newline : Token} {rest : List Token}
    {ending : Except ParseError Token} (hfront : ∀ token ∈ front, token.kind ≠ .newline)
    (hnewline : newline.kind = .newline) :
    split ending (front ++ newline :: rest) = ⟨front, .ok newline⟩ :: split ending rest := by
  induction front with
  | nil => rw [List.nil_append, split, if_pos hnewline]
  | cons token front ih =>
    rw [List.cons_append, split, if_neg (hfront token List.mem_cons_self),
      ih fun t ht => hfront t (List.mem_cons_of_mem token ht)]
    rfl

namespace SpelledLine

theorem kind_ne_newline_of_mem_tokens (line : SpelledLine) (position : Position) :
    ∀ token ∈ line.tokens position, token.kind ≠ .newline := by
  intro token h
  rcases List.mem_append.mp h with h | h
  · rw [kind_of_mem_tabTokens h]
    exact TokenKind.noConfusion
  · rcases List.mem_cons.mp h with rfl | h
    · exact TokenKind.noConfusion
    · exact Segment.kind_ne_newline_of_mem_tokens h

theorem split_readAll (lines : List SpelledLine) (position : Position) :
    TokenLine.split (readAll ⟨lines.flatMap text, position, [], none⟩).ending
      (readAll ⟨lines.flatMap text, position, [], none⟩).tokens = tokenLines position lines := by
  induction lines generalizing position with
  | nil =>
    rw [List.flatMap_nil, readAll_of_endOfFile next_nil rfl]
    rfl
  | cons line lines ih =>
    have hgives := line.gives_line position (head?_flatMap_text lines)
    rw [List.flatMap_cons, hgives.readAll_eq]
    show TokenLine.split (readAll ⟨lines.flatMap text, _, [], none⟩).ending
      (line.tokens position ++ [line.newline position] ++ _) = _
    rw [List.append_assoc, List.singleton_append,
      TokenLine.split_append_newline (line.kind_ne_newline_of_mem_tokens position) rfl, ih]
    rfl

/-- **The tokens of a written document are those of its lines.** -/
theorem ofDocument_write (lines : List SpelledLine) :
    TokenLine.ofDocument (write lines) = tokenLines .start lines := by
  have hsource : (ofString (write lines)).skipLeadingComment =
      ⟨lines.flatMap text, .start, [], none⟩ := by
    have hstart : ofString (write lines) = ⟨lines.flatMap text, .start, [], none⟩ := by
      rw [ofString, write, String.toList_ofList]
    rw [hstart, skipLeadingComment, skipComment, if_neg (head?_flatMap_text lines)]
    exact if_pos rfl
  rw [TokenLine.ofDocument, hsource]
  exact split_readAll lines .start

end SpelledLine

end SymbolIndex
