import Mathlib
import SymbolIndex.Proofs.Lexer.Alike
import SymbolIndex.Proofs.Reference.Grammar

/-!
# What stands in front of a reference

Spaces, tabs, carriage returns and line feeds in front of a reference are gaps between tokens or
tokens that a reference leaves out.  They move what is read, but its positions are no part of a name
(`Reading.Alike.names`).  So the names are those of the text without them.

There is one thing that layout can do.  References share the lexer of index documents, where a `#`
right behind a line feed begins a comment.  A reference that begins with `#` loses its first line
behind such layout (`behindLayout`).

* `namesOf_append`: layout in front of a text.
* `parse_append_layout`: layout in front of a reference.
-/

namespace SymbolIndex

open Lexer

variable {R : Position → Position → Prop}

/-! ### Positions -/

theorem Token.Alike.expect {token other : Token} (h : token.Alike R other)
    (kinds : List TokenKind) :
    ResultsAgree R (Token.Alike R) (token.expect kinds) (other.expect kinds) := by
  unfold Token.expect
  rw [h.kind_eq]
  split
  · exact .ok h
  · exact .error _ h.position

theorem Token.mapM_expect_alike {tokens others : List Token}
    (h : List.Forall₂ (Token.Alike R) tokens others) (kinds : List TokenKind) :
    ResultsAgree R (List.Forall₂ (Token.Alike R)) (tokens.mapM (·.expect kinds))
      (others.mapM (·.expect kinds)) := by
  induction h with
  | nil => exact .ok .nil
  | cons htoken _ ih =>
    rw [List.mapM_cons, List.mapM_cons]
    exact (htoken.expect kinds).bind fun _ _ htoken => ih.bind fun _ _ htokens =>
      .ok (.cons htoken htokens)

/-- Names have no positions. -/
theorem Reading.Alike.names {reading other : Reading} (h : reading.Alike R other) :
    ResultsAgree R Eq reading.names other.names := by
  have hnames {tokens others : List Token} (h : List.Forall₂ (Token.Alike R) tokens others) :
      (tokens.filter (·.kind = .name)).map (·.text) =
        (others.filter (·.kind = .name)).map (·.text) := by
    induction h with
    | nil => rfl
    | cons htoken _ ih =>
      rw [List.filter_cons, List.filter_cons, htoken.kind_eq]
      split
      · rw [List.map_cons, List.map_cons, htoken.text_eq, ih]
      · exact ih
  refine (Token.mapM_expect_alike h.tokens _).bind fun _ _ htokens => ?_
  exact h.ending.bind fun _ _ _ => .ok (hnames htokens)

/-- The names that are read of a text, or what is wrong with it. -/
def namesOf (text : List Char) : Except Fault (List String) :=
  (readAll ⟨text, .start, [], none⟩).names.mapError (·.fault)

/-- They are the same wherever the text begins. -/
theorem mapError_names_readAll (text : List Char) (position : Position) :
    (readAll ⟨text, position, [], none⟩).names.mapError (·.fault) = namesOf text := by
  have halike : Lexer.Alike (fun _ _ => True) ⟨text, .start, [], none⟩
      ⟨text, position, [], none⟩ := ⟨rfl, rfl, trivial, .none⟩
  exact (halike.readAll fun _ _ => trivial).names.mapError_eq

theorem PartialName.mapError_parse (source : String) :
    (parse source).mapError (·.fault) = (namesOf source.toList).map ofNames := by
  rw [parse_eq_names, namesOf, Lexer.ofString]
  cases (readAll ⟨source.toList, .start, [], none⟩).names <;> rfl

/-! ### Layout -/

/-- A space, a tab, or a character of a line ending. -/
def IsWhite (c : Char) : Prop := c = ' ' ∨ c = '\t' ∨ c = '\r' ∨ c = '\n'

/-- What is left of a text right behind a line feed: a comment in front is left out. -/
def behindComment (text : List Char) : List Char :=
  if text.head? = some '#' then text.dropWhile (· ≠ '\n') else text

variable {text white : List Char}

theorem namesOf_gap {c : Char} (h : isGap c = true) : namesOf (c :: text) = namesOf text := by
  rw [namesOf, readAll_congr (next_gap h), mapError_names_readAll]

theorem namesOf_tab : namesOf ('\t' :: text) = namesOf text := by
  rw [namesOf, readAll_of_token next_tab TokenKind.noConfusion,
    Reading.names_cons_layout (.inl rfl), mapError_names_readAll]

theorem namesOf_feed : namesOf ('\n' :: text) = namesOf (behindComment text) := by
  have hskip (position : Position) : ∃ behind, skipComment ⟨text, position, [], none⟩ =
      ⟨behindComment text, behind, [], none⟩ := by
    unfold skipComment behindComment
    split
    · exact ⟨_, rfl⟩
    · exact ⟨_, rfl⟩
  obtain ⟨behind, hbehind⟩ := hskip (Position.start.advance '\n')
  rw [namesOf, readAll_of_token next_feed TokenKind.noConfusion,
    Reading.names_cons_layout (.inr rfl), hbehind, mapError_names_readAll]

/-- White characters begin no comment. -/
theorem behindComment_append (h : ∀ c ∈ white, IsWhite c) (hne : white ≠ []) :
    behindComment (white ++ text) = white ++ text := by
  obtain ⟨c, rest, rfl⟩ := List.exists_cons_of_ne_nil hne
  have hc : c ≠ '#' := by
    rintro rfl
    exact absurd (h '#' List.mem_cons_self) (by unfold IsWhite; decide)
  exact if_neg fun hhead => hc (Option.some.inj hhead)

/-- **Layout in front of a text is left out**, and so is a comment behind its last line feed. -/
theorem namesOf_append (h : ∀ c ∈ white, IsWhite c) :
    namesOf (white ++ text) =
      namesOf (if white.getLast? = some '\n' then behindComment text else text) := by
  induction white with
  | nil => rfl
  | cons c white ih =>
    obtain ⟨hc, hwhite⟩ := List.forall_mem_cons.mp h
    by_cases hne : white = []
    · subst hne
      rcases hc with rfl | rfl | rfl | rfl
      · exact namesOf_gap rfl
      · exact namesOf_tab
      · exact namesOf_gap rfl
      · exact namesOf_feed
    · rw [List.getLast?_cons_of_ne_nil hne, ← ih hwhite]
      rcases hc with rfl | rfl | rfl | rfl
      · exact namesOf_gap rfl
      · exact namesOf_tab
      · exact namesOf_gap rfl
      · rw [List.cons_append, namesOf_feed, behindComment_append hwhite hne]

/-! ### References -/

namespace PartialName

/-- What a reference says that stands behind the given layout. -/
def behindLayout (layout source : String) : String :=
  if layout.toList.getLast? = some '\n' ∧ source.toList.head? = some '#' then
    .ofList (source.toList.dropWhile (· ≠ '\n'))
  else source

theorem toList_behindLayout (layout source : String) :
    (behindLayout layout source).toList =
      if layout.toList.getLast? = some '\n' then behindComment source.toList
      else source.toList := by
  unfold behindLayout behindComment
  by_cases hfeed : layout.toList.getLast? = some '\n'
  · by_cases hmark : source.toList.head? = some '#'
    · rw [if_pos ⟨hfeed, hmark⟩, if_pos hfeed, if_pos hmark, String.toList_ofList]
    · rw [if_neg fun h => hmark h.2, if_pos hfeed, if_neg hmark]
  · rw [if_neg fun h => hfeed h.1, if_neg hfeed]

/-- **Layout in front of a reference is ignored.**  Whatever stands behind spaces, tabs and line
endings is read as it would be without them, or refused for the same fault.  Only a first line that
begins with `#` is no part of the reference if it stands right behind a line feed. -/
theorem parse_append_layout {layout : String}
    (h : ∀ c ∈ layout.toList, c = ' ' ∨ c = '\t' ∨ c = '\r' ∨ c = '\n') (source : String) :
    (parse (layout ++ source)).mapError (·.fault) =
      (parse (behindLayout layout source)).mapError (·.fault) := by
  rw [mapError_parse, mapError_parse, String.toList_append, namesOf_append h, toList_behindLayout]

/-- Line endings and tabs, with a reference behind them that has lost its first line. -/
theorem parse_append_layout_lines :
    (∀ c ∈ " \t\r\n\n".toList, c = ' ' ∨ c = '\t' ∨ c = '\r' ∨ c = '\n') ∧
      behindLayout " \t\r\n\n" "#a\"b\r\n\t:List@\n x" = "\n\t:List@\n x" ∧
      parse (" \t\r\n\n" ++ "#a\"b\r\n\t:List@\n x") = .ok ⟨["x", "List@"]⟩ := by
  have hwhite : ∀ c ∈ " \t\r\n\n".toList, c = ' ' ∨ c = '\t' ∨ c = '\r' ∨ c = '\n' := by simp
  have hbehind : behindLayout " \t\r\n\n" "#a\"b\r\n\t:List@\n x" = "\n\t:List@\n x" := by
    decide +kernel
  have hread : parse "\n\t:List@\n x" = .ok ⟨["x", "List@"]⟩ := by cbv
  have hparse := parse_append_layout hwhite "#a\"b\r\n\t:List@\n x"
  rw [hbehind, hread] at hparse
  exact ⟨hwhite, hbehind, mapError_eq_ok_iff.mp hparse⟩

/-- A reference to the members called `size` says nothing behind a line feed. -/
theorem parse_mark_behind_feed :
    parse "#size" = .ok ⟨["size", "#"]⟩ ∧ parse ("\n" ++ "#size") = .ok ⟨[]⟩ := by
  refine ⟨by cbv, by cbv⟩

end PartialName

end SymbolIndex
