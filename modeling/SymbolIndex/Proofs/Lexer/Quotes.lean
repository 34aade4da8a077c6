import SymbolIndex.Proofs.Lexer.Steps

/-!
# Runs of quotes in a name

A run begins at a double quote and ends at the next one that has no backslash of the run in
front of it.  `Quotes` follows a text from character to character and says no more than whether
a run is open.  What the lexer does with a name can be told in these terms:

* `takeName_eq_ok`: a name that is taken is a text in which every character that would end it is
  in quotes; no run is open behind it, and it ends where the source does or in front of such a
  character.
* `takeName_eq_error`: a name that is not taken opens a run that does not end in the source.
-/

namespace SymbolIndex

/-- Where a place in a text is. -/
inductive Quotes where
  | outside
  /-- In a run of quotes; `escape` says that the character in front is a backslash of the run. -/
  | inside (escape : Bool)
  deriving DecidableEq, Repr

namespace Quotes

/-- Where the place behind one more character is. -/
def after (quotes : Quotes) (c : Char) : Quotes :=
  match quotes with
  | outside => if c = '"' then inside false else outside
  | inside escape => if c = '"' ∧ escape = false then outside else inside (c = '\\')

/-- Where the place behind a text is. -/
def behind (quotes : Quotes) (text : List Char) : Quotes :=
  text.foldl after quotes

@[simp] theorem behind_nil (quotes : Quotes) : quotes.behind [] = quotes := rfl

@[simp] theorem behind_cons (quotes : Quotes) (c : Char) (text : List Char) :
    quotes.behind (c :: text) = (quotes.after c).behind text := rfl

theorem behind_append (quotes : Quotes) (s t : List Char) :
    quotes.behind (s ++ t) = (quotes.behind s).behind t :=
  List.foldl_append

theorem after_outside {c : Char} (h : c ≠ '"') : outside.after c = outside := if_neg h

/-- The place that the lexer has reached in a name. -/
def ofRun : Option QuotedRun → Quotes
  | none => outside
  | some run => inside run.escape

@[simp] theorem ofRun_none : ofRun none = outside := rfl

theorem ofRun_after (run : QuotedRun) (c : Char) :
    ofRun (run.after c) = (ofRun (some run)).after c := by
  obtain ⟨opened, escape⟩ := run
  by_cases hc : c = '"'
  · cases escape <;> simp [QuotedRun.after, ofRun, after, hc]
  · simp [QuotedRun.after, ofRun, after, hc]

/-- Every character of the text that ends names is in quotes. -/
def Covers (stops : List Char) : Quotes → List Char → Prop
  | _, [] => True
  | quotes, c :: rest =>
    (quotes = outside → c = '"' ∨ Lexer.endsName stops c = false) ∧
      Covers stops (quotes.after c) rest

end Quotes

namespace Lexer

open Quotes

variable {stops : List Char} {run : Option QuotedRun} {position : Position} {source : List Char}

theorem endsName_nil : EndsName stops [] := by
  rintro _ ⟨⟩

/-- **A name that is taken** is covered by its quotes and ends where they do not cover. -/
theorem takeName_eq_ok {text rest : List Char}
    (h : takeName stops run position source = .ok (text, rest)) :
    Covers stops (ofRun run) text ∧ (ofRun run).behind text = .outside ∧ EndsName stops rest := by
  fun_induction takeName stops run position source generalizing text with
  | case1 =>
    cases h
    exact ⟨trivial, rfl, endsName_nil⟩
  | case2 => cases h
  | case3 position r ih =>
    obtain ⟨tail, htail, rfl⟩ := NameCut.cons_eq_ok h
    obtain ⟨hcovers, hbehind, hends⟩ := ih htail
    exact ⟨⟨fun _ => .inl rfl, hcovers⟩, hbehind, hends⟩
  | case4 position c r hquote hends =>
    cases h
    refine ⟨trivial, rfl, ?_⟩
    rintro _ ⟨⟩
    exact ⟨hquote, hends⟩
  | case5 position c r hquote hends ih =>
    obtain ⟨tail, htail, rfl⟩ := NameCut.cons_eq_ok h
    obtain ⟨hcovers, hbehind, hrest⟩ := ih htail
    refine ⟨⟨fun _ => .inr (Bool.eq_false_iff.mpr hends), ?_⟩, ?_, hrest⟩
    · rw [ofRun, after_outside hquote]
      exact hcovers
    · rw [ofRun, behind_cons, after_outside hquote]
      exact hbehind
  | case6 run position c r ih =>
    obtain ⟨tail, htail, rfl⟩ := NameCut.cons_eq_ok h
    obtain ⟨hcovers, hbehind, hends⟩ := ih htail
    rw [ofRun_after] at hcovers hbehind
    exact ⟨⟨fun houtside => Quotes.noConfusion houtside, hcovers⟩, hbehind, hends⟩

theorem NameCut.cons_eq_error {c : Char} {cut : NameCut} {opened : Position}
    (h : cut.cons c = .error opened) : cut = .error opened := by
  cases cut with
  | error => exact h
  | ok => cases h

/-- **A name that is not taken** is covered to the end of the source by a run that stays open. -/
theorem takeName_eq_error {opened : Position}
    (h : takeName stops run position source = .error opened) :
    Covers stops (ofRun run) source ∧ (ofRun run).behind source ≠ .outside := by
  fun_induction takeName stops run position source with
  | case1 => cases h
  | case2 run position => exact ⟨trivial, Quotes.noConfusion⟩
  | case3 position r ih =>
    obtain ⟨hcovers, hbehind⟩ := ih (NameCut.cons_eq_error h)
    exact ⟨⟨fun _ => .inl rfl, hcovers⟩, hbehind⟩
  | case4 => cases h
  | case5 position c r hquote hends ih =>
    obtain ⟨hcovers, hbehind⟩ := ih (NameCut.cons_eq_error h)
    refine ⟨⟨fun _ => .inr (Bool.eq_false_iff.mpr hends), ?_⟩, ?_⟩
    · rw [ofRun, after_outside hquote]
      exact hcovers
    · rw [ofRun, behind_cons, after_outside hquote]
      exact hbehind
  | case6 run position c r ih =>
    obtain ⟨hcovers, hbehind⟩ := ih (NameCut.cons_eq_error h)
    rw [ofRun_after] at hcovers hbehind
    exact ⟨⟨fun houtside => Quotes.noConfusion houtside, hcovers⟩, hbehind⟩

end Lexer

end SymbolIndex
