import SymbolIndex.PartialName
import SymbolIndex.Proofs.Bind
import SymbolIndex.Proofs.Name.Quoting

/-!
# Reading a reference whose names are known

A reference is written name by name, from the most general one on, with a separator
behind each name but the last.  Each name is a text that the lexer runs over; it is told
apart from what is around it if it begins as a name does in its place.  In front, that is
no character that means something there; behind a separator, no digit.

* `parse_joinNames`: such a reference reads as its names, the last one split.
* `parse_spelled`: so do names in quotes, whatever they are.
* `parse_quoted`: names that do not end in a backslash, in quotes as a whole.
-/

namespace SymbolIndex

open Lexer

/-- Names, each with the separator behind it, and one more name. -/
def joinNames (path : List (List Char × List Char)) (last : List Char) : List Char :=
  path.flatMap (fun step => step.1 ++ step.2) ++ last

/-! ### One name -/

/-- A text that is taken as one name at the start of a reference. -/
structure IsStart (text : List Char) : Prop where
  ne_nil : text ≠ []
  passes : Passes [] text
  begins : ∀ c ∈ text.head?, beginsName [] c = true

/-- A text that is taken as one name behind a separator. -/
structure IsSegment (text : List Char) : Prop where
  ne_nil : text ≠ []
  passes : Passes [] text
  no_digit : text.head?.any Char.isDigit = false

/-- Is `text` taken as one name behind `front`, which is a separator or nothing? -/
def Leads (front text : List Char) : Prop :=
  front = [] ∧ IsStart text ∨ front ∈ separators ∧ IsSegment text

/-- A text that a name runs over does not begin with a character that ends names. -/
theorem Passes.endsName_eq {stops text : List Char} {c : Char} (h : Passes stops (c :: text)) :
    c = '"' ∨ endsName stops c = false := by
  by_contra hc
  obtain ⟨hquote, hstop⟩ := not_or.mp hc
  have hends : EndsName stops (c :: text ++ []) := by
    rintro _ ⟨⟩
    exact ⟨hquote, (Bool.not_eq_false _).mp hstop⟩
  have hcut := (h .start []).symm.trans (takeName_of_endsName hends)
  simp [takeName, NameCut.prepend, Except.map] at hcut

theorem IsSegment.head?_append {text : List Char} (h : IsSegment text) (rest : List Char) :
    (text ++ rest).head? ≠ some ':' ∧ (text ++ rest).head?.any Char.isDigit = false := by
  obtain ⟨c, tail, rfl⟩ := List.exists_cons_of_ne_nil h.ne_nil
  refine ⟨?_, h.no_digit⟩
  rintro heq
  obtain rfl : c = ':' := Option.some.inj heq
  rcases Passes.endsName_eq h.passes with hquote | hends
  · exact absurd hquote (by decide)
  · exact absurd hends (by decide)

/-- One call takes the name with what stands in front of it. -/
theorem Leads.next_eq {front text rest : List Char} (h : Leads front text)
    (hends : EndsName [] rest) (position : Position) :
    next ⟨front ++ (text ++ rest), position, [], none⟩ =
      (.ok ⟨.name, .ofList text, position.advanceBy front⟩,
        ⟨rest, position.advanceBy (front ++ text), [], none⟩) := by
  rcases h with ⟨rfl, hstart⟩ | ⟨hfront, hsegment⟩
  · exact next_name position hstart.passes hends hstart.ne_nil hstart.begins
  · obtain ⟨hcolon, hdigit⟩ := hsegment.head?_append rest
    exact next_segment_name hfront hsegment.passes hends hcolon hdigit

theorem endsName_separator {separator : List Char} (h : separator ∈ separators)
    (rest : List Char) : EndsName [] (separator ++ rest) := by
  have hall : ∀ s ∈ separators, ∀ c ∈ (s ++ rest).head?, c ≠ '"' ∧ endsName [] c = true := by
    simp [separators, endsName, isSeparator]
  exact hall separator h

/-! ### All names -/

/-- The lexer gives the names one after another.  The separator behind a name is taken with the
name that follows, so it stands in front of what is left. -/
theorem exists_gives_joinNames (path : List (List Char × List Char)) (front : List Char)
    {last : List Char}
    (hseparator : ∀ step ∈ path, step.2 ∈ separators)
    (hfirst : ∀ text ∈ (path.map (·.1) ++ [last]).head?, Leads front text)
    (hrest : ∀ text ∈ (path.map (·.1) ++ [last]).tail, IsSegment text) (position : Position) :
    ∃ tokens behind, Gives ⟨front ++ joinNames path last, position, [], none⟩ tokens
        ⟨[], behind, [], none⟩ ∧
      (∀ token ∈ tokens, token.kind = .name) ∧
      tokens.map (·.text) = (path.map (·.1) ++ [last]).map String.ofList := by
  induction path generalizing front position with
  | nil =>
    have hends : EndsName [] [] := fun _ hc => nomatch hc
    have hnext := (hfirst last rfl).next_eq hends position
    rw [List.append_nil] at hnext
    refine ⟨_, _, .cons hnext TokenKind.noConfusion (.nil _), ?_, rfl⟩
    intro token htoken
    rw [List.mem_singleton.mp htoken]
  | cons step path ih =>
    obtain ⟨text, separator⟩ := step
    have hmem : separator ∈ separators := hseparator _ List.mem_cons_self
    have hends := endsName_separator hmem (joinNames path last)
    have hnext := (hfirst text rfl).next_eq hends position
    obtain ⟨tokens, behind, hgives, hkind, htext⟩ :=
      ih separator (fun step hstep => hseparator step (List.mem_cons_of_mem _ hstep))
        (fun text htext => .inr ⟨hmem, hrest text (List.mem_of_mem_head? htext)⟩)
        (fun text htext => hrest text (List.mem_of_mem_tail htext))
        (position.advanceBy (front ++ text))
    have hjoin : front ++ joinNames ((text, separator) :: path) last =
        front ++ (text ++ (separator ++ joinNames path last)) := by
      simp only [joinNames, List.flatMap_cons, List.append_assoc]
    rw [hjoin]
    refine ⟨_, behind, .cons hnext TokenKind.noConfusion hgives, ?_, ?_⟩
    · intro token htoken
      rcases List.mem_cons.mp htoken with rfl | htoken
      · rfl
      · exact hkind token htoken
    · rw [List.map_cons, htext]
      rfl

theorem mapM_expect {tokens : List Token} {kinds : List TokenKind}
    (h : ∀ token ∈ tokens, token.kind ∈ kinds) :
    tokens.mapM (·.expect kinds) = .ok tokens := by
  induction tokens with
  | nil => rfl
  | cons token tokens ih =>
    have htoken : token.expect kinds = .ok token :=
      Token.expect_eq_ok_iff.mpr ⟨rfl, h token List.mem_cons_self⟩
    rw [List.mapM_cons, htoken, ih fun t ht => h t (List.mem_cons_of_mem token ht)]
    rfl

namespace PartialName

theorem ofNames_concat (path : List String) (last : String) :
    ofNames (path ++ [last]) =
      ⟨(SymbolName.ofQuoted last).segments ++ (path.map unquote).reverse⟩ := by
  rw [ofNames, List.getLast?_concat, List.dropLast_concat]

/-- **A reference reads as its names**, the last one split and the others unquoted. -/
theorem parse_joinNames (path : List (List Char × List Char)) {last : List Char}
    (hseparator : ∀ step ∈ path, step.2 ∈ separators)
    (hfirst : ∀ text ∈ (path.map (·.1) ++ [last]).head?, IsStart text)
    (hrest : ∀ text ∈ (path.map (·.1) ++ [last]).tail, IsSegment text) :
    parse (.ofList (joinNames path last)) =
      .ok ⟨(SymbolName.ofQuoted (.ofList last)).segments ++
        (path.map fun step => unquote (.ofList step.1)).reverse⟩ := by
  obtain ⟨tokens, behind, hgives, hkind, htext⟩ :=
    exists_gives_joinNames path [] hseparator
      (fun text htext => .inl ⟨rfl, hfirst text htext⟩) hrest .start
  have hreading : (Lexer.ofString (.ofList (joinNames path last))).readAll =
      ⟨tokens, .ok ⟨.endOfFile, "", behind⟩, ⟨[], behind, [], none⟩⟩ := by
    rw [Lexer.ofString, String.toList_ofList]
    refine hgives.readAll_eq.trans ?_
    rw [readAll_of_endOfFile next_nil rfl, List.append_nil]
  have hexpect : tokens.mapM (·.expect tokenKinds) = .ok tokens :=
    mapM_expect fun token htoken => by rw [hkind token htoken]; decide
  have hnames : tokens.filter (·.kind = .name) = tokens :=
    List.filter_eq_self.mpr fun token htoken => decide_eq_true (hkind token htoken)
  have hparse : parse (.ofList (joinNames path last)) =
      .ok (ofNames ((tokens.filter (·.kind = .name)).map (·.text))) := by
    rw [parse, hreading, hexpect]
    rfl
  rw [hparse, hnames, htext, List.map_append, List.map_singleton, ofNames_concat, List.map_map,
    List.map_map]
  rfl

end PartialName

/-! ### Names in quotes -/

/-- A text that begins with quotes and that a name runs over. -/
def IsQuoted (text : List Char) : Prop := text.head? = some '"' ∧ Passes [] text

theorem IsQuoted.isStart {text : List Char} (h : IsQuoted text) : IsStart text where
  ne_nil := by rintro rfl; cases h.1
  passes := h.2
  begins := by rw [h.1]; rintro _ ⟨⟩; decide

theorem IsQuoted.isSegment {text : List Char} (h : IsQuoted text) : IsSegment text where
  ne_nil := by rintro rfl; cases h.1
  passes := h.2
  no_digit := by rw [h.1]; rfl

namespace PartialName

/-- Names in quotes with the separators behind them, and a symbol. -/
def spelled (path : List (String × List Char)) (name : SymbolName) : String :=
  .ofList (joinNames (path.map fun step => (Quoted.spell step.1.toList, step.2)) name.spelled)

theorem isQuoted_of_mem_spelled {path : List (String × List Char)} {name : SymbolName}
    (hname : name.WellFormed) {text : List Char}
    (h : text ∈ (path.map fun step => (Quoted.spell step.1.toList, step.2)).map (·.1) ++
      [name.spelled]) : IsQuoted text := by
  rcases List.mem_append.mp h with hmem | hmem
  · rw [List.map_map] at hmem
    obtain ⟨step, _, rfl⟩ := List.mem_map.mp hmem
    exact ⟨Quoted.head?_spell _, Quoted.passes_spell _⟩
  · rw [List.mem_singleton.mp hmem]
    exact ⟨name.head?_spelled, SymbolName.passes_spelled hname⟩

theorem unquote_spell (text : String) : unquote (.ofList (Quoted.spell text.toList)) = text := by
  rw [unquote, String.toList_ofList, Quoted.decode_spell, String.ofList_toList]

/-- **Names in quotes read as what they are.** -/
theorem parse_spelled {path : List (String × List Char)} {name : SymbolName}
    (hseparator : ∀ step ∈ path, step.2 ∈ separators) (hname : name.WellFormed) :
    parse (spelled path name) = .ok ⟨name.segments ++ (path.map (·.1)).reverse⟩ := by
  have hsteps : ∀ step ∈ path.map fun step => (Quoted.spell step.1.toList, step.2),
      step.2 ∈ separators := by
    intro step hstep
    obtain ⟨step, hmem, rfl⟩ := List.mem_map.mp hstep
    exact hseparator step hmem
  have hparse := parse_joinNames _ hsteps
    (fun _ h => (isQuoted_of_mem_spelled hname (List.mem_of_mem_head? h)).isStart)
    (fun _ h => (isQuoted_of_mem_spelled hname (List.mem_of_mem_tail h)).isSegment)
  rw [spelled, hparse, SymbolName.ofQuoted_spelled hname, List.map_map]
  simp only [Function.comp_def, unquote_spell]

/-- Path segments in double quotes with the separators behind them, and a symbol whose element and
property are in double quotes. -/
def quoted (path : List (String × List Char)) (name : SymbolName) : String :=
  .ofList (path.flatMap (fun step => Quoted.encode step.1.toList ++ step.2)
    ++ (Quoted.encode name.element.toList ++
      if name.delimiter = "" then []
      else name.delimiter.toList ++ Quoted.encode name.property.toList))

/-- **Quotes make every name expressible** that does not end in a backslash. -/
theorem parse_quoted {path : List (String × List Char)} {name : SymbolName}
    (hpath : ∀ step ∈ path, step.1.toList.getLast? ≠ some '\\' ∧ step.2 ∈ separators)
    (helement : name.element.toList.getLast? ≠ some '\\')
    (hproperty : name.property.toList.getLast? ≠ some '\\') (hname : name.WellFormed) :
    parse (quoted path name) =
      .ok ⟨[name.property, name.delimiter, name.element].filter (· ≠ "") ++
        (path.map (·.1)).reverse⟩ := by
  have hsteps : (path.map fun step => (Quoted.spell step.1.toList, step.2)) =
      path.map fun step => (Quoted.encode step.1.toList, step.2) :=
    List.map_congr_left fun step hstep => by rw [Quoted.spell_of_getLast? (hpath step hstep).1]
  have hspelled : quoted path name = spelled path name := by
    rw [spelled, hsteps, joinNames, List.flatMap_map, SymbolName.spelled,
      Quoted.spell_of_getLast? helement, Quoted.spell_of_getLast? hproperty]
    rfl
  rw [hspelled, parse_spelled (fun step hstep => (hpath step hstep).2) hname]
  rfl

/-- Segments with separators, marks, quotes and a digit in them, one of them empty. -/
theorem parse_quoted_marks :
    quoted [("1:a/", [':', ':']), ("", ['/']), ("\\\"#\n", ['/', ':'])] ⟨"@x", "#<", "<\\\"y"⟩ =
        "\"1:a/\"::\"\"/\"\\\\\"#\n\"/:\"@x\"#<\"<\\\\\"y\"" ∧
      parse (quoted [("1:a/", [':', ':']), ("", ['/']), ("\\\"#\n", ['/', ':'])]
        ⟨"@x", "#<", "<\\\"y"⟩) = .ok ⟨["<\\\"y", "#<", "@x", "\\\"#\n", "", "1:a/"]⟩ :=
  ⟨by decide, parse_quoted (by decide) (by decide) (by decide) (.inr (by decide))⟩

end PartialName

end SymbolIndex
