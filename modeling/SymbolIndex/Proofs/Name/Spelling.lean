import SymbolIndex.SymbolName
import SymbolIndex.Proofs.Lexer.Steps

/-!
# Spelling a name

A name can always be written in quotes, unless it ends in a backslash.  Where it has none
of the characters that mean something there, it can be written as it is.  Which characters
these are depends on the role of the name: an element must not look as if it had a
property, a property must not look as if it began with the end of its delimiter, and a
name behind a separator must not look like a number.

* `SpelledName.passes`: the lexer takes a spelled name whole.
* `SpelledName.unquote_text`: the spelling reads as the name.
* `SpelledName.spells`: splitting a symbol name runs over the element.
* `Spells.ofQuoted_element`, `Spells.ofQuoted_member`: what a whole symbol name reads as.
-/

namespace SymbolIndex

/-! ### Reading text piece by piece -/

namespace Quoted

theorem decode_of_bare {text : List Char} (h : '"' ∉ text) : decode text = text := by
  induction text with
  | nil => rfl
  | cons c text ih =>
    obtain ⟨hc, htext⟩ := List.ne_and_not_mem_of_not_mem_cons h
    rw [decode, ih htext]
    · rintro rest _ rfl
      exact htext List.mem_cons_self
    · exact hc.symm

end Quoted

namespace SymbolName

/-- The parts of a name whose element begins with `text`. -/
def Parts.prepend (text : List Char) (parts : Parts) : Parts :=
  { parts with element := text ++ parts.element }

theorem split_cons {quoted : Bool} {c : Char} {rest : List Char} (hquote : c ≠ '"')
    (hmark : (isMark c && !quoted) = false) (hrest : c = '\\' → rest.head? ≠ some '"') :
    split quoted (c :: rest) = (split quoted rest).cons c := by
  rw [split, if_neg (by simp [hmark])]
  · rintro tail rfl rfl
    exact hrest rfl rfl
  · exact hquote

theorem split_mark {mark : Char} {rest : List Char} (h : isMark mark = true) :
    split false (mark :: rest) = .ofMark mark rest := by
  have hcases : mark = '#' ∨ mark = '@' := by simpa [isMark] using h
  rcases hcases with rfl | rfl <;> simp [split, isMark]

theorem split_bare_append {text rest : List Char}
    (h : ∀ c ∈ text, c ≠ '"' ∧ isMark c = false) (hrest : rest.head? ≠ some '"') :
    split false (text ++ rest) = (split false rest).prepend text := by
  induction text with
  | nil => rfl
  | cons c text ih =>
    obtain ⟨hquote, hmark⟩ := h c List.mem_cons_self
    have hhead : (text ++ rest).head? ≠ some '"' := by
      cases text with
      | nil => exact hrest
      | cons d text => exact fun heq => (h d (by simp)).1 (Option.some.inj heq)
    rw [List.cons_append, split_cons hquote (by simp [hmark]) fun _ => hhead,
      ih fun d hd => h d (List.mem_cons_of_mem c hd)]
    rfl

/-- Inside of quotes no mark splits a name. -/
theorem split_escape_append {text rest : List Char} (hlast : text.getLast? ≠ some '\\') :
    split true (Quoted.escape text ++ '"' :: rest) = (split false rest).prepend text := by
  induction text with
  | nil => rfl
  | cons c text ih =>
    have hlast' := getLast?_ne_of_cons hlast
    by_cases hc : c = '"'
    · rw [Quoted.escape, if_pos hc, List.cons_append, List.cons_append, split, ih hlast', hc]
      rfl
    · rw [Quoted.escape, if_neg hc, List.cons_append,
        split_cons hc (by simp) ?_, ih hlast']
      · rfl
      -- A backslash is not the last character, and none of those behind it begins with a quote.
      · rintro rfl
        cases text with
        | nil => exact absurd rfl hlast
        | cons d text =>
          rw [Quoted.escape]
          by_cases hd : d = '"'
          · rw [if_pos hd]
            simp
          · rw [if_neg hd]
            exact fun heq => hd (Option.some.inj heq)

theorem split_encode_append {text rest : List Char} (hlast : text.getLast? ≠ some '\\') :
    split false (Quoted.encode text ++ rest) = (split false rest).prepend text := by
  rw [Quoted.encode, List.cons_append, List.append_assoc, List.singleton_append, split]
  exact split_escape_append hlast

/-! ### Delimiters -/

section Delimiter

variable {delimiter : String} (h : delimiter ∈ delimiters)

include h

theorem passes_delimiter : Lexer.Passes [] delimiter.toList := by
  refine Lexer.passes_of_bare ?_
  have hall : ∀ d ∈ delimiters, ∀ c ∈ d.toList, c ≠ '"' ∧ Lexer.endsName [] c = false := by
    simp [delimiters, Lexer.endsName, Lexer.isSeparator]
  exact hall _ h

theorem head?_delimiter_append (rest : List Char) :
    (delimiter.toList ++ rest).head? ≠ some '"' := by
  have hall : ∀ d ∈ delimiters, ∀ text : List Char, (d.toList ++ text).head? ≠ some '"' := by
    simp [delimiters]
  exact hall _ h rest

/-- A delimiter reads as what it is, unless it is a bare mark and an accessor mark follows. -/
theorem split_delimiter_append {text : List Char}
    (haccessor : delimiter = "#" ∨ delimiter = "@" → takeAccessor text = ([], text)) :
    split false (delimiter.toList ++ text) = ⟨[], delimiter.toList, Quoted.decode text⟩ := by
  have hbare (mark : Char) (hm : isMark mark = true) (ht : takeAccessor text = ([], text)) :
      split false (mark :: text) = ⟨[], [mark], Quoted.decode text⟩ := by
    rw [split_mark hm, Parts.ofMark, ht]
  have hfull (mark accessor : Char) (hm : isMark mark = true) (ha : isAccessor accessor = true) :
      split false (mark :: accessor :: text) = ⟨[], [mark, accessor], Quoted.decode text⟩ := by
    rw [split_mark hm, Parts.ofMark, takeAccessor, if_pos ha]
  simp only [delimiters, List.mem_cons, List.not_mem_nil, or_false] at h
  rcases h with rfl | rfl | rfl | rfl | rfl | rfl
  · exact hbare '#' rfl (haccessor (.inl rfl))
  · exact hbare '@' rfl (haccessor (.inr rfl))
  · exact hfull '#' '<' rfl rfl
  · exact hfull '#' '>' rfl rfl
  · exact hfull '@' '<' rfl rfl
  · exact hfull '@' '>' rfl rfl

end Delimiter

theorem takeAccessor_of_head? {text : List Char} (h : text.head?.any isAccessor = false) :
    takeAccessor text = ([], text) := by
  cases text with
  | nil => rfl
  | cons c text => exact if_neg (Bool.eq_false_iff.mp h)

/-! ### Whole names -/

/-- The text leads the element of a name as `element`, whatever follows but a quote. -/
def Spells (text element : List Char) : Prop :=
  ∀ rest : List Char, rest.head? ≠ some '"' →
    split false (text ++ rest) = (split false rest).prepend element

/-- Such a text alone is a name without a property. -/
theorem Spells.ofQuoted_element {text : List Char} {element : String}
    (h : Spells text element.toList) : ofQuoted (.ofList text) = ⟨element, "", ""⟩ := by
  have hsplit : split false text = ⟨element.toList, [], []⟩ := by
    have hnil := h [] (by decide)
    rw [List.append_nil] at hnil
    rw [hnil, split, Parts.prepend, List.append_nil]
  rw [ofQuoted, String.toList_ofList, hsplit]
  simp only [String.ofList_toList, String.ofList_nil]

/-- With a delimiter and a text for the property behind it, it is a name of these. -/
theorem Spells.ofQuoted_member {text member : List Char} {element delimiter property : String}
    (h : Spells text element.toList) (hdelimiter : delimiter ∈ delimiters)
    (haccessor : delimiter = "#" ∨ delimiter = "@" → takeAccessor member = ([], member))
    (hmember : Quoted.decode member = property.toList) :
    ofQuoted (.ofList (text ++ (delimiter.toList ++ member))) = ⟨element, delimiter, property⟩ := by
  have hsplit : split false (text ++ (delimiter.toList ++ member)) =
      ⟨element.toList, delimiter.toList, property.toList⟩ := by
    rw [h _ (head?_delimiter_append hdelimiter member),
      split_delimiter_append hdelimiter haccessor, hmember, Parts.prepend, List.append_nil]
  rw [ofQuoted, String.toList_ofList, hsplit]
  simp only [String.ofList_toList]

end SymbolName

/-! ### Names in a document -/

/-- What a name of a document stands for. -/
inductive NameRole where
  | group
  | element
  | property
  | origin
  deriving DecidableEq, Repr

/-- Characters that end a name or open quotes in it. -/
def isSpecial (c : Char) : Bool := c = '"' || c = ':' || c = '/' || c = '\r' || c = '\n'

/-- Characters that stand in front of the name of a line, or begin a comment there. -/
def isMargin (c : Char) : Bool := c = ' ' || c = '\t' || c = '#'

/-- Can the name be written as it is? -/
def NameRole.takesBare (role : NameRole) (name : List Char) : Bool :=
  !name.isEmpty && !name.any isSpecial && !name.head?.any isMargin
    && match role with
      | group => true
      | element => !name.any SymbolName.isMark
      | property => !name.head?.any SymbolName.isAccessor
      | origin => !name.head?.any Char.isDigit

theorem NameRole.of_takesBare {role : NameRole} {name : List Char}
    (h : role.takesBare name = true) :
    name ≠ [] ∧ (∀ c ∈ name, isSpecial c = false) ∧
      ∀ c ∈ name.head?, isMargin c = false := by
  simp only [takesBare, Bool.and_eq_true, Bool.not_eq_true', List.isEmpty_eq_false_iff,
    List.any_eq_false, Bool.not_eq_true] at h
  obtain ⟨⟨⟨hne, hspecial⟩, hhead⟩, _⟩ := h
  refine ⟨hne, hspecial, ?_⟩
  intro c hc
  rwa [Option.mem_def.mp hc] at hhead

theorem endsName_of_isSpecial {c : Char} (h : isSpecial c = false) :
    c ≠ '"' ∧ Lexer.endsName [] c = false := by
  simp only [isSpecial, Bool.or_eq_false_iff, decide_eq_false_iff_not] at h
  obtain ⟨⟨⟨⟨hquote, hcolon⟩, hslash⟩, hreturn⟩, hfeed⟩ := h
  exact ⟨hquote, by simp [Lexer.endsName, Lexer.isSeparator, hcolon, hslash, hreturn, hfeed]⟩

theorem beginsName_of_isSpecial {c : Char} (h : isSpecial c = false) (hspace : c ≠ ' ')
    (htab : c ≠ '\t') : Lexer.beginsName [] c = true := by
  simp only [isSpecial, Bool.or_eq_false_iff, decide_eq_false_iff_not] at h
  obtain ⟨⟨⟨⟨_, hcolon⟩, hslash⟩, hreturn⟩, hfeed⟩ := h
  simp [Lexer.beginsName, Lexer.isGap, Lexer.isSeparator, hspace, htab, hcolon, hslash, hreturn,
    hfeed]

/-- A name and one of the ways in which it can be written. -/
inductive SpelledName (role : NameRole) where
  | quoted (name : String) (h : name.toList.getLast? ≠ some '\\')
  | bare (name : String) (h : role.takesBare name.toList = true)

namespace SpelledName

variable {role : NameRole}

def name : SpelledName role → String
  | quoted name _ => name
  | bare name _ => name

def text : SpelledName role → List Char
  | quoted name _ => Quoted.encode name.toList
  | bare name _ => name.toList

/-! ### Spelled names for the lexer -/

theorem text_ne_nil (name : SpelledName role) : name.text ≠ [] := by
  cases name with
  | quoted name h => exact List.cons_ne_nil _ _
  | bare name h => exact (NameRole.of_takesBare h).1

theorem passes (name : SpelledName role) : Lexer.Passes [] name.text := by
  cases name with
  | quoted name h => exact Lexer.passes_encode h
  | bare name h =>
    obtain ⟨_, hspecial, _⟩ := NameRole.of_takesBare h
    exact Lexer.passes_of_bare fun c hc => endsName_of_isSpecial (hspecial c hc)

/-- The first character is a quote, or it is none that means something in front of a name. -/
theorem beginsName_text (name : SpelledName role) :
    ∀ c ∈ name.text.head?, Lexer.beginsName [] c = true ∧ c ≠ '#' := by
  intro c hc
  cases name with
  | quoted name h =>
    cases hc
    decide
  | bare name h =>
    obtain ⟨_, hspecial, hhead⟩ := NameRole.of_takesBare h
    have hmargin := hhead c hc
    simp only [isMargin, Bool.or_eq_false_iff, decide_eq_false_iff_not] at hmargin
    obtain ⟨⟨hspace, htab⟩, hsharp⟩ := hmargin
    exact ⟨beginsName_of_isSpecial (hspecial c (List.mem_of_mem_head? hc)) hspace htab, hsharp⟩

theorem head?_text_append (name : SpelledName role) (rest : List Char) :
    (name.text ++ rest).head? = name.text.head? := by
  obtain ⟨c, tail, htext⟩ := List.exists_cons_of_ne_nil name.text_ne_nil
  rw [htext]
  rfl

theorem isDigit_text (name : SpelledName .origin) :
    name.text.head?.any Char.isDigit = false := by
  cases name with
  | quoted name h => rfl
  | bare name h =>
    simp only [NameRole.takesBare, Bool.and_eq_true, Bool.not_eq_true'] at h
    exact h.2

/-! ### Spelled names read back -/

theorem unquote_text (name : SpelledName role) : unquote (.ofList name.text) = name.name := by
  cases name with
  | quoted name h => exact unquote_quote name h
  | bare name h =>
    obtain ⟨_, hspecial, _⟩ := NameRole.of_takesBare h
    have hbare : '"' ∉ name.toList := fun hmem => absurd (hspecial _ hmem) (by decide)
    rw [unquote, String.toList_ofList]
    show String.ofList (Quoted.decode name.toList) = name
    rw [Quoted.decode_of_bare hbare, String.ofList_toList]

theorem decode_text (name : SpelledName role) : Quoted.decode name.text = name.name.toList := by
  have h := congrArg String.toList name.unquote_text
  rwa [unquote, String.toList_ofList, String.toList_ofList] at h

/-- An element does not end where it seems to, in a mark that is part of it. -/
theorem spells (element : SpelledName .element) :
    SymbolName.Spells element.text element.name.toList := by
  intro rest hrest
  cases element with
  | quoted name h => exact SymbolName.split_encode_append h
  | bare name h =>
    obtain ⟨_, hspecial, _⟩ := NameRole.of_takesBare h
    have hmark : name.toList.any SymbolName.isMark = false := by
      simp only [NameRole.takesBare, Bool.and_eq_true, Bool.not_eq_true'] at h
      exact h.2
    refine SymbolName.split_bare_append (fun c hc => ⟨?_, ?_⟩) hrest
    · exact (endsName_of_isSpecial (hspecial c hc)).1
    · exact Bool.eq_false_iff.mpr (List.any_eq_false.mp hmark c hc)

theorem takeAccessor_text (property : SpelledName .property) :
    SymbolName.takeAccessor property.text = ([], property.text) := by
  apply SymbolName.takeAccessor_of_head?
  cases property with
  | quoted name h => rfl
  | bare name h =>
    simp only [NameRole.takesBare, Bool.and_eq_true, Bool.not_eq_true'] at h
    exact h.2

end SpelledName

end SymbolIndex
