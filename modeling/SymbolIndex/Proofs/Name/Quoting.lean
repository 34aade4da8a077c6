import Mathlib.Data.List.DropRight
import SymbolIndex.Proofs.Name.Spelling

/-!
# Every name can be written

Double quotes hide every character that means something in a name, but a backslash at
the end would hide the closing quote.  Such backslashes are written behind it: no quote
follows them there, so they stand for themselves.  `Quoted.spell` writes a name so; a
name that does not end in a backslash is in quotes as a whole.

A symbol is written with its element and its property so, and reads back if it is one
that a name can have at all, see `WellFormed`.

* `ofQuoted_spelled`: a well-formed symbol reads back.
* `ofQuoted_display`: without quotes too, if it needs none.
* `wellFormed_ofQuoted`: only these are ever read.
-/

namespace SymbolIndex

/-! ### Any text -/

namespace Quoted

/-- Writes text in double quotes, backslashes at its end behind them. -/
def spell (text : List Char) : List Char :=
  encode (text.rdropWhile (· = '\\')) ++ text.rtakeWhile (· = '\\')

theorem spell_of_getLast? {text : List Char} (h : text.getLast? ≠ some '\\') :
    spell text = encode text := by
  have hlast : ∀ hne : text ≠ [], ¬ decide (text.getLast hne = '\\') = true := by
    intro hne hlast
    rw [decide_eq_true_eq] at hlast
    exact h (by rw [List.getLast?_eq_some_getLast hne, hlast])
  rw [spell, List.rdropWhile_eq_self_iff.mpr hlast, List.rtakeWhile_eq_nil_iff.mpr hlast,
    List.append_nil]

theorem head?_spell (text : List Char) : (spell text).head? = some '"' := rfl

theorem getLast?_rdropWhile (text : List Char) :
    (text.rdropWhile (· = '\\')).getLast? ≠ some '\\' := by
  intro h
  have hne : text.rdropWhile (· = '\\') ≠ [] := by
    intro hnil
    rw [hnil] at h
    cases h
  rw [List.getLast?_eq_some_getLast hne] at h
  exact List.rdropWhile_last_not _ _ hne (decide_eq_true (Option.some.inj h))

theorem of_mem_rtakeWhile {text : List Char} {c : Char} (h : c ∈ text.rtakeWhile (· = '\\')) :
    c = '\\' := by
  simpa using List.mem_rtakeWhile_imp h

theorem passes_spell (text : List Char) : Lexer.Passes [] (spell text) := by
  refine (Lexer.passes_encode (getLast?_rdropWhile text)).append (Lexer.passes_of_bare ?_)
  intro c hc
  rw [of_mem_rtakeWhile hc]
  decide

theorem getLast?_encode (text : List Char) : (encode text).getLast? = some '"' := by
  rw [encode, ← List.cons_append, List.getLast?_concat]

theorem decode_spell (text : List Char) : decode (spell text) = text := by
  have hfront : (encode (text.rdropWhile (· = '\\'))).getLast? ≠ some '\\' := by
    rw [getLast?_encode]
    decide
  have hback : '"' ∉ text.rtakeWhile (· = '\\') := fun h => absurd (of_mem_rtakeWhile h) (by decide)
  rw [spell, decode_append _ _ hfront, decode_encode _ (getLast?_rdropWhile text),
    decode_of_bare hback]
  exact List.rdropWhile_append_rtakeWhile ..

end Quoted

/-! ### Symbols -/

namespace SymbolName

theorem Parts.prepend_prepend (s t : List Char) (parts : Parts) :
    (parts.prepend t).prepend s = parts.prepend (s ++ t) := by
  rw [prepend, prepend, prepend, List.append_assoc]

/-- No mark of the text splits a name that goes on behind it. -/
theorem spells_spell (text : List Char) : Spells (Quoted.spell text) text := by
  intro rest hrest
  have hback : ∀ c ∈ text.rtakeWhile (· = '\\'), c ≠ '"' ∧ isMark c = false := by
    intro c hc
    rw [Quoted.of_mem_rtakeWhile hc]
    decide
  rw [Quoted.spell, List.append_assoc, split_encode_append (Quoted.getLast?_rdropWhile text),
    split_bare_append hback hrest, Parts.prepend_prepend, List.rdropWhile_append_rtakeWhile]

/-- May the three parts be those of a name?  Without a delimiter there is no property. -/
def WellFormed (name : SymbolName) : Prop :=
  name.delimiter = "" ∧ name.property = "" ∨ name.delimiter ∈ delimiters

/-- Writes a symbol with its element and its property in quotes. -/
def spelled (name : SymbolName) : List Char :=
  Quoted.spell name.element.toList ++
    if name.delimiter = "" then [] else name.delimiter.toList ++ Quoted.spell name.property.toList

theorem head?_spelled (name : SymbolName) : name.spelled.head? = some '"' := rfl

/-- A symbol is written in characters that a name runs over. -/
theorem passes_spelled {name : SymbolName} (h : name.WellFormed) :
    Lexer.Passes [] name.spelled := by
  refine (Quoted.passes_spell _).append ?_
  rcases h with ⟨hdelimiter, _⟩ | hdelimiter
  · rw [if_pos hdelimiter]
    exact Lexer.passes_nil
  · rw [if_neg fun hempty => absurd (hempty ▸ hdelimiter) (by decide)]
    exact (passes_delimiter hdelimiter).append (Quoted.passes_spell _)

/-- A well-formed symbol reads back. -/
theorem ofQuoted_spelled {name : SymbolName} (h : name.WellFormed) :
    ofQuoted (.ofList name.spelled) = name := by
  obtain ⟨element, delimiter, property⟩ := name
  have helement := spells_spell element.toList
  rw [spelled]
  rcases h with ⟨rfl, rfl⟩ | hdelimiter
  · rw [if_pos rfl, List.append_nil]
    exact helement.ofQuoted_element
  · rw [if_neg fun hempty => absurd (hempty ▸ hdelimiter) (by decide)]
    exact helement.ofQuoted_member hdelimiter (fun _ => rfl) (Quoted.decode_spell _)

/-! ### Symbols without quotes -/

theorem toList_display (name : SymbolName) : name.display.toList =
    name.element.toList ++ (name.delimiter.toList ++ name.property.toList) := by
  rw [display, String.toList_append, String.toList_append, List.append_assoc]

/-- A symbol without quotes in it reads back as it is shown, if no mark of its element is one of
its delimiter and no accessor of its property is. -/
theorem ofQuoted_display {name : SymbolName} (h : name.WellFormed)
    (helement : ∀ c ∈ name.element.toList, c ≠ '"' ∧ isMark c = false)
    (hproperty : '"' ∉ name.property.toList)
    (haccessor : name.delimiter = "#" ∨ name.delimiter = "@" →
      name.property.toList.head?.any isAccessor = false) : ofQuoted name.display = name := by
  obtain ⟨element, delimiter, property⟩ := name
  have hspells : Spells element.toList element.toList := fun _ => split_bare_append helement
  rw [← String.ofList_toList (s := display _), toList_display]
  rcases h with ⟨rfl, rfl⟩ | hdelimiter
  · rw [String.toList_empty, List.append_nil, List.append_nil]
    exact hspells.ofQuoted_element
  · exact hspells.ofQuoted_member hdelimiter
      (fun hmark => takeAccessor_of_head? (haccessor hmark)) (Quoted.decode_of_bare hproperty)

/-! ### What is read -/

/-- Splitting gives a mark with perhaps an accessor as the delimiter, or it finds no mark. -/
theorem delimiter_split (quoted : Bool) (text : List Char) :
    (split quoted text).delimiter = [] ∧ (split quoted text).property = [] ∨
      String.ofList (split quoted text).delimiter ∈ delimiters := by
  fun_induction split quoted text with
  | case1 => exact .inl ⟨rfl, rfl⟩
  | case2 quoted rest ih => exact ih
  | case3 quoted rest ih => exact ih
  | case4 quoted c rest _ _ h =>
    refine .inr ?_
    have hmark : c = '#' ∨ c = '@' := by
      rw [Bool.and_eq_true] at h
      simpa [isMark] using h.1
    have haccessor : (takeAccessor rest).1 = [] ∨ (takeAccessor rest).1 = ['<'] ∨
        (takeAccessor rest).1 = ['>'] := by
      cases rest with
      | nil => exact .inl rfl
      | cons d rest =>
        rw [takeAccessor]
        split
        · rename_i hd
          have hd' : d = '<' ∨ d = '>' := by simpa [isAccessor] using hd
          rcases hd' with rfl | rfl
          · exact .inr (.inl rfl)
          · exact .inr (.inr rfl)
        · exact .inl rfl
    rw [Parts.ofMark]
    dsimp only
    rcases hmark with rfl | rfl <;> rcases haccessor with h | h | h <;> rw [h] <;> decide
  | case5 quoted c rest _ _ _ ih => exact ih

/-- **Every symbol that is read is well formed.** -/
theorem wellFormed_ofQuoted (text : String) : (ofQuoted text).WellFormed := by
  rcases delimiter_split false text.toList with ⟨hdelimiter, hproperty⟩ | hdelimiter
  · left
    rw [ofQuoted, hdelimiter, hproperty]
    exact ⟨rfl, rfl⟩
  · exact .inr hdelimiter

end SymbolName

end SymbolIndex
