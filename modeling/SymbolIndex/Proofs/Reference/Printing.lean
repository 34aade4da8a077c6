import SymbolIndex.Proofs.Reference.Naming
import SymbolIndex.Proofs.Trie.Search

/-!
# The printed full name of an entry

An entry prints its full name without quotes, its paths with slashes in them.  A
reference is cut at all separators, colons and slashes alike, so where the names need no
quotes the printed name reads as all pieces of all its paths.  The folder and the module
are cut into pieces in the hierarchy too; the path of the repository stands there as one
segment, and this is the only difference.

* `parse_reference`: what the printed full name reads as.
* `parse_reference_of_not_mem`: it is the full name, if the path has no slash.
* `fits_reference_of_mem`: if the path has one, it does not even fit the full name.
* `parse_reference_eq_ofEntry_iff`: so this decides between the two.
-/

namespace SymbolIndex

open Lexer

/-! ### Names that need no quotes -/

/-- A name that can stand between separators as it is. -/
structure IsPlainName (name : String) : Prop where
  ne_nil : name.toList ≠ []
  no_special : ∀ c ∈ name.toList, isSpecial c = false
  no_digit : name.toList.head?.any Char.isDigit = false

theorem isPlainName_iff {name : String} :
    IsPlainName name ↔ name.toList ≠ [] ∧ (∀ c ∈ name.toList, isSpecial c = false) ∧
      name.toList.head?.any Char.isDigit = false :=
  ⟨fun h => ⟨h.ne_nil, h.no_special, h.no_digit⟩, fun ⟨hne, hspecial, hdigit⟩ =>
    ⟨hne, hspecial, hdigit⟩⟩

/-- A symbol that can be written as it is. -/
structure SymbolName.IsPlain (name : SymbolName) : Prop where
  wellFormed : name.WellFormed
  element : IsPlainName name.element
  no_mark : ∀ c ∈ name.element.toList, isMark c = false
  property : ∀ c ∈ name.property.toList, isSpecial c = false
  no_accessor : name.delimiter = "#" ∨ name.delimiter = "@" →
    name.property.toList.head?.any isAccessor = false

/-- An entry whose printed full name needs no quotes. -/
structure Entry.IsPlain (entry : Entry) : Prop where
  repository : IsPlainName entry.repository
  no_margin : ∀ c ∈ entry.repository.toList.head?, c ≠ ' ' ∧ c ≠ '\t'
  path : ∀ piece ∈ pieces '/' entry.path, IsPlainName piece
  project : IsPlainName entry.project
  folder : ∀ piece ∈ pieces '/' entry.folder, IsPlainName piece
  module : ∀ piece ∈ pieces '/' entry.module, IsPlainName piece
  symbol : entry.symbol.IsPlain

theorem passes_of_not_special {text : List Char} (h : ∀ c ∈ text, isSpecial c = false) :
    Passes [] text :=
  passes_of_bare fun c hc => endsName_of_isSpecial (h c hc)

theorem not_mem_quote {text : List Char} (h : ∀ c ∈ text, isSpecial c = false) : '"' ∉ text :=
  fun hmem => absurd (h _ hmem) (by decide)

namespace IsPlainName

variable {name : String}

theorem isSegment (h : IsPlainName name) : IsSegment name.toList where
  ne_nil := h.ne_nil
  passes := passes_of_not_special h.no_special
  no_digit := h.no_digit

theorem isStart (h : IsPlainName name) (hmargin : ∀ c ∈ name.toList.head?, c ≠ ' ' ∧ c ≠ '\t') :
    IsStart name.toList where
  ne_nil := h.ne_nil
  passes := passes_of_not_special h.no_special
  begins := by
    intro c hc
    obtain ⟨hspace, htab⟩ := hmargin c hc
    exact beginsName_of_isSpecial (h.no_special c (List.mem_of_mem_head? hc)) hspace htab

theorem unquote_eq (h : IsPlainName name) : unquote name = name := by
  rw [unquote, Quoted.decode_of_bare (not_mem_quote h.no_special), String.ofList_toList]

theorem not_mem_slash (h : IsPlainName name) : '/' ∉ name.toList :=
  fun hmem => absurd (h.no_special _ hmem) (by decide)

end IsPlainName

namespace SymbolName

variable {name : SymbolName}

theorem IsPlain.isSegment (h : name.IsPlain) : IsSegment name.display.toList where
  ne_nil := by
    rw [toList_display]
    exact List.append_ne_nil_of_left_ne_nil h.element.ne_nil _
  passes := by
    rw [toList_display]
    refine h.element.isSegment.passes.append (Passes.append ?_ (passes_of_not_special h.property))
    rcases h.wellFormed with ⟨hdelimiter, _⟩ | hdelimiter
    · rw [hdelimiter]
      exact passes_nil
    · exact passes_delimiter hdelimiter
  no_digit := by
    rw [toList_display]
    obtain ⟨c, tail, hc⟩ := List.exists_cons_of_ne_nil h.element.ne_nil
    have hdigit := h.element.no_digit
    rw [hc] at hdigit ⊢
    exact hdigit

/-- A plain symbol reads as what it is. -/
theorem IsPlain.ofQuoted_display_eq (h : name.IsPlain) : ofQuoted name.display = name :=
  ofQuoted_display h.wellFormed
    (fun c hc => ⟨(endsName_of_isSpecial (h.element.no_special c hc)).1, h.no_mark c hc⟩)
    (not_mem_quote h.property) h.no_accessor

/-- A plain element is there, so it is the last of the segments. -/
theorem IsPlain.segments_eq (h : name.IsPlain) :
    name.segments = [name.property, name.delimiter].filter (· ≠ "") ++ [name.element] := by
  have hne : name.element ≠ "" := fun heq => h.element.ne_nil (by rw [heq]; rfl)
  have hone : [name.element].filter (· ≠ "") = [name.element] := by
    simp [hne]
  rw [← hone, ← List.filter_append]
  rfl

end SymbolName

/-! ### The pieces of a path -/

/-- Pieces with slashes between them, and a separator behind the last one. -/
def pathSteps (separator : List Char) : List String → List (List Char × List Char)
  | [] => []
  | [piece] => [(piece.toList, separator)]
  | piece :: next :: rest => (piece.toList, ['/']) :: pathSteps separator (next :: rest)

section PathSteps

variable {separator : List Char} {names : List String}

theorem map_fst_pathSteps : (pathSteps separator names).map (·.1) = names.map String.toList := by
  fun_induction pathSteps separator names with
  | case1 => rfl
  | case2 => rfl
  | case3 piece next rest ih =>
    rw [List.map_cons, ih]
    rfl

theorem separator_of_mem_pathSteps (hseparator : separator ∈ separators)
    {step : List Char × List Char} (h : step ∈ pathSteps separator names) :
    step.2 ∈ separators := by
  fun_induction pathSteps separator names with
  | case1 => cases h
  | case2 =>
    rw [List.mem_singleton.mp h]
    exact hseparator
  | case3 piece next rest ih =>
    rcases List.mem_cons.mp h with rfl | h
    · show ['/'] ∈ separators
      decide
    · exact ih h

theorem flatMap_pathSteps (h : names ≠ []) :
    (pathSteps separator names).flatMap (fun step => step.1 ++ step.2) =
      ['/'].intercalate (names.map String.toList) ++ separator := by
  fun_induction pathSteps separator names with
  | case1 => exact absurd rfl h
  | case2 => simp
  | case3 piece next rest ih =>
    rw [List.flatMap_cons, ih (List.cons_ne_nil _ _), List.map_cons, List.map_cons, List.map_cons,
      List.intercalate_cons_cons, List.append_assoc (piece.toList ++ ['/'])]

end PathSteps

theorem flatMap_pathSteps_pieces (separator : List Char) (text : String) :
    (pathSteps separator (pieces '/' text)).flatMap (fun step => step.1 ++ step.2) =
      text.toList ++ separator := by
  rw [flatMap_pathSteps (pieces_ne_nil _ _), map_toList_pieces, List.intercalate_splitOn]

/-! ### Reading the printed name -/

namespace Entry

/-- The module is cut into the pieces of its package and its name. -/
theorem pieces_module {entry : Entry} (h : '/' ∉ entry.moduleName.toList) :
    pieces '/' entry.module =
      (if entry.package = "" then [] else pieces '/' entry.package) ++ [entry.moduleName] := by
  rw [module]
  split
  · rw [pieces_of_not_mem h, List.nil_append]
  · have hcut := pieces_append_cons '/' entry.package.toList entry.moduleName.toList
    rw [String.ofList_toList, String.ofList_toList, pieces_of_not_mem h] at hcut
    rw [← hcut, ← String.ofList_toList (s := entry.package ++ "/" ++ entry.moduleName)]
    simp

/-- The names from the project to the module, which stand in the hierarchy as they are printed. -/
def innerNames (entry : Entry) : List String :=
  entry.project :: pieces '/' entry.folder ++ pieces '/' entry.module

/-- The names of the printed full name in front of the symbol, from the most general on. -/
def printedNames (entry : Entry) : List String :=
  entry.repository :: pieces '/' entry.path ++ entry.innerNames

/-- The same names with the separators behind them. -/
def printedSteps (entry : Entry) : List (List Char × List Char) :=
  (entry.repository.toList, [':']) :: pathSteps [':'] (pieces '/' entry.path)
    ++ (entry.project.toList, [':']) :: pathSteps ['/'] (pieces '/' entry.folder)
    ++ pathSteps [':'] (pieces '/' entry.module)

theorem reference_eq_joinNames (entry : Entry) :
    entry.reference = .ofList (joinNames entry.printedSteps entry.symbol.display.toList) := by
  rw [joinNames, printedSteps]
  simp only [List.flatMap_append, List.flatMap_cons, flatMap_pathSteps_pieces]
  rw [← String.toList_inj, String.toList_ofList]
  simp [reference, toString]

theorem map_fst_printedSteps (entry : Entry) :
    entry.printedSteps.map (·.1) = entry.printedNames.map String.toList := by
  simp only [printedSteps, printedNames, innerNames, List.map_append, List.map_cons,
    List.append_assoc, map_fst_pathSteps]

theorem separator_of_mem_printedSteps {entry : Entry} {step : List Char × List Char}
    (h : step ∈ entry.printedSteps) : step.2 ∈ separators := by
  have hcolon : [':'] ∈ separators := by decide
  have hslash : ['/'] ∈ separators := by decide
  simp only [printedSteps, List.mem_append, List.mem_cons] at h
  rcases h with ((rfl | h) | rfl | h) | h
  · exact hcolon
  · exact separator_of_mem_pathSteps hcolon h
  · exact hcolon
  · exact separator_of_mem_pathSteps hslash h
  · exact separator_of_mem_pathSteps hcolon h

theorem IsPlain.of_mem_printedNames {entry : Entry} (h : entry.IsPlain) {name : String}
    (hmem : name ∈ entry.printedNames) : IsPlainName name := by
  simp only [printedNames, innerNames, List.mem_append, List.mem_cons] at hmem
  rcases hmem with (rfl | hmem) | (rfl | hmem) | hmem
  · exact h.repository
  · exact h.path name hmem
  · exact h.project
  · exact h.folder name hmem
  · exact h.module name hmem

end Entry

namespace PartialName

/-- **The printed full name reads as all pieces of all its paths.** -/
theorem parse_reference {entry : Entry} (h : entry.IsPlain) :
    parse entry.reference = .ok ⟨entry.symbol.segments ++ entry.printedNames.reverse⟩ := by
  have hname : ∀ text ∈ entry.printedSteps.map (·.1) ++ [entry.symbol.display.toList],
      IsSegment text := by
    intro text htext
    rw [Entry.map_fst_printedSteps] at htext
    rcases List.mem_append.mp htext with hmem | hmem
    · obtain ⟨name, hname, rfl⟩ := List.mem_map.mp hmem
      exact (h.of_mem_printedNames hname).isSegment
    · rw [List.mem_singleton.mp hmem]
      exact h.symbol.isSegment
  have hunquote : entry.printedSteps.map (fun step => unquote (.ofList step.1)) =
      entry.printedNames := by
    have hmap : entry.printedSteps.map (fun step => unquote (.ofList step.1)) =
        (entry.printedSteps.map (·.1)).map fun text => unquote (.ofList text) := by
      rw [List.map_map]
      rfl
    rw [hmap, Entry.map_fst_printedSteps, List.map_map]
    refine (List.map_congr_left fun name hmem => ?_).trans (List.map_id _)
    show unquote (.ofList name.toList) = name
    rw [String.ofList_toList, (h.of_mem_printedNames hmem).unquote_eq]
  rw [entry.reference_eq_joinNames, parse_joinNames entry.printedSteps
    (fun _ => Entry.separator_of_mem_printedSteps)
    (by rintro _ ⟨⟩; exact h.repository.isStart h.no_margin)
    (fun text htext => hname text (List.mem_of_mem_tail htext)),
    String.ofList_toList, h.symbol.ofQuoted_display_eq, hunquote]

end PartialName

/-! ### Is it the full name? -/

namespace Entry

variable {entry : Entry}

/-- A path of plain pieces has no outer slashes, so its segments are its pieces. -/
theorem segments_of_plain {path : String} (h : ∀ piece ∈ pieces '/' path, IsPlainName piece) :
    segments path = pieces '/' path := by
  have hempty : "" ∉ pieces '/' path := fun hmem => (h "" hmem).ne_nil rfl
  have hhead : ∀ c ∈ path.toList.head?, decide (c = '/') = false := by
    intro c hc
    obtain ⟨rest, hrest⟩ := List.head?_eq_some_iff.mp hc
    refine decide_eq_false fun hslash => hempty ?_
    rw [← String.ofList_toList (s := path), hrest, hslash]
    exact pieces_append_cons '/' [] rest ▸ List.mem_append_left _ List.mem_cons_self
  have hlast : ∀ c ∈ path.toList.getLast?, decide (c = '/') = false := by
    intro c hc
    obtain ⟨front, hfront⟩ := List.getLast?_eq_some_iff.mp hc
    refine decide_eq_false fun hslash => hempty ?_
    rw [← String.ofList_toList (s := path), hfront, hslash, pieces_append_cons]
    exact List.mem_append_right _ List.mem_cons_self
  rw [segments, trimBoth_eq_self hhead hlast, String.ofList_toList]

/-- The full name of a plain entry is cut at slashes like the printed one, but for its path. -/
theorem IsPlain.fullName_eq (h : entry.IsPlain) :
    entry.fullName =
      (entry.symbol.segments ++ entry.innerNames.reverse) ++ [entry.path, entry.repository] := by
  rw [fullName_eq_outerSegments, h.symbol.segments_eq, outerSegments, innerNames,
    segments_of_plain h.folder, segments_of_plain h.module]
  simp only [List.cons_append, List.reverse_cons, List.reverse_append, List.append_assoc,
    List.reverse_nil, List.nil_append]

theorem reverse_printedNames (entry : Entry) :
    entry.printedNames.reverse =
      entry.innerNames.reverse ++ ((pieces '/' entry.path).reverse ++ [entry.repository]) := by
  rw [printedNames, List.reverse_append, List.reverse_cons]

end Entry

namespace PartialName

variable {entry : Entry}

/-- **Without a slash in the path, the printed full name reads as the full name.** -/
theorem parse_reference_of_not_mem (h : entry.IsPlain) (hpath : '/' ∉ entry.path.toList) :
    parse entry.reference = .ok (.ofEntry entry) := by
  rw [parse_reference h, ofEntry, h.fullName_eq, entry.reverse_printedNames,
    pieces_of_not_mem hpath, List.append_assoc]
  rfl

/-- **With a slash in the path, it reads as a name that does not fit the full name**: the last
piece of the path stands where the full name has all of it. -/
theorem fits_reference_of_mem (h : entry.IsPlain) (hpath : '/' ∈ entry.path.toList) :
    ∃ name, parse entry.reference = .ok name ∧ fits entry.fullName name.segments = false := by
  refine ⟨_, parse_reference h, ?_⟩
  rw [h.fullName_eq, entry.reverse_printedNames, ← List.append_assoc, fits_append_append]
  have hne : (pieces '/' entry.path).reverse ≠ [] :=
    List.reverse_ne_nil_iff.mpr (pieces_ne_nil '/' entry.path)
  obtain ⟨last, more, heq⟩ := List.exists_cons_of_ne_nil hne
  have hlast : last ∈ pieces '/' entry.path :=
    List.mem_reverse.mp (heq ▸ List.mem_cons_self)
  rw [heq, List.cons_append]
  refine fits_cons_of_ne ?_ _ _
  rintro rfl
  exact (h.path _ hlast).not_mem_slash hpath

/-- So it reads as the full name exactly if the path has no slash. -/
theorem parse_reference_eq_ofEntry_iff (h : entry.IsPlain) :
    parse entry.reference = .ok (.ofEntry entry) ↔ '/' ∉ entry.path.toList := by
  refine ⟨fun hparse hmem => ?_, parse_reference_of_not_mem h⟩
  obtain ⟨name, hname, hfits⟩ := fits_reference_of_mem h hmem
  rw [hparse] at hname
  have hsegments : name.segments = entry.fullName := by
    rw [← Except.ok.inj hname, ofEntry]
  have hself : fits entry.fullName entry.fullName = true :=
    fits_iff.mpr (.inl (List.prefix_refl entry.fullName))
  rw [hsegments, hself] at hfits
  cases hfits

end PartialName

end SymbolIndex
