import SymbolIndex.Proofs.Entry.Description
import SymbolIndex.Proofs.Reference.Printing

/-!
# The printed full name of a described entry

A description whose names need no quotes makes an entry whose printed full name can be told in terms
of the description: it reads as the pieces of all its dotted paths.  Dots have become slashes in the
entry, and slashes part the names of a reference, so a path is cut where its dots were.

* `printedNames_entry`: the names that are printed.
* `parse_reference_entry`: what they are read as, and when this is the full name.
-/

namespace SymbolIndex

/-- The pieces of a dotted path.  An empty one has none. -/
def dotPieces (path : String) : List String := if path = "" then [] else pieces '.' path

/-- A dotted path of names that need no quotes. -/
def IsPlainPath (path : String) : Prop := ∀ piece ∈ dotPieces path, IsPlainName piece

namespace Description

/-- A description whose names need no quotes. -/
structure IsPlain (d : Description) : Prop where
  repository : IsPlainName d.repository
  no_margin : ∀ c ∈ d.repository.toList.head?, c ≠ ' ' ∧ c ≠ '\t'
  path_ne : d.path ≠ ""
  path : IsPlainPath d.path
  project : IsPlainName d.project
  folder_ne : d.folder ≠ ""
  folder : IsPlainPath d.folder
  package : IsPlainPath d.package
  moduleName : IsPlainName d.moduleName
  symbol : d.symbol.IsPlain

variable {d : Description} {dotted : String}

/-! ### Pieces of a path -/

theorem not_mem_slash_of_plain (h : IsPlainPath dotted) : '/' ∉ dotted.toList := by
  intro hmem
  have hne : dotted ≠ "" := by
    rintro rfl
    cases hmem
  obtain ⟨piece, hpiece, hslash⟩ := exists_mem_pieces hmem (by decide : '/' ≠ '.')
  refine (h piece ?_).not_mem_slash hslash
  rwa [dotPieces, if_neg hne]

/-- A path is cut at its slashes where its dots were. -/
theorem pieces_slashes (h : IsPlainPath dotted) (hne : dotted ≠ "") :
    pieces '/' (slashes dotted) = dotPieces dotted := by
  rw [slashes, pieces_replaceChar (not_mem_slash_of_plain h), dotPieces, if_neg hne]

theorem pieces_module (h : d.IsPlain) :
    pieces '/' d.entry.module = dotPieces d.package ++ [d.moduleName] := by
  rw [Entry.pieces_module h.moduleName.not_mem_slash]
  show (if slashes d.package = "" then [] else pieces '/' (slashes d.package)) ++ _ = _
  by_cases hpackage : d.package = ""
  · rw [if_pos (slashes_eq_empty_iff.mpr hpackage), dotPieces, if_pos hpackage]
    rfl
  · rw [if_neg (mt slashes_eq_empty_iff.mp hpackage), pieces_slashes h.package hpackage]
    rfl

/-- The entry of a plain description prints its full name without quotes. -/
theorem IsPlain.entry (h : d.IsPlain) : d.entry.IsPlain where
  repository := h.repository
  no_margin := h.no_margin
  path := by
    show ∀ piece ∈ pieces '/' (slashes d.path), IsPlainName piece
    rw [pieces_slashes h.path h.path_ne]
    exact h.path
  project := h.project
  folder := by
    show ∀ piece ∈ pieces '/' (slashes d.folder), IsPlainName piece
    rw [pieces_slashes h.folder h.folder_ne]
    exact h.folder
  module := by
    rw [pieces_module h, List.forall_mem_append]
    exact ⟨h.package, List.forall_mem_singleton.mpr h.moduleName⟩
  symbol := h.symbol

/-! ### What is printed -/

/-- The names that are printed in front of the symbol, from the most specific on. -/
theorem reverse_printedNames_entry (h : d.IsPlain) :
    d.entry.printedNames.reverse =
      d.moduleName :: (dotPieces d.package).reverse ++ (dotPieces d.folder).reverse ++
        d.project :: (dotPieces d.path).reverse ++ [d.repository] := by
  rw [Entry.printedNames, Entry.innerNames, pieces_module h]
  show (d.repository :: pieces '/' (slashes d.path) ++
    (d.project :: pieces '/' (slashes d.folder) ++ _)).reverse = _
  rw [pieces_slashes h.path h.path_ne, pieces_slashes h.folder h.folder_ne]
  simp

/-- The printed full name is read as the full name if its path is one piece. -/
theorem parse_reference_entry_eq_ofEntry_iff (h : d.IsPlain) :
    PartialName.parse d.entry.reference = .ok (.ofEntry d.entry) ↔
      (dotPieces d.path).length = 1 := by
  rw [← pieces_slashes h.path h.path_ne, length_pieces_eq_one_iff]
  exact PartialName.parse_reference_eq_ofEntry_iff h.entry

/-- **What a printed full name means.**  The entry that is made from a description is any entry that
names give (`ofNames_eq_ok_iff`).  If its names need no quotes, its printed full name is read as the
pieces of all its paths: the property and the delimiter if there are any, the element, the module,
and the pieces of the package, of the folder and of the path around the project, each from the last
to the first, and then the repository.  That is the full name of the entry exactly if the path has
one piece. -/
theorem parse_reference_entry (d : Description) (hcuts : d.CutsNames) (hplain : d.IsPlain)
    (more : List String) :
    Entry.ofNames (d.names ++ more) d.declaration = .ok d.entry ∧
      PartialName.parse d.entry.reference = .ok
        ⟨[d.symbol.property, d.symbol.delimiter].filter (· ≠ "") ++ d.symbol.element ::
          d.moduleName :: (dotPieces d.package).reverse ++ (dotPieces d.folder).reverse ++
          d.project :: (dotPieces d.path).reverse ++ [d.repository]⟩ ∧
      (PartialName.parse d.entry.reference = .ok (.ofEntry d.entry) ↔
        (dotPieces d.path).length = 1) := by
  refine ⟨ofNames_names hcuts more, ?_, parse_reference_entry_eq_ofEntry_iff hplain⟩
  rw [PartialName.parse_reference hplain.entry, reverse_printedNames_entry hplain,
    hplain.entry.symbol.segments_eq]
  simp [entry]

/-- A getter of a class in a package. -/
def sizeGetter : Description where
  repository := "r"
  path := "a.b"
  project := "p.q"
  folder := "src.main"
  package := "k"
  moduleName := "M"
  extension := "x"
  symbol := ⟨"List", "@<", "size"⟩
  location := .absent
  trueOrigin := none

/-- Its path has two pieces, so its printed name is none that leads to it. -/
theorem parse_reference_entry_sizeGetter :
    sizeGetter.CutsNames ∧ sizeGetter.IsPlain ∧
      Entry.ofNames ["List", "M.x", "k", "p.q#src.main", "r#a.b", "more"]
        ⟨"@<", "size", .absent, none⟩ = .ok sizeGetter.entry ∧
      PartialName.parse "r:a/b:p.q:src/main/k/M:List@<size" =
        .ok ⟨["size", "@<", "List", "M", "k", "main", "src", "p.q", "b", "a", "r"]⟩ ∧
      PartialName.parse "r:a/b:p.q:src/main/k/M:List@<size" ≠ .ok (.ofEntry sizeGetter.entry) := by
  have hcuts : sizeGetter.CutsNames := by
    constructor
    all_goals decide +kernel
  have hpath : dotPieces "a.b" = ["a", "b"] := by decide +kernel
  have hfolder : dotPieces "src.main" = ["src", "main"] := by decide +kernel
  have hpackage : dotPieces "k" = ["k"] := by decide +kernel
  have hplain : sizeGetter.IsPlain := by
    constructor
    case symbol =>
      exact ⟨.inr (by decide), by simp [sizeGetter, isPlainName_iff, isSpecial],
        by simp [sizeGetter, SymbolName.isMark], by simp [sizeGetter, isSpecial],
        by simp [sizeGetter]⟩
    all_goals simp [sizeGetter, IsPlainPath, hpath, hfolder, hpackage, isPlainName_iff, isSpecial]
  have hreference : sizeGetter.entry.reference = "r:a/b:p.q:src/main/k/M:List@<size" := by
    decide +kernel
  obtain ⟨hnames, hparse, hfull⟩ := parse_reference_entry sizeGetter hcuts hplain ["more"]
  have hpieces : ¬ (dotPieces sizeGetter.path).length = 1 := by decide +kernel
  rw [hreference] at hparse hfull
  refine ⟨hcuts, hplain, hnames, ?_, mt hfull.mp hpieces⟩
  rw [hparse]
  decide +kernel

end Description

end SymbolIndex
