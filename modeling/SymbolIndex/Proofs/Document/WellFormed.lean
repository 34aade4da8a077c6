import Mathlib
import SymbolIndex.Proofs.Document.LeafLines

/-!
# Entries of a document are well formed

Whatever a document looks like, what is read from it keeps to the rules that the rest of the index
counts on.  The numbers of a location are words, and are not negative.  A name was cut at its first
`#` or `.`, so that character is not in its front, and dots were turned into slashes wherever a path
is meant.  The hierarchy of an entry has two pieces at least for its folder and its module, so it is
never shorter than six segments.

* `isWellFormed_entry`: what is made from names that are cut is well formed.
* `Yields.isWellFormed`: so is what a leaf line yields.
* `entries_wellFormed`: the entries of a document are those of its leaf lines, and well formed.
-/

namespace SymbolIndex

/-- What holds of an entry that is read from a document. -/
structure Entry.IsWellFormed (entry : Entry) : Prop where
  line : 0 ≤ entry.location.line ∧ entry.location.line ≤ 2147483647
  offsetStart : 0 ≤ entry.location.offsetStart ∧ entry.location.offsetStart ≤ 2147483647
  offsetEnd : 0 ≤ entry.location.offsetEnd ∧ entry.location.offsetEnd ≤ 2147483647
  hasLocation : entry.hasLocation = true
  delimiter : entry.symbol.delimiter ∈ ["", "#", "@", "#<", "#>", "@<", "@>"]
  property : entry.symbol.delimiter = "" → entry.symbol.property = ""
  repository : '#' ∉ entry.repository.toList
  project : '#' ∉ entry.project.toList
  moduleName : '.' ∉ entry.moduleName.toList
  path : '.' ∉ entry.path.toList
  folder : '.' ∉ entry.folder.toList
  package : '.' ∉ entry.package.toList
  trueFolder : '.' ∉ entry.trueFolder.toList
  module_eq : entry.module =
    if entry.package = "" then entry.moduleName else entry.package ++ "/" ++ entry.moduleName
  trueFolder_eq : entry.trueFolder =
    entry.trueOrigin.elim entry.folder fun origin => replaceChar '.' '/' origin.folder
  hierarchy_eq : entry.hierarchy = [entry.repository, entry.path, entry.project] ++
    pieces '/' (.ofList (trimBoth (· = '/') entry.folder.toList)) ++
    pieces '/' (.ofList (trimBoth (· = '/') entry.module.toList)) ++
    entry.symbol.element :: [entry.symbol.delimiter, entry.symbol.property].filter (· ≠ "")
  six_le_length : 6 ≤ entry.hierarchy.length

namespace Entry

variable {entry : Entry}

theorem trueFolder_eq_elim (entry : Entry) : entry.trueFolder =
    entry.trueOrigin.elim entry.folder fun origin => replaceChar '.' '/' origin.folder := by
  unfold trueFolder
  cases entry.trueOrigin with
  | none => rfl
  | some origin => rfl

theorem not_mem_trueFolder (h : '.' ∉ entry.folder.toList) : '.' ∉ entry.trueFolder.toList := by
  rw [trueFolder_eq_elim]
  cases entry.trueOrigin with
  | none => exact h
  | some origin => exact not_mem_replaceChar_old (by decide)

theorem hierarchy_eq_append (entry : Entry) :
    entry.hierarchy = [entry.repository, entry.path, entry.project] ++
      pieces '/' (.ofList (trimBoth (· = '/') entry.folder.toList)) ++
      pieces '/' (.ofList (trimBoth (· = '/') entry.module.toList)) ++
      entry.symbol.element :: [entry.symbol.delimiter, entry.symbol.property].filter (· ≠ "") := by
  simp only [hierarchy, branch, segments, List.cons_append, List.nil_append, List.append_assoc]

/-- Folder and module have a piece each. -/
theorem six_le_length_hierarchy (entry : Entry) : 6 ≤ entry.hierarchy.length := by
  have hfolder := List.length_pos_iff.mpr (pieces_ne_nil '/' (.ofList (trimBoth (· = '/')
    entry.folder.toList)))
  have hmodule := List.length_pos_iff.mpr (pieces_ne_nil '/' (.ofList (trimBoth (· = '/')
    entry.module.toList)))
  simp only [hierarchy, branch, segments, List.length_cons, List.length_append]
  omega

end Entry

/-- A number that is written is not negative. -/
theorem Token.IsDecimal.nonneg {token : Token} {n : Int} (h : token.IsDecimal n) : 0 ≤ n := by
  obtain ⟨digits, _, _, _, _, rfl⟩ := h
  exact Int.natCast_nonneg _

/-- **What is made from names that are cut is well formed**, if its location and its symbol are such
as can be read. -/
theorem Description.isWellFormed_entry {d : Description} (h : d.CutsNames)
    (hsymbol : d.symbol.WellFormed) {leaf : LeafTokens} (hlocates : leaf.Locates d.location)
    (hbounded : d.location.IsBounded) : d.entry.IsWellFormed where
  line := ⟨hlocates.line.nonneg, hbounded.line⟩
  offsetStart := ⟨hlocates.offsetStart.nonneg, hbounded.offsetStart⟩
  offsetEnd := ⟨hlocates.offsetEnd.nonneg, hbounded.offsetEnd⟩
  hasLocation := by
    have hline : 0 ≤ d.location.line := hlocates.line.nonneg
    have hne : d.location.line ≠ -1 := by omega
    exact decide_eq_true hne
  delimiter := by
    rcases hsymbol with ⟨hempty, _⟩ | hdelimiter
    · exact List.mem_cons.mpr (.inl hempty)
    · exact List.mem_cons_of_mem _ hdelimiter
  property := by
    intro hempty
    rcases hsymbol with ⟨_, hproperty⟩ | hdelimiter
    · exact hproperty
    · have hne : "" ∉ SymbolName.delimiters := by decide
      exact absurd hdelimiter (hempty ▸ hne)
  repository := h.repository
  project := h.project
  moduleName := h.moduleName
  path := not_mem_replaceChar_old (by decide)
  folder := not_mem_replaceChar_old (by decide)
  package := not_mem_replaceChar_old (by decide)
  trueFolder := Entry.not_mem_trueFolder (not_mem_replaceChar_old (by decide))
  module_eq := rfl
  trueFolder_eq := d.entry.trueFolder_eq_elim
  hierarchy_eq := d.entry.hierarchy_eq_append
  six_le_length := d.entry.six_le_length_hierarchy

/-- **What a leaf line yields is well formed.** -/
theorem TokenLine.Yields.isWellFormed {line : TokenLine} {entry : Entry} (h : line.Yields entry) :
    entry.IsWellFormed := by
  obtain ⟨tabs, leaf, names, _, hmakes⟩ := h
  obtain ⟨d, hcuts, _, _, rfl⟩ := Description.ofNames_eq_ok_iff.mp hmakes.ofNames
  refine Description.isWellFormed_entry hcuts ?_ hmakes.location hmakes.bounded
  have hsymbol : d.symbol = leaf.symbol := hmakes.describes.symbol
  rw [hsymbol]
  exact SymbolName.wellFormed_ofQuoted leaf.name.text

namespace Database

/-- **The entries of a document are well formed.**  They are the entries of its leaf lines, in their
order, and each has the symbol, the location and the true origin that are written there. -/
theorem entries_wellFormed {source : String} {database : Database}
    (h : parse source = .ok database) :
    List.Forall₂ TokenLine.Describes ((TokenLine.ofDocument source).filter (·.hasNumbers))
      database.entries ∧
    ∀ entry ∈ database.entries, entry.IsWellFormed := by
  obtain ⟨outline, hfold, hdone⟩ := bind_eq_ok_iff.mp h
  cases hdone
  obtain ⟨entries, hentries, hyields⟩ :=
    Outline.yields_of_foldlM TokenLine.isWhole_of_mem_ofDocument hfold
  have hnew : outline.database.entries = entries := hentries
  rw [hnew]
  have hall : List.Forall₂ (flip fun (entry : Entry) (line : TokenLine) =>
      entry.IsWellFormed ∧ line.Describes entry) _ entries :=
    hyields.imp fun line entry hline => ⟨hline.isWellFormed, hline.describes⟩
  exact ⟨hyields.imp fun line entry hline => hline.describes,
    ((List.forall₂_and_left _ _).mp hall.flip).1⟩

/-- A setter that comes from elsewhere, and an element with a mark in its name, in no package. -/
def setterDocument : String :=
  "r#p.q#\n\tj.i#.f\n\t\tk.l\n\t\t\tM.x.y\n" ++
    "\t\t\t\te#>s::007\r::1::2147483647::o::p::\"#\"::g.h\n" ++
    "\t\t\"\"\n\t\t\tN.x\n\t\t\t\t\"e#s\"::0::0\r\r::0"

/-- Leading zeros and carriage returns do not count in a number. -/
theorem entries_wellFormed_setter : ∃ database, parse setterDocument = .ok database ∧
    database.entries.map (·.location) = [⟨7, 1, 2147483647⟩, ⟨0, 0, 0⟩] ∧
    List.Forall₂ TokenLine.Describes ((TokenLine.ofDocument setterDocument).filter (·.hasNumbers))
      database.entries ∧
    ∀ entry ∈ database.entries, entry.IsWellFormed := by
  have hread : (parse setterDocument).map (fun database => database.entries.map (·.location)) =
      .ok [⟨7, 1, 2147483647⟩, ⟨0, 0, 0⟩] := by cbv
  obtain ⟨database, hparse, hlocations⟩ := map_eq_ok_iff.mp hread
  exact ⟨database, hparse, hlocations, entries_wellFormed hparse⟩

end Database

end SymbolIndex
