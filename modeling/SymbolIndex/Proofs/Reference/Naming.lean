import Mathlib
import SymbolIndex.Proofs.Database.Search
import SymbolIndex.Proofs.Reference.Reading

/-!
# Every entry can be named

A reference drops the parts of its last name that are empty, while an entry keeps its
element in the hierarchy even when that is empty.  The names in front of the last one are
kept, whatever they are.  So the element of an entry is written as one of these, and the
last name has no element of its own: `Map#get` is written as `"Map":""#"get"`.

* `parse_spelledName`: this writing of the full name reads as the full name.
* `exists_reference`: every entry of a document has a reference that leads to it.
-/

namespace SymbolIndex

namespace SymbolName

/-- What a name has besides its element. -/
def member (name : SymbolName) : SymbolName := ⟨"", name.delimiter, name.property⟩

theorem segments_member (name : SymbolName) :
    name.member.segments = [name.property, name.delimiter].filter (· ≠ "") := by
  rw [segments, member]
  simp [List.filter_cons]

end SymbolName

namespace Entry

/-- The segments of the full name in front of the delimiter, from the most general on. -/
def outerSegments (entry : Entry) : List String :=
  entry.repository :: entry.path :: entry.project :: segments entry.folder ++ segments entry.module
    ++ [entry.symbol.element]

/-- The full name of an entry with every name in quotes. -/
def spelledName (entry : Entry) : String :=
  PartialName.spelled (entry.outerSegments.map fun segment => (segment, [':'])) entry.symbol.member

theorem fullName_eq_outerSegments (entry : Entry) :
    entry.fullName =
      [entry.symbol.property, entry.symbol.delimiter].filter (· ≠ "") ++
        entry.outerSegments.reverse := by
  have hparts : ([entry.symbol.delimiter, entry.symbol.property].filter (· ≠ "")).reverse =
      [entry.symbol.property, entry.symbol.delimiter].filter (· ≠ "") := by
    rw [← List.filter_reverse]
    rfl
  rw [fullName, ← hparts, ← List.reverse_append, outerSegments, hierarchy, branch]
  simp only [List.cons_append, List.append_assoc, List.nil_append]

end Entry

/-- **The full name of an entry can be written.** -/
theorem PartialName.parse_spelledName {entry : Entry} (h : entry.symbol.WellFormed) :
    parse entry.spelledName = .ok (.ofEntry entry) := by
  have hseparator : ∀ step ∈ entry.outerSegments.map fun segment => (segment, [':']),
      step.2 ∈ Lexer.separators := by
    intro step hstep
    obtain ⟨segment, _, rfl⟩ := List.mem_map.mp hstep
    exact List.mem_cons_self
  have hmember : entry.symbol.member.WellFormed := h
  rw [Entry.spelledName, parse_spelled hseparator hmember, SymbolName.segments_member,
    List.map_map, ofEntry, entry.fullName_eq_outerSegments]
  simp only [Function.comp_def, List.map_id']

namespace Database

/-- **Every entry of a document can be named.** -/
theorem exists_reference {source : String} {database : Database}
    (h : Database.parse source = .ok database) :
    ∀ record ∈ database.records.toList, ∃ reference name,
      PartialName.parse reference = .ok name ∧ database.lookup name = .ok record := by
  intro record hrecord
  obtain ⟨tokens, _, hdeclares⟩ := declared_of_mem h (List.mem_map_of_mem hrecord)
  have hsound := (Reachable.parse h).sound
  refine ⟨_, _, PartialName.parse_spelledName hdeclares.symbol_wellFormed, ?_⟩
  rw [hsound.lookup_eq, hsound.matching_fullName hrecord]
  rfl

/-- An index with names that end in a backslash, an empty element and an empty property. -/
def bareNames : String :=
  "r\\#p\n\t\"a:b\"\\#f\n\t\t\"\"\n\t\t\tM.x\n\t\t\t\t\"\"::1::2::3\n\t\t\t\tMap#::4::5::6\n"

theorem exists_reference_bareNames :
    ∃ database, Database.parse bareNames = .ok database ∧
      database.entries.map Entry.hierarchy =
        [["r\\", "p", "a:b\\", "f", "M", ""], ["r\\", "p", "a:b\\", "f", "M", "Map", "#"]] ∧
      ∀ record ∈ database.records.toList, ∃ reference name,
        PartialName.parse reference = .ok name ∧ database.lookup name = .ok record := by
  have hentries : (Database.parse bareNames).map (·.entries.map Entry.hierarchy) =
      .ok [["r\\", "p", "a:b\\", "f", "M", ""], ["r\\", "p", "a:b\\", "f", "M", "Map", "#"]] := by
    cbv
  obtain ⟨database, hparse, hhierarchies⟩ := map_eq_ok_iff.mp hentries
  exact ⟨database, hparse, hhierarchies, exists_reference hparse⟩

end Database

end SymbolIndex
