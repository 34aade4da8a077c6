import Mathlib
import SymbolIndex.Proofs.Document.Continuation
import SymbolIndex.Proofs.Document.Leaves

/-!
# Documents behind one another

Two documents that can be read are put behind one another, where the first is empty or ends
with a line feed.  Then the lines of the second are the lines behind those of the first, and
only their positions are others: a `#` at its start begins a comment in both places, at the
start of a source and behind a line feed.  So reading both together is reading the first and
placing the leaves of the second, and that is what taking over its database does.

* `ofDocument_append`: the lines of both.
* `parse_append`: concatenating documents is merging databases.
-/

namespace SymbolIndex

/-! ### The lines of both -/

namespace TokenLine

/-- **The lines of a document behind another one.** -/
theorem ofDocument_append {front : String} (h : front = "" ∨ front.toList.getLast? = some '\n')
    {database : Database} (hread : Database.parse front = .ok database) (back : String) :
    ∃ lines last, last.kind = .endOfFile ∧ ofDocument front = lines ++ [⟨[], .ok last⟩] ∧
      ofDocument (front ++ back) =
        lines ++ (ofDocument back).map (shifted (Position.behind front.toList)) := by
  obtain ⟨last, hlast⟩ := ending_eq_ok hread
  obtain ⟨lines, hlines, hmore⟩ := ofDocument_append_of_ok h hlast
  exact ⟨lines, last, Lexer.kind_of_ending_readAll hlast, hlines, hmore back⟩

theorem read_end {last : Token} (h : last.kind = .endOfFile) :
    read ⟨[], .ok last⟩ = .ok none := by
  obtain ⟨kind, text, position⟩ := last
  obtain rfl : kind = .endOfFile := h
  rfl

end TokenLine

/-! ### Reading both -/

namespace Database

/-- The leaves of a document are the entries of its database. -/
theorem insertAll_leaves {source : String} {database : Database}
    (h : parse source = .ok database) :
    empty.insertAll ((leaves source).map (·.entry)) = (database, none) := by
  obtain ⟨after, hlines, hdatabase⟩ := bind_eq_ok_iff.mp h
  have hplace := Outline.foldlM_read_eq hlines (List.prefix_refl _) empty
  cases hdatabase
  rw [hlines] at hplace
  exact foldlM_place_eq_ok_iff.mp hplace.symm

/-- **Reading a document behind another one is placing its leaves.** -/
theorem parse_append_eq {front back : String} {first second : Database}
    (h : front = "" ∨ front.toList.getLast? = some '\n')
    (hfront : parse front = .ok first) (hback : parse back = .ok second) :
    parse (front ++ back) =
      ((leaves back).map (Leaf.shifted (Position.behind front.toList))).foldlM place first := by
  obtain ⟨lines, last, hlast, hlines, hall⟩ := TokenLine.ofDocument_append h hfront back
  obtain ⟨before, hbefore, hfirst⟩ := bind_eq_ok_iff.mp hfront
  obtain ⟨after, hafter, _⟩ := bind_eq_ok_iff.mp hback
  cases hfirst
  have hread : lines.foldlM Outline.read {} = .ok before := by
    rw [hlines, List.foldlM_append] at hbefore
    obtain ⟨middle, hmiddle, hend⟩ := bind_eq_ok_iff.mp hbefore
    rw [List.foldlM_cons, Outline.read, TokenLine.read_end hlast] at hend
    cases hend
    exact hmiddle
  have hshifted := Outline.foldlM_read_shifted (f := Position.behind front.toList) {}
    (TokenLine.ofDocument back)
  rw [hafter] at hshifted
  -- The outline still has names of the first document, where the second one has none by itself.
  have hplace := Outline.foldlM_read_eq hshifted (List.nil_prefix (l := before.names))
    before.database
  rw [leaves, ← TokenLine.leavesBelow_shifted, ← hplace, parse, hall, List.foldlM_append, hread]
  show ((TokenLine.ofDocument back).map (TokenLine.shifted _)).foldlM Outline.read before >>=
    (fun outline => pure outline.database) = _
  cases ((TokenLine.ofDocument back).map (TokenLine.shifted _)).foldlM Outline.read before <;> rfl

/-- **Concatenating documents is merging databases.**  The leaves of the second document are the
entries of its database.  Both documents together are read if the first database takes all of them
over, and then as the database that this gives.  Otherwise the first that is rejected is a
duplicate, told of its name in the second document, behind the first one. -/
theorem parse_append {front back : String} {first second : Database}
    (h : front = "" ∨ front.toList.getLast? = some '\n')
    (hfront : parse front = .ok first) (hback : parse back = .ok second) :
    (leaves back).map (·.entry) = second.entries ∧
      (∀ merged, parse (front ++ back) = .ok merged ↔ first.extend second = (merged, none)) ∧
      ∀ merged error, first.extend second = (merged, some error) →
        ∃ before leaf behind, leaves back = before ++ leaf :: behind ∧
          first.insertAll (before.map (·.entry)) = (merged, none) ∧
          merged.add leaf.entry = (.error error, merged) ∧
          ∃ fault, fault.message = "Index contains duplicates" ∧
            parse (front ++ back) = .error ⟨leaf.position.behind front.toList, fault⟩ := by
  have hentries : (leaves back).map (·.entry) = second.entries :=
    (entries_insertAll (insertAll_leaves hback)).symm
  have hshifted : ((leaves back).map (Leaf.shifted (Position.behind front.toList))).map (·.entry) =
      second.entries := by
    rw [← hentries, List.map_map]
    rfl
  rw [parse_append_eq h hfront hback]
  refine ⟨hentries, fun merged => ?_, fun merged error herror => ?_⟩
  · rw [foldlM_place_eq_ok_iff, hshifted]
    rfl
  · rw [extend, ← hshifted] at herror
    obtain ⟨before, leaf, behind, hleaves, hbefore, hadd, hplace⟩ :=
      foldlM_place_of_insertAll_error herror
    obtain ⟨before, rest, hback, rfl, hrest⟩ := List.map_eq_append_iff.mp hleaves
    obtain ⟨leaf, behind, rfl, rfl, rfl⟩ := List.map_eq_cons_iff.mp hrest
    rw [List.map_map] at hbefore
    exact ⟨before, leaf, behind, hback, hbefore, hadd, .duplicateEntry, rfl, hplace⟩

/-- A class in a module. -/
def classDocument : String := "r#p\n\tq#f\n\t\tk\n\t\t\tM.x\n\t\t\t\te::1::2::3\n"

/-- Another class in the same module, below a comment. -/
def commentedDocument : String :=
  "# more\nr#p\n\tq#f\n\t\tk\n\t\t\t\"M.x\"\n\t\t\t\tg::4::5::6\n"

/-- The other class goes behind the first one, which does not go behind itself. -/
theorem parse_append_classes :
    classDocument.toList.getLast? = some '\n' ∧
      ∃ first second merged : Database, parse classDocument = .ok first ∧
        parse commentedDocument = .ok second ∧
        parse (classDocument ++ commentedDocument) = .ok merged ∧
        first.extend second = (merged, none) ∧
        parse (classDocument ++ classDocument) = .error ⟨⟨59, 10, 5⟩, .duplicateEntry⟩ ∧
        ∃ leaf ∈ leaves classDocument,
          leaf.position.behind classDocument.toList = ⟨59, 10, 5⟩ := by
  have hlast : classDocument.toList.getLast? = some '\n' := by decide +kernel
  have hfirst : (parse classDocument).map size = .ok 1 := by cbv
  have hsecond : (parse commentedDocument).map size = .ok 1 := by cbv
  have hmerged : (parse (classDocument ++ commentedDocument)).map size = .ok 2 := by cbv
  have herror : (parse (classDocument ++ classDocument)).map size =
      .error ⟨⟨59, 10, 5⟩, .duplicateEntry⟩ := by cbv
  obtain ⟨first, hfirst, _⟩ := map_eq_ok_iff.mp hfirst
  obtain ⟨second, hsecond, _⟩ := map_eq_ok_iff.mp hsecond
  obtain ⟨merged, hmerged, _⟩ := map_eq_ok_iff.mp hmerged
  have herror := map_eq_error_iff.mp herror
  obtain ⟨_, haccepts, _⟩ := parse_append (.inr hlast) hfirst hsecond
  obtain ⟨_, hrepeats, hrejects⟩ := parse_append (.inr hlast) hfirst hfirst
  refine ⟨hlast, first, second, merged, hfirst, hsecond, hmerged, (haccepts merged).mp hmerged,
    herror, ?_⟩
  rcases hextend : first.extend first with ⟨reached, _ | rejection⟩
  · have hread := (hrepeats reached).mpr hextend
    rw [herror] at hread
    cases hread
  · obtain ⟨before, leaf, behind, hleaves, _, _, fault, _, hparse⟩ :=
      hrejects reached rejection hextend
    rw [herror] at hparse
    refine ⟨leaf, ?_, (congrArg ParseError.position (Except.error.inj hparse)).symm⟩
    rw [hleaves]
    exact List.mem_append_right _ List.mem_cons_self

end Database

end SymbolIndex
