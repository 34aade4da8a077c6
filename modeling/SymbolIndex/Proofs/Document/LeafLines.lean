import SymbolIndex.Proofs.Database.Reachable
import SymbolIndex.Proofs.Document.LineForms
import SymbolIndex.Proofs.Entry.Description

/-!
# Lines and entries

The lines with numbers are the leaf lines, and what a document adds to a database is one entry for
each of them, in their order.  The symbol, the location and the true origin of an entry are written
on its line; its other parts are those of the names around the line.

A line cuts off the names from its own depth on, and adds its own.  So lines that are deeper than a
group leave the name of the group, and the names around it, as they are.

* `read_cases`: what a line makes of an outline.
* `yields_of_foldlM`, `exists_entry_of_leaf`: what many lines add.
* `take_names_of_foldlM`: the names that stay.
-/

namespace SymbolIndex

/-- Location and true origin of an entry are those that are declared. -/
theorem Entry.place_of_ofNames {names : List String} {declaration : Declaration} {entry : Entry}
    (h : ofNames names declaration = .ok entry) :
    entry.location = declaration.location ∧ entry.trueOrigin = declaration.trueOrigin := by
  obtain ⟨d, _, _, rfl, rfl⟩ := Description.ofNames_eq_ok_iff.mp h
  exact ⟨rfl, rfl⟩

namespace LeafTokens

/-- The entry has the symbol, the location and the true origin of the leaf. -/
structure Describes (leaf : LeafTokens) (entry : Entry) : Prop where
  symbol : entry.symbol = leaf.symbol
  location : leaf.Locates entry.location
  trueOrigin : entry.trueOrigin = leaf.trueOrigin

/-- The entry is made from the leaf and the names around it, the innermost first. -/
structure Makes (leaf : LeafTokens) (names : List String) (entry : Entry) : Prop where
  ofNames : Entry.ofNames (leaf.symbol.element :: names)
    ⟨leaf.symbol.delimiter, leaf.symbol.property, entry.location, leaf.trueOrigin⟩ = .ok entry
  location : leaf.Locates entry.location
  bounded : entry.location.IsBounded

variable {leaf : LeafTokens} {names : List String} {entry : Entry}

theorem Makes.describes (h : leaf.Makes names entry) : leaf.Describes entry where
  symbol := Entry.symbol_of_ofNames h.ofNames
  location := h.location
  trueOrigin := (Entry.place_of_ofNames h.ofNames).2

end LeafTokens

namespace TokenLine

/-- The line is a leaf line, and the entry has what is written there. -/
def Describes (line : TokenLine) (entry : Entry) : Prop :=
  ∃ tabs leaf, line.IsLeaf tabs leaf ∧ leaf.Describes entry

/-- The line is a leaf line, and the entry is made from it and from some names. -/
def Yields (line : TokenLine) (entry : Entry) : Prop :=
  ∃ tabs leaf names, line.IsLeaf tabs leaf ∧ leaf.Makes names entry

theorem Yields.describes {line : TokenLine} {entry : Entry} (h : line.Yields entry) :
    line.Describes entry := by
  obtain ⟨tabs, leaf, names, hleaf, hmakes⟩ := h
  exact ⟨tabs, leaf, hleaf, hmakes.describes⟩

end TokenLine

namespace Outline

variable {outline after : Outline}

/-! ### One line -/

theorem depth_le_of_enter {depth : Nat} {name : String} (h : outline.enter depth name = .ok after) :
    depth ≤ outline.names.length := by
  unfold enter at h
  split at h
  · cases h
  · omega

/-- **What a line makes of an outline.** -/
theorem read_cases {line : TokenLine} (h : line.IsWhole) (hread : outline.read line = .ok after) :
    (line.IsBlank ∧ after = outline) ∨
      (∃ tabs name, line.IsGroup tabs name ∧ line.depth ≤ outline.names.length ∧
        after.names = outline.names.take line.depth ++ [unquote name.text] ∧
        after.database = outline.database) ∨
      ∃ tabs leaf entry, line.IsLeaf tabs leaf ∧ line.depth ≤ outline.names.length ∧
        after.names = outline.names.take line.depth ++ [leaf.symbol.element] ∧
        leaf.Makes (outline.names.take line.depth).reverse entry ∧
        after.database.entries = outline.database.entries ++ [entry] := by
  obtain ⟨line?, hline, hadd⟩ := bind_eq_ok_iff.mp hread
  rcases TokenLine.read_cases h hline with ⟨hblank, rfl⟩ | ⟨tabs, name, hgroup, rfl⟩ |
    ⟨tabs, leaf, location, hleaf, hlocates, hbounded, rfl⟩
  · cases hadd
    exact .inl ⟨hblank, rfl⟩
  · obtain ⟨entered, henter, hcontent⟩ := bind_eq_ok_iff.mp (mapError_eq_ok_iff.mp hadd)
    have hdepth := depth_le_of_enter henter
    obtain rfl := enter_eq_ok henter
    cases hcontent
    exact .inr (.inl ⟨tabs, name, hgroup, hdepth, rfl, rfl⟩)
  · obtain ⟨entered, henter, hcontent⟩ := bind_eq_ok_iff.mp (mapError_eq_ok_iff.mp hadd)
    have hdepth := depth_le_of_enter henter
    obtain rfl := enter_eq_ok henter
    obtain ⟨entry, hentry, hinsert, hnames⟩ := declare_eq_ok hcontent
    rw [List.reverse_append] at hentry
    obtain rfl := (Entry.place_of_ofNames hentry).1
    refine .inr (.inr ⟨tabs, leaf, entry, hleaf, hdepth, hnames, ⟨hentry, hlocates, hbounded⟩, ?_⟩)
    exact Database.entries_of_insert hinsert

theorem read_group {line : TokenLine} {tabs : List Token} {name : Token} (h : line.IsWhole)
    (hgroup : line.IsGroup tabs name) (hread : outline.read line = .ok after) :
    line.depth ≤ outline.names.length ∧
      after.names = outline.names.take line.depth ++ [unquote name.text] := by
  rcases read_cases h hread with ⟨hblank, _⟩ | ⟨tabs', name', hgroup', hdepth, hnames, _⟩ |
    ⟨tabs', leaf, entry, hleaf, _⟩
  · exact absurd hgroup hblank.not_isGroup
  · rw [hgroup.name_eq hgroup']
    exact ⟨hdepth, hnames⟩
  · have hnumbers := hleaf.hasNumbers_eq
    rw [hgroup.hasNumbers_eq] at hnumbers
    cases hnumbers

theorem read_leaf {line : TokenLine} (h : line.IsWhole) (hnumbers : line.hasNumbers = true)
    (hread : outline.read line = .ok after) :
    ∃ tabs leaf entry, line.IsLeaf tabs leaf ∧ line.depth ≤ outline.names.length ∧
      leaf.Makes (outline.names.take line.depth).reverse entry ∧
      after.database.entries = outline.database.entries ++ [entry] := by
  rcases read_cases h hread with ⟨hblank, _⟩ | ⟨tabs, name, hgroup, _⟩ |
    ⟨tabs, leaf, entry, hleaf, hdepth, _, hmakes, hentries⟩
  · rw [hblank.hasNumbers_eq] at hnumbers
    cases hnumbers
  · rw [hgroup.hasNumbers_eq] at hnumbers
    cases hnumbers
  · exact ⟨tabs, leaf, entry, hleaf, hdepth, hmakes, hentries⟩

/-- A line keeps the names in front of its depth. -/
theorem take_names_of_read {line : TokenLine} (h : line.IsWhole) {count : Nat}
    (hcount : line.IsBlank ∨ count ≤ line.depth) (hread : outline.read line = .ok after) :
    after.names.take count = outline.names.take count := by
  have hkeep (name : String) (hle : count ≤ line.depth) (hdepth : line.depth ≤ outline.names.length)
      (hnames : after.names = outline.names.take line.depth ++ [name]) :
      after.names.take count = outline.names.take count := by
    have hlength : count ≤ (outline.names.take line.depth).length := by
      rw [List.length_take]
      omega
    rw [hnames, List.take_append_of_le_length hlength, List.take_take, Nat.min_eq_left hle]
  rcases read_cases h hread with ⟨_, rfl⟩ | ⟨tabs, name, hgroup, hdepth, hnames, _⟩ |
    ⟨tabs, leaf, entry, hleaf, hdepth, hnames, _⟩
  · rfl
  · rcases hcount with hblank | hle
    · exact absurd hgroup hblank.not_isGroup
    · exact hkeep _ hle hdepth hnames
  · rcases hcount with hblank | hle
    · exact absurd hleaf hblank.not_isLeaf
    · exact hkeep _ hle hdepth hnames

/-! ### Many lines -/

/-- **Many lines add an entry for each of them that has numbers.** -/
theorem yields_of_foldlM {lines : List TokenLine} (hlines : ∀ line ∈ lines, line.IsWhole)
    (h : lines.foldlM read outline = .ok after) :
    ∃ entries, after.database.entries = outline.database.entries ++ entries ∧
      List.Forall₂ TokenLine.Yields (lines.filter (·.hasNumbers)) entries := by
  induction lines generalizing outline with
  | nil =>
    cases h
    exact ⟨[], (List.append_nil _).symm, .nil⟩
  | cons line lines ih =>
    obtain ⟨hline, hlines⟩ := List.forall_mem_cons.mp hlines
    obtain ⟨middle, hread, hrest⟩ := foldlM_cons_eq_ok_iff.mp h
    obtain ⟨entries, hentries, hyields⟩ := ih hlines hrest
    rcases read_cases hline hread with ⟨hblank, rfl⟩ | ⟨tabs, name, hgroup, _, _, hsame⟩ |
      ⟨tabs, leaf, entry, hleaf, _, _, hmakes, hadded⟩
    · rw [List.filter_cons_of_neg (by simp [hblank.hasNumbers_eq])]
      exact ⟨entries, hentries, hyields⟩
    · rw [List.filter_cons_of_neg (by simp [hgroup.hasNumbers_eq]), ← hsame]
      exact ⟨entries, hentries, hyields⟩
    · rw [List.filter_cons_of_pos hleaf.hasNumbers_eq]
      refine ⟨entry :: entries, ?_, .cons ⟨tabs, leaf, _, hleaf, hmakes⟩ hyields⟩
      rw [hentries, hadded, List.append_assoc]
      rfl

/-- The entry of a leaf line stands behind those of the leaf lines in front of it. -/
theorem exists_entry_of_leaf {front behind : List TokenLine} {leafLine : TokenLine}
    (hlines : ∀ line ∈ front ++ leafLine :: behind, line.IsWhole)
    (hnumbers : leafLine.hasNumbers = true)
    (h : (front ++ leafLine :: behind).foldlM read outline = .ok after) :
    ∃ reached tabs leaf entry, front.foldlM read outline = .ok reached ∧
      leafLine.IsLeaf tabs leaf ∧ leafLine.depth ≤ reached.names.length ∧
      leaf.Makes (reached.names.take leafLine.depth).reverse entry ∧
      after.database.entries[outline.database.entries.length +
        (front.filter (·.hasNumbers)).length]? = some entry := by
  obtain ⟨hfront, hline⟩ := List.forall_mem_append.mp hlines
  obtain ⟨hline, hbehind⟩ := List.forall_mem_cons.mp hline
  obtain ⟨reached, hreached, h⟩ := foldlM_append_eq_ok_iff.mp h
  obtain ⟨next, hread, hrest⟩ := foldlM_cons_eq_ok_iff.mp h
  obtain ⟨entries, hentries, hyields⟩ := yields_of_foldlM hfront hreached
  obtain ⟨tabs, leaf, entry, hleaf, hdepth, hmakes, hadded⟩ := read_leaf hline hnumbers hread
  obtain ⟨more, hmore, _⟩ := yields_of_foldlM hbehind hrest
  refine ⟨reached, tabs, leaf, entry, hreached, hleaf, hdepth, hmakes, ?_⟩
  have hlength : reached.database.entries.length =
      outline.database.entries.length + (front.filter (·.hasNumbers)).length := by
    rw [hentries, List.length_append, hyields.length_eq]
  rw [hmore, hadded, ← hlength, List.append_assoc, List.getElem?_append_right le_rfl]
  simp

/-- Many lines keep the names in front of all of their depths. -/
theorem take_names_of_foldlM {lines : List TokenLine} (hlines : ∀ line ∈ lines, line.IsWhole)
    {count : Nat} (hcount : ∀ line ∈ lines, line.IsBlank ∨ count ≤ line.depth)
    (h : lines.foldlM read outline = .ok after) :
    after.names.take count = outline.names.take count := by
  refine foldlM_induction (p := fun other => other.names.take count = outline.names.take count)
    (fun before line hmem next hread hbefore => ?_) h rfl
  rw [take_names_of_read (hlines line hmem) (hcount line hmem) hread, hbefore]

end Outline

end SymbolIndex
