import Mathlib
import SymbolIndex.Proofs.Document.LeafLines
import SymbolIndex.Proofs.Entry.DocumentationPath

/-!
# Groups with quotes in their names

The name of a repository line or of a project line is made of two, with a `#` between them.  A line
is unquoted when it is read, and its name is cut when an entry is made below it.  By then it is not
known which marks stood in quotes: the name is cut at the first `#` that it has.  So quotes protect
the second part, and everything in the first part but that mark.

* `marked_cut_iff`: when the two parts of a name are found again.
* `names_below_group`, `Holds.take_names`: the names around a leaf.
* `parse_quotedGroups`: when an entry has the names that its groups are written with.
-/

namespace SymbolIndex

namespace TokenLine

/-- The line is a group, and its name is written as two texts in quotes with a `#` between them. -/
def IsQuotedGroup (line : TokenLine) (front back : String) : Prop :=
  ∃ tabs name, line.IsGroup tabs name ∧ name.text = quote front ++ "#" ++ quote back

/-- The lines stand below the group: none but blank ones are as far out as it is. -/
def Encloses (group : TokenLine) (inside : List TokenLine) : Prop :=
  ∀ line ∈ inside, line.IsBlank ∨ group.depth < line.depth

end TokenLine

/-! ### Two names in one -/

/-- Two names in quotes are read with the `#` between them. -/
theorem unquote_quoted {front back : String} (hfront : front.toList.getLast? ≠ some '\\')
    (hback : back.toList.getLast? ≠ some '\\') :
    unquote (quote front ++ "#" ++ quote back) = front ++ "#" ++ back := by
  have hquote : (Quoted.encode front.toList).getLast? ≠ some '\\' := by
    rw [Quoted.getLast?_encode]
    decide
  have hmark : Quoted.decode ('#' :: Quoted.encode back.toList) = '#' :: back.toList := by
    rw [Quoted.decode, Quoted.decode_encode _ hback]
    · simp
    · simp
  have htext : (quote front ++ "#" ++ quote back).toList =
      Quoted.encode front.toList ++ '#' :: Quoted.encode back.toList := by
    simp [quote]
  rw [← String.toList_inj, unquote, String.toList_ofList, htext,
    Quoted.decode_append _ _ hquote, Quoted.decode_encode _ hfront, hmark]
  simp

/-- A name that is cut at its first `#` has the two parts that it is made of exactly if there is no
`#` in the first one. -/
theorem marked_cut_iff {front back front' back' : String}
    (h : front' ++ "#" ++ back' = front ++ "#" ++ back) (hcut : '#' ∉ front'.toList) :
    front' = front ∧ Description.slashes back' = Description.slashes back ↔
      '#' ∉ front.toList := by
  constructor
  · rintro ⟨rfl, _⟩
    exact hcut
  · intro hfront
    obtain ⟨rfl, rfl⟩ := (marked_inj hcut hfront).mp h
    exact ⟨rfl, rfl⟩

namespace Outline

variable {outline after : Outline} {group : TokenLine} {inside : List TokenLine}

/-! ### Names around a leaf -/

/-- Below a group, its name stands behind the names that were around it. -/
theorem names_below_group {tabs : List Token} {name : Token}
    (hlines : ∀ line ∈ group :: inside, line.IsWhole) (hgroup : group.IsGroup tabs name)
    (hinside : group.Encloses inside) (h : (group :: inside).foldlM read outline = .ok after) :
    after.names.take (group.depth + 1) =
      outline.names.take group.depth ++ [unquote name.text] := by
  obtain ⟨hwhole, hlines⟩ := List.forall_mem_cons.mp hlines
  obtain ⟨entered, hread, hrest⟩ := foldlM_cons_eq_ok_iff.mp h
  obtain ⟨hdepth, hnames⟩ := read_group hwhole hgroup hread
  rw [take_names_of_foldlM hlines hinside hrest, hnames]
  apply List.take_of_length_le
  rw [List.length_append, List.length_take, Nat.min_eq_left hdepth]
  rfl

end Outline

/-! ### Entries below quoted groups -/

/-- The lines in front of a line that is in a project of a repository. -/
structure Enclosure where
  before : List TokenLine
  repositoryLine : TokenLine
  between : List TokenLine
  projectLine : TokenLine
  inside : List TokenLine

namespace Enclosure

def lines (around : Enclosure) : List TokenLine :=
  around.before ++ (around.repositoryLine :: around.between ++
    around.projectLine :: around.inside)

/-- The leaf line is in the project, with a package and a module around it, and the project is in
the repository. -/
structure Holds (around : Enclosure) (leafLine : TokenLine) : Prop where
  between : around.repositoryLine.Encloses around.between
  projectDepth : around.projectLine.depth = around.repositoryLine.depth + 1
  inside : around.projectLine.Encloses around.inside
  leafDepth : leafLine.depth = around.repositoryLine.depth + 4
  hasNumbers : leafLine.hasNumbers = true

variable {around : Enclosure} {outline after : Outline} {leafLine : TokenLine}

/-- Around the leaf are the names of the two groups, one of a package and one of a module. -/
theorem Holds.take_names (h : around.Holds leafLine) {tabs tabs' : List Token} {name name' : Token}
    (hrepository : around.repositoryLine.IsGroup tabs name)
    (hproject : around.projectLine.IsGroup tabs' name')
    (hlines : ∀ line ∈ around.lines, line.IsWhole)
    (hread : around.lines.foldlM Outline.read outline = .ok after)
    (hdepth : leafLine.depth ≤ after.names.length) :
    ∃ outer package moduleFile, after.names.take leafLine.depth =
      outer ++ [unquote name.text, unquote name'.text, package, moduleFile] := by
  obtain ⟨_, hlines⟩ := List.forall_mem_append.mp hlines
  obtain ⟨hrepositoryLines, hprojectLines⟩ := List.forall_mem_append.mp hlines
  obtain ⟨first, _, hread⟩ := foldlM_append_eq_ok_iff.mp hread
  obtain ⟨middle, hmiddle, hlast⟩ := foldlM_append_eq_ok_iff.mp hread
  have hnames := Outline.names_below_group hrepositoryLines hrepository h.between hmiddle
  have hnames' := Outline.names_below_group hprojectLines hproject h.inside hlast
  rw [h.projectDepth, hnames] at hnames'
  -- There are two more names in front of the leaf, whatever lines they are from.
  have hlength : ((after.names.drop (around.repositoryLine.depth + 2)).take 2).length = 2 := by
    rw [List.length_take, List.length_drop]
    have := h.leafDepth
    omega
  obtain ⟨package, moduleFile, hinner⟩ := List.length_eq_two.mp hlength
  refine ⟨first.names.take around.repositoryLine.depth, package, moduleFile, ?_⟩
  rw [h.leafDepth]
  show after.names.take (around.repositoryLine.depth + 2 + 2) = _
  rw [List.take_add, hinner, hnames']
  simp

end Enclosure

/-- An entry has the repository and the path, and the project and the folder, that its names are
made of exactly if there is no `#` in what is in front. -/
theorem Entry.parts_of_ofNames {element moduleFile package project folder repository path : String}
    {outer : List String} {declaration : Declaration} {entry : Entry}
    (h : ofNames ([element, moduleFile, package, project ++ "#" ++ folder,
      repository ++ "#" ++ path] ++ outer) declaration = .ok entry) :
    (entry.repository = repository ∧ entry.path = replaceChar '.' '/' path ↔
      '#' ∉ repository.toList) ∧
    (entry.project = project ∧ entry.folder = replaceChar '.' '/' folder ↔
      '#' ∉ project.toList) := by
  obtain ⟨d, hcuts, ⟨more, hnames⟩, _, rfl⟩ := Description.ofNames_eq_ok_iff.mp h
  simp only [Description.names, List.cons_append, List.nil_append, List.cons.injEq] at hnames
  obtain ⟨_, _, _, hproject, hrepository, _⟩ := hnames
  exact ⟨marked_cut_iff hrepository hcuts.repository, marked_cut_iff hproject hcuts.project⟩

namespace Database

/-- **Quotes protect what is behind the `#` of a group, but no `#` in front of it.**  An entry below
a repository line and a project line whose names are written in quotes has the repository and the
path, or the project and the folder, that are written there exactly if the first of the two has no
`#` in it. -/
theorem parse_quotedGroups {source : String} {database : Database}
    (hparse : parse source = .ok database) {around : Enclosure} {leafLine : TokenLine}
    {behind : List TokenLine}
    (hsource : TokenLine.ofDocument source = around.lines ++ leafLine :: behind)
    (haround : around.Holds leafLine) {repository path project folder : String}
    (hends : ∀ name ∈ [repository, path, project, folder], name.toList.getLast? ≠ some '\\')
    (hrepository : around.repositoryLine.IsQuotedGroup repository path)
    (hproject : around.projectLine.IsQuotedGroup project folder) :
    ∃ entry, database.entries[(around.lines.filter (·.hasNumbers)).length]? = some entry ∧
      leafLine.Describes entry ∧
      (entry.repository = repository ∧ entry.path = replaceChar '.' '/' path ↔
        '#' ∉ repository.toList) ∧
      (entry.project = project ∧ entry.folder = replaceChar '.' '/' folder ↔
        '#' ∉ project.toList) := by
  have hwhole : ∀ line ∈ TokenLine.ofDocument source, line.IsWhole :=
    TokenLine.isWhole_of_mem_ofDocument
  obtain ⟨outline, hfold, hdone⟩ := bind_eq_ok_iff.mp hparse
  cases hdone
  rw [hsource] at hwhole hfold
  obtain ⟨reached, tabs, leaf, entry, hreached, hleaf, hdepth, hmakes, hentry⟩ :=
    Outline.exists_entry_of_leaf hwhole haround.hasNumbers hfold
  obtain ⟨_, name, hgroup, htext⟩ := hrepository
  obtain ⟨_, name', hgroup', htext'⟩ := hproject
  obtain ⟨outer, package, moduleFile, hnames⟩ := haround.take_names hgroup hgroup'
    (List.forall_mem_append.mp hwhole).1 hreached hdepth
  have hnew : ({} : Outline).database.entries.length = 0 := rfl
  rw [hnew, Nat.zero_add] at hentry
  refine ⟨entry, hentry, ⟨tabs, leaf, hleaf, hmakes.describes⟩, ?_⟩
  -- The entry is made from the names without their quotes.
  have hmake := hmakes.ofNames
  rw [hnames, htext, htext', unquote_quoted (hends _ (by simp)) (hends _ (by simp)),
    unquote_quoted (hends _ (by simp)) (hends _ (by simp))] at hmake
  simp only [List.reverse_append, List.reverse_cons, List.reverse_nil, List.nil_append,
    List.cons_append] at hmake
  exact Entry.parts_of_ofNames hmake

/-- A repository and a folder with a `#` in their names. -/
def quotedDocument : String :=
  "\"a#b\"#\"p.q\"\n\t\"j\"#\"f#g.h\"\n\t\tk\n\t\t\tM.x\n\t\t\t\te::1::2::3\n"

/-- The tabs in front of a line of the document. -/
def tabsAt (offset : Nat) (line : UInt32) (count : Nat) : List Token :=
  (List.range count).map fun i => ⟨.tab, "\t", ⟨offset + i, line, .ofNat (i + 1)⟩⟩

/-- The lines in front of its leaf. -/
def quotedAround : Enclosure where
  before := []
  repositoryLine := ⟨[⟨.name, "\"a#b\"#\"p.q\"", ⟨0, 1, 1⟩⟩], .ok ⟨.newline, "\n", ⟨11, 1, 12⟩⟩⟩
  between := []
  projectLine :=
    ⟨tabsAt 12 2 1 ++ [⟨.name, "\"j\"#\"f#g.h\"", ⟨13, 2, 2⟩⟩], .ok ⟨.newline, "\n", ⟨24, 2, 13⟩⟩⟩
  inside :=
    [⟨tabsAt 25 3 2 ++ [⟨.name, "k", ⟨27, 3, 3⟩⟩], .ok ⟨.newline, "\n", ⟨28, 3, 4⟩⟩⟩,
      ⟨tabsAt 29 4 3 ++ [⟨.name, "M.x", ⟨32, 4, 4⟩⟩], .ok ⟨.newline, "\n", ⟨35, 4, 7⟩⟩⟩]

/-- Its leaf. -/
def quotedLeaf : TokenLine :=
  ⟨tabsAt 36 5 4 ++ [⟨.name, "e", ⟨40, 5, 5⟩⟩, ⟨.number, "1", ⟨43, 5, 8⟩⟩,
    ⟨.number, "2", ⟨46, 5, 11⟩⟩, ⟨.number, "3", ⟨49, 5, 14⟩⟩], .ok ⟨.newline, "\n", ⟨50, 5, 15⟩⟩⟩

theorem ofDocument_quotedDocument : TokenLine.ofDocument quotedDocument =
    quotedAround.lines ++ quotedLeaf :: [⟨[], .ok ⟨.endOfFile, "", ⟨51, 6, 1⟩⟩⟩] := by
  cbv

theorem holds_quotedAround : quotedAround.Holds quotedLeaf where
  between := List.forall_mem_nil _
  projectDepth := rfl
  inside := by
    have hdeeper : ∀ line ∈ quotedAround.inside, quotedAround.projectLine.depth < line.depth := by
      decide
    exact fun line hmem => .inr (hdeeper line hmem)
  leafDepth := rfl
  hasNumbers := rfl

theorem isQuotedGroup_repositoryLine : quotedAround.repositoryLine.IsQuotedGroup "a#b" "p.q" :=
  ⟨[], _, ⟨rfl, List.forall_mem_nil _, rfl⟩, by decide +kernel⟩

theorem isQuotedGroup_projectLine : quotedAround.projectLine.IsQuotedGroup "j" "f#g.h" :=
  ⟨tabsAt 12 2 1, _, ⟨rfl, by decide, rfl⟩, by decide +kernel⟩

/-- The mark in the folder is protected, the one in the repository is not. -/
theorem parse_quotedGroups_twoMarks : ∃ database entry, parse quotedDocument = .ok database ∧
    database.entries[0]? = some entry ∧ quotedLeaf.Describes entry ∧
    ¬ (entry.repository = "a#b" ∧ entry.path = "p/q") ∧
    entry.project = "j" ∧ entry.folder = "f#g/h" := by
  have hread : (parse quotedDocument).map size = .ok 1 := by cbv
  obtain ⟨database, hparse, _⟩ := map_eq_ok_iff.mp hread
  have hends : ∀ name ∈ ["a#b", "p.q", "j", "f#g.h"], name.toList.getLast? ≠ some '\\' := by
    decide +kernel
  obtain ⟨entry, hentry, hdescribes, hrepository, hproject⟩ := parse_quotedGroups hparse
    ofDocument_quotedDocument holds_quotedAround hends isQuotedGroup_repositoryLine
    isQuotedGroup_projectLine
  have hpath : replaceChar '.' '/' "p.q" = "p/q" := by decide +kernel
  have hfolder : replaceChar '.' '/' "f#g.h" = "f#g/h" := by decide +kernel
  rw [hpath] at hrepository
  rw [hfolder] at hproject
  have hmark : ¬ '#' ∉ "a#b".toList := by decide +kernel
  have hnone : '#' ∉ "j".toList := by decide +kernel
  exact ⟨database, entry, hparse, hentry, hdescribes, mt hrepository.mp hmark,
    hproject.mpr hnone⟩

/-- The repository is written as `a#b` in quotes, and is cut at its mark. -/
theorem quotedMark_cuts : ∃ database entry, parse quotedDocument = .ok database ∧
    TokenLine.ofDocument quotedDocument =
      quotedAround.lines ++ quotedLeaf :: [⟨[], .ok ⟨.endOfFile, "", ⟨51, 6, 1⟩⟩⟩] ∧
    quotedAround.Holds quotedLeaf ∧
    quotedAround.repositoryLine.IsQuotedGroup "a#b" "p.q" ∧
    quotedAround.projectLine.IsQuotedGroup "j" "f#g.h" ∧
    database.entries = [entry] ∧ entry.repository = "a" ∧ entry.path = "b#p/q" := by
  have hread : (parse quotedDocument).map entries = .ok [⟨"a", "b#p/q", "j", "f#g/h", "k", "M", "x",
      ⟨"e", "", ""⟩, ⟨1, 2, 3⟩, none⟩] := by cbv
  obtain ⟨database, hparse, hentries⟩ := map_eq_ok_iff.mp hread
  exact ⟨database, _, hparse, ofDocument_quotedDocument, holds_quotedAround,
    isQuotedGroup_repositoryLine, isQuotedGroup_projectLine, hentries, rfl, rfl⟩

end Database

end SymbolIndex
