import SymbolIndex.Proofs.Entry.Description

/-!
# Modules and their documentation files

The documentation path of an entry is made of three or four parts with slashes between them: the
repository with its path, the project with its folder, the package if there is one, and the module.
In the path, in the folder and in the package, slashes have been turned into dots, and there were no
dots in them before; so nothing is lost, and no part holds a slash, as long as there is none in the
other names.  The `#` in the first two parts is the first one there.

* `pieces_documentationPath`: the parts are the pieces of the path.
* `documentationPath_eq_iff`: entries share their documentation path exactly when they are of the
  same module.
-/

namespace SymbolIndex

/-! ### Paths from parts -/

/-- A text that can be a part of a path. -/
def IsPart (text : String) : Prop := text ≠ "" ∧ '/' ∉ text.toList

namespace IsPart

variable {base part : String}

theorem getLast?_ne (h : IsPart part) (front : List Char) :
    (front ++ part.toList).getLast? ≠ some '/' := by
  have hne : part.toList ≠ [] := fun hnil => h.1 (String.toList_eq_nil_iff.mp hnil)
  rw [List.getLast?_append_of_ne_nil _ hne]
  exact fun hlast => h.2 (List.mem_of_getLast? hlast)

theorem not_isAbsolute (h : IsPart part) : ¬ Path.isAbsolute part = true := by
  rw [Path.isAbsolute, decide_eq_true_eq]
  exact fun hhead => h.2 (List.mem_of_head? hhead)

/-- A part is put behind a path with a slash between them. -/
theorem push_eq (h : IsPart part) (hne : base ≠ "") (hlast : base.toList.getLast? ≠ some '/') :
    Path.push base part = base ++ "/" ++ part := by
  rw [Path.push, if_neg h.not_isAbsolute, if_neg (not_or.mpr ⟨hne, hlast⟩)]

end IsPart

theorem pieces_foldl_push {base : String} {parts : List String}
    (hparts : ∀ part ∈ parts, IsPart part) (hne : base ≠ "")
    (hlast : base.toList.getLast? ≠ some '/') :
    pieces '/' (parts.foldl Path.push base) = pieces '/' base ++ parts := by
  induction parts generalizing base with
  | nil => exact (List.append_nil _).symm
  | cons part parts ih =>
    obtain ⟨hpart, hparts⟩ := List.forall_mem_cons.mp hparts
    have hpush := hpart.push_eq hne hlast
    have htext : (base ++ "/" ++ part).toList = base.toList ++ '/' :: part.toList := by simp
    rw [List.foldl_cons, hpush, ih hparts]
    · rw [← String.ofList_toList (s := base ++ "/" ++ part), htext, pieces_append_cons,
        String.ofList_toList, String.ofList_toList, pieces_of_not_mem hpart.2, List.append_assoc]
      rfl
    · simp
    · rw [htext, ← List.singleton_append, ← List.append_assoc]
      exact hpart.getLast?_ne _

/-! ### Slashes and dots -/

/-- Replacing a character is undone by replacing it back, if the new one was not there before. -/
theorem replaceChar_replaceChar {old new : Char} {text : String} (h : new ∉ text.toList) :
    replaceChar new old (replaceChar old new text) = text := by
  rw [← String.toList_inj, toList_replaceChar, toList_replaceChar, List.map_map]
  refine (List.map_congr_left fun c hc => ?_).trans (List.map_id _)
  have hne : c ≠ new := fun heq => h (heq ▸ hc)
  by_cases hold : c = old
  · simp [hold]
  · simp [hold, hne]

/-- A path with dots for its slashes. -/
def dots (path : String) : String := replaceChar '/' '.' path

theorem dots_inj {path other : String} (hpath : '.' ∉ path.toList) (hother : '.' ∉ other.toList) :
    dots path = dots other ↔ path = other := by
  refine ⟨fun h => ?_, congrArg dots⟩
  rw [← replaceChar_replaceChar hpath, ← replaceChar_replaceChar hother]
  exact congrArg _ h

/-- Two names with a `#` between them are told apart, the first `#` being that one. -/
theorem marked_inj {front back front' back' : String} (hfront : '#' ∉ front.toList)
    (hfront' : '#' ∉ front'.toList) :
    front ++ "#" ++ back = front' ++ "#" ++ back' ↔ front = front' ∧ back = back' := by
  have hcut : Entry.cutName '#' (front ++ "#" ++ back) = .ok (front, back) :=
    Entry.cutName_eq_ok_iff.mpr ⟨by simp, hfront⟩
  have hcut' : Entry.cutName '#' (front' ++ "#" ++ back') = .ok (front', back') :=
    Entry.cutName_eq_ok_iff.mpr ⟨by simp, hfront'⟩
  constructor
  · intro h
    rw [h, hcut'] at hcut
    cases hcut
    exact ⟨rfl, rfl⟩
  · rintro ⟨rfl, rfl⟩
    rfl

/-! ### The parts of a documentation path -/

namespace Entry

/-- The part for the package, if there is one. -/
def packageParts (package : String) : List String := if package = "" then [] else [dots package]

/-- The parts of the documentation path. -/
def documentationParts (entry : Entry) : List String :=
  [entry.repository ++ "#" ++ dots entry.path, entry.project ++ "#" ++ dots entry.folder] ++
    packageParts entry.package ++ [entry.moduleName ++ documentationExtension]

/-- There is no slash in the names that the documentation path takes as they are. -/
structure HasPlainNames (entry : Entry) : Prop where
  repository : '/' ∉ entry.repository.toList
  project : '/' ∉ entry.project.toList
  moduleName : '/' ∉ entry.moduleName.toList

theorem not_mem_dots (path : String) : '/' ∉ (dots path).toList :=
  not_mem_replaceChar_old (by decide)

theorem isPart_marked {front : String} (h : '/' ∉ front.toList) (path : String) :
    IsPart (front ++ "#" ++ dots path) := by
  refine ⟨by simp, ?_⟩
  simp [h, not_mem_dots]

theorem isPart_of_mem_packageParts {package part : String} (h : part ∈ packageParts package) :
    IsPart part := by
  unfold packageParts at h
  split at h
  · cases h
  · rename_i hne
    rw [List.mem_singleton.mp h]
    exact ⟨mt replaceChar_eq_empty_iff.mp hne, not_mem_dots package⟩

theorem HasPlainNames.isPart {entry : Entry} (h : entry.HasPlainNames) :
    ∀ part ∈ entry.documentationParts, IsPart part := by
  intro part hpart
  simp only [documentationParts, List.mem_append, List.mem_cons, List.not_mem_nil, or_false]
    at hpart
  rcases hpart with ((rfl | rfl) | hpackage) | rfl
  · exact isPart_marked h.repository entry.path
  · exact isPart_marked h.project entry.folder
  · exact isPart_of_mem_packageParts hpackage
  · exact ⟨by simp [documentationExtension], by simp [documentationExtension, h.moduleName]⟩

/-- **The pieces of a documentation path are its parts.** -/
theorem pieces_documentationPath {entry : Entry} (h : entry.HasPlainNames) :
    pieces '/' entry.documentationPath = entry.documentationParts := by
  show pieces '/' (entry.documentationParts.foldl Path.push "") = _
  have hparts := h.isPart
  rw [documentationParts, List.cons_append, List.cons_append] at hparts ⊢
  obtain ⟨hfirst, hrest⟩ := List.forall_mem_cons.mp hparts
  have hpush : Path.push "" (entry.repository ++ "#" ++ dots entry.path) =
      entry.repository ++ "#" ++ dots entry.path := by
    rw [Path.push, if_neg hfirst.not_isAbsolute, if_pos (.inl rfl), String.empty_append]
  rw [List.foldl_cons, hpush, pieces_foldl_push hrest hfirst.1, pieces_of_not_mem hfirst.2]
  · rfl
  · have hlast := hfirst.getLast?_ne []
    rwa [List.nil_append] at hlast

theorem packageParts_inj {package other : String} (hpackage : '.' ∉ package.toList)
    (hother : '.' ∉ other.toList) :
    packageParts package = packageParts other ↔ package = other := by
  refine ⟨fun h => ?_, congrArg packageParts⟩
  unfold packageParts at h
  split at h <;> split at h
  · simp_all
  · cases h
  · cases h
  · exact (dots_inj hpackage hother).mp (List.singleton_injective h)

/-- **Two modules never share a documentation file.**  The documentation paths of two entries made
from names, where the repositories, projects and module names hold no slash, are the same exactly
when the entries agree in all that makes up their module.  Nothing else matters. -/
theorem documentationPath_eq_iff {names₁ names₂ : List String}
    {declaration₁ declaration₂ : Declaration} {entry₁ entry₂ : Entry}
    (h₁ : ofNames names₁ declaration₁ = .ok entry₁) (h₂ : ofNames names₂ declaration₂ = .ok entry₂)
    (hplain₁ : entry₁.HasPlainNames) (hplain₂ : entry₂.HasPlainNames) :
    entry₁.documentationPath = entry₂.documentationPath ↔
      entry₁.repository = entry₂.repository ∧ entry₁.path = entry₂.path ∧
        entry₁.project = entry₂.project ∧ entry₁.folder = entry₂.folder ∧
        entry₁.package = entry₂.package ∧ entry₁.moduleName = entry₂.moduleName := by
  obtain ⟨d₁, hcuts₁, _, _, rfl⟩ := Description.ofNames_eq_ok_iff.mp h₁
  obtain ⟨d₂, hcuts₂, _, _, rfl⟩ := Description.ofNames_eq_ok_iff.mp h₂
  have hdot (text : String) : '.' ∉ (Description.slashes text).toList :=
    not_mem_replaceChar_old (by decide)
  constructor
  · intro h
    have hparts : d₁.entry.documentationParts = d₂.entry.documentationParts := by
      rw [← pieces_documentationPath hplain₁, ← pieces_documentationPath hplain₂, h]
    obtain ⟨hfront, hmodule⟩ := List.append_inj' hparts rfl
    obtain ⟨hfirst, hfront⟩ := List.cons_eq_cons.mp hfront
    obtain ⟨hsecond, hpackage⟩ := List.cons_eq_cons.mp hfront
    obtain ⟨hrepository, hpath⟩ := (marked_inj hcuts₁.repository hcuts₂.repository).mp hfirst
    obtain ⟨hproject, hfolder⟩ := (marked_inj hcuts₁.project hcuts₂.project).mp hsecond
    refine ⟨hrepository, (dots_inj (hdot _) (hdot _)).mp hpath, hproject,
      (dots_inj (hdot _) (hdot _)).mp hfolder, (packageParts_inj (hdot _) (hdot _)).mp hpackage, ?_⟩
    have htext := congrArg String.toList (List.singleton_injective hmodule)
    rw [String.toList_append, String.toList_append] at htext
    exact String.toList_inj.mp (List.append_cancel_right htext)
  · rintro ⟨hrepository, hpath, hproject, hfolder, hpackage, hmodule⟩
    rw [documentationPath, documentationPath, hrepository, hpath, hproject, hfolder, hpackage,
      hmodule]

/-- An entry in a library. -/
def libraryEntry (folder package extension : String) (symbol : SymbolName) (location : Location) :
    Entry where
  repository := "lib"
  path := "a/b"
  project := "proj"
  folder := folder
  package := package
  moduleName := "M"
  extension := extension
  symbol := symbol
  location := location

/-- Two symbols of one module, which is written with dots and with slashes, and one of a module
without a package, whose folder has the same words. -/
theorem documentationPath_eq_iff_threeSymbols :
    ofNames ["List", "M.x", "n4.fmt", "proj#src.#gen", "lib#a.b"] ⟨"#", "get", ⟨1, 2, 3⟩, none⟩ =
      .ok (libraryEntry "src/#gen" "n4/fmt" "x" ⟨"List", "#", "get"⟩ ⟨1, 2, 3⟩) ∧
    ofNames ["Map", "M.y.z", "n4/fmt", "proj#src/#gen", "lib#a/b", "more"] {} =
      .ok (libraryEntry "src/#gen" "n4/fmt" "y.z" ⟨"Map", "", ""⟩ .absent) ∧
    ofNames ["List", "M.x", "", "proj#src.#gen.n4.fmt", "lib#a.b"] {} =
      .ok (libraryEntry "src/#gen/n4/fmt" "" "x" ⟨"List", "", ""⟩ .absent) ∧
    (∀ folder package extension symbol location,
      (libraryEntry folder package extension symbol location).HasPlainNames) ∧
    (libraryEntry "src/#gen" "n4/fmt" "x" ⟨"List", "#", "get"⟩ ⟨1, 2, 3⟩).documentationPath =
      (libraryEntry "src/#gen" "n4/fmt" "y.z" ⟨"Map", "", ""⟩ .absent).documentationPath ∧
    (libraryEntry "src/#gen" "n4/fmt" "x" ⟨"List", "#", "get"⟩ ⟨1, 2, 3⟩).documentationPath ≠
      (libraryEntry "src/#gen/n4/fmt" "" "x" ⟨"List", "", ""⟩ .absent).documentationPath := by
  have hget : ofNames ["List", "M.x", "n4.fmt", "proj#src.#gen", "lib#a.b"]
      ⟨"#", "get", ⟨1, 2, 3⟩, none⟩ =
        .ok (libraryEntry "src/#gen" "n4/fmt" "x" ⟨"List", "#", "get"⟩ ⟨1, 2, 3⟩) := by
    cbv
  have hmap : ofNames ["Map", "M.y.z", "n4/fmt", "proj#src/#gen", "lib#a/b", "more"] {} =
      .ok (libraryEntry "src/#gen" "n4/fmt" "y.z" ⟨"Map", "", ""⟩ .absent) := by
    cbv
  have hlist : ofNames ["List", "M.x", "", "proj#src.#gen.n4.fmt", "lib#a.b"] {} =
      .ok (libraryEntry "src/#gen/n4/fmt" "" "x" ⟨"List", "", ""⟩ .absent) := by
    cbv
  have hplain (folder package extension symbol location) :
      (libraryEntry folder package extension symbol location).HasPlainNames := by
    refine ⟨?_, ?_, ?_⟩ <;> simp [libraryEntry]
  refine ⟨hget, hmap, hlist, hplain, ?_, fun h => ?_⟩
  · exact (documentationPath_eq_iff hget hmap (hplain ..) (hplain ..)).mpr (by decide)
  · exact absurd ((documentationPath_eq_iff hget hlist (hplain ..) (hplain ..)).mp h) (by decide)

end Entry

end SymbolIndex
