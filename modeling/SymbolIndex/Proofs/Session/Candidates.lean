import SymbolIndex.Proofs.Reference.Printing
import SymbolIndex.Proofs.Session.Run

/-!
# The candidates of an ambiguous reference

Where more than one entry fits a reference, a session shows the full names of all that
do.  One would like to ask again with one of these.  Where all names are words of ASCII
letters, this works for the entries whose path is a single word, and only for them: a path
of more words is one segment of the hierarchy, while its printed form is cut at the slashes
when it is read.

* `IsLettered`: names that are made of words; they need no quotes.
* `resolve_candidate_iff`: which candidates lead back to their entries.
-/

namespace SymbolIndex

/-! ### Names of words -/

/-- A string of ASCII letters, at least one. -/
def IsWord (text : String) : Prop := text ≠ "" ∧ ∀ c ∈ text.toList, c.isAlpha = true

instance : DecidablePred IsWord := fun text =>
  decidable_of_iff (text ≠ "" ∧ text.toList.all Char.isAlpha) (by rw [IsWord, List.all_eq_true])

/-- A text whose pieces are words. -/
def IsLettered (separator : Char) (text : String) : Prop :=
  ∀ piece ∈ pieces separator text, IsWord piece

instance (separator : Char) : DecidablePred (IsLettered separator) :=
  fun text => inferInstanceAs (Decidable (∀ piece ∈ pieces separator text, IsWord piece))

/-- An entry all of whose names are made of words, with dots or with slashes between them. -/
structure Entry.IsLettered (entry : Entry) : Prop where
  repository : SymbolIndex.IsLettered '.' entry.repository
  path : SymbolIndex.IsLettered '/' entry.path
  project : SymbolIndex.IsLettered '.' entry.project
  folder : SymbolIndex.IsLettered '/' entry.folder
  package : entry.package ≠ "" → SymbolIndex.IsLettered '/' entry.package
  moduleName : SymbolIndex.IsLettered '.' entry.moduleName
  element : IsWord entry.symbol.element
  property : entry.symbol.delimiter ≠ "" → IsWord entry.symbol.property

section Words

variable {text : String}

/-- A letter is none of the characters that mean something in a name. -/
theorem isSpecial_of_isAlpha {c : Char} (h : c.isAlpha = true) : isSpecial c = false := by
  refine Bool.eq_false_iff.mpr fun hspecial => ?_
  simp only [isSpecial, Bool.or_eq_true, decide_eq_true_eq] at hspecial
  rcases hspecial with (((rfl | rfl) | rfl) | rfl) | rfl <;> exact absurd h (by decide)

theorem isMark_of_isAlpha {c : Char} (h : c.isAlpha = true) : SymbolName.isMark c = false := by
  refine Bool.eq_false_iff.mpr fun hmark => ?_
  simp only [SymbolName.isMark, Bool.or_eq_true, decide_eq_true_eq] at hmark
  rcases hmark with rfl | rfl <;> exact absurd h (by decide)

theorem isAccessor_of_isAlpha {c : Char} (h : c.isAlpha = true) :
    SymbolName.isAccessor c = false := by
  refine Bool.eq_false_iff.mpr fun haccessor => ?_
  simp only [SymbolName.isAccessor, Bool.or_eq_true, decide_eq_true_eq] at haccessor
  rcases haccessor with rfl | rfl <;> exact absurd h (by decide)

theorem isDigit_of_isAlpha {c : Char} (h : c.isAlpha = true) : c.isDigit = false := by
  refine Bool.eq_false_iff.mpr fun hdigit => ?_
  simp [Char.isAlpha, Char.isUpper, Char.isLower, Char.isDigit, UInt32.le_iff_toNat_le] at h hdigit
  omega

theorem isPlainName_of_chars (hne : text ≠ "")
    (h : ∀ c ∈ text.toList, c = '.' ∨ c.isAlpha = true) : IsPlainName text where
  ne_nil := fun hnil => hne (String.toList_eq_nil_iff.mp hnil)
  no_special := fun c hc => by
    rcases h c hc with rfl | halpha
    · decide
    · exact isSpecial_of_isAlpha halpha
  no_digit := by
    cases htext : text.toList with
    | nil => rfl
    | cons c rest =>
      have hc : c ∈ text.toList := htext ▸ List.mem_cons_self
      show c.isDigit = false
      rcases h c hc with rfl | halpha
      · decide
      · exact isDigit_of_isAlpha halpha

theorem IsWord.isPlainName (h : IsWord text) : IsPlainName text :=
  isPlainName_of_chars h.1 fun c hc => .inr (h.2 c hc)

namespace IsLettered

theorem chars {separator : Char} (h : IsLettered separator text) :
    ∀ c ∈ text.toList, c = separator ∨ c.isAlpha = true := by
  intro c hc
  by_cases heq : c = separator
  · exact .inl heq
  · obtain ⟨piece, hpiece, hmem⟩ := exists_mem_pieces hc heq
    exact .inr ((h piece hpiece).2 c hmem)

theorem isPlainName (h : IsLettered '.' text) : IsPlainName text := by
  refine isPlainName_of_chars ?_ h.chars
  rintro rfl
  exact (h "" (by decide)).1 rfl

theorem of_pieces (h : IsLettered '/' text) : ∀ piece ∈ pieces '/' text, IsPlainName piece :=
  fun piece hpiece => (h piece hpiece).isPlainName

end IsLettered

end Words

namespace Entry.IsLettered

variable {entry : Entry}

theorem symbol_isPlain (h : entry.IsLettered) (hsymbol : entry.symbol.WellFormed) :
    entry.symbol.IsPlain := by
  have hproperty : ∀ c ∈ entry.symbol.property.toList, c.isAlpha = true := by
    rcases hsymbol with ⟨_, hempty⟩ | hdelimiter
    · rw [hempty]
      exact fun _ hc => nomatch hc
    · exact (h.property fun hempty => absurd (hempty ▸ hdelimiter) (by decide)).2
  refine ⟨hsymbol, h.element.isPlainName, fun c hc => isMark_of_isAlpha (h.element.2 c hc),
    fun c hc => isSpecial_of_isAlpha (hproperty c hc), fun _ => ?_⟩
  cases htext : entry.symbol.property.toList with
  | nil => rfl
  | cons c rest => exact isAccessor_of_isAlpha (hproperty c (htext ▸ List.mem_cons_self))

theorem module_pieces (h : entry.IsLettered) :
    ∀ piece ∈ pieces '/' entry.module, IsPlainName piece := by
  rw [Entry.pieces_module h.moduleName.isPlainName.not_mem_slash, List.forall_mem_append]
  refine ⟨?_, List.forall_mem_singleton.mpr h.moduleName.isPlainName⟩
  split
  · exact List.forall_mem_nil _
  · rename_i hpackage
    exact (h.package hpackage).of_pieces

/-- Names of words need no quotes. -/
theorem isPlain (h : entry.IsLettered) (hsymbol : entry.symbol.WellFormed) : entry.IsPlain where
  repository := h.repository.isPlainName
  no_margin := by
    intro c hc
    rcases h.repository.chars c (List.mem_of_mem_head? hc) with rfl | halpha
    · decide
    · constructor <;> rintro rfl <;> exact absurd halpha (by decide)
  path := h.path.of_pieces
  project := h.project.isPlainName
  folder := h.folder.of_pieces
  module := h.module_pieces
  symbol := h.symbol_isPlain hsymbol

end Entry.IsLettered

/-! ### Asking again -/

namespace Session

variable {session after : Session} {database : Database}

theorem load_again {files : FileReader} (h : session.load files = (.ok database, after))
    (later : FileReader) : after.load later = (.ok database, after) := by
  rcases load_cases files session with ⟨directory, found, hload⟩ | ⟨error, hload⟩
  · obtain ⟨⟨⟩, rfl⟩ := Prod.mk.inj (hload.symm.trans h)
    rfl
  · cases hload.symm.trans h

theorem resolve_of_parse {files : FileReader} {reference : String} {name : PartialName}
    (hname : PartialName.parse reference = .ok name)
    (hload : session.load files = (.ok database, after)) :
    session.resolve files reference = (resolveIn database reference name, after) := by
  rw [resolve, hname, hload]

/-- The answer to a reference that these entries fit. -/
def answer (reference : String) (found : List Entry) : Except ResolveError Entry :=
  match found with
  | [] => .error (.notFound reference)
  | [entry] => .ok entry
  | _ :: _ :: _ => .error (.ambiguous reference (found.map Entry.reference))

section Answer

variable {reference : String} {found : List Entry}

theorem answer_eq_ok_iff {entry : Entry} :
    answer reference found = .ok entry ↔ found = [entry] := by
  rcases found with _ | ⟨first, _ | ⟨second, rest⟩⟩ <;> simp [answer]

theorem answer_eq_ambiguous_iff {candidates : List String} :
    answer reference found = .error (.ambiguous reference candidates) ↔
      2 ≤ found.length ∧ candidates = found.map Entry.reference := by
  rcases found with _ | ⟨first, _ | ⟨second, rest⟩⟩ <;> simp [answer, eq_comm]

end Answer

/-- The entries of a database that fit a name. -/
def fitting (database : Database) (name : PartialName) : List Entry :=
  database.entries.filter fun entry => fits entry.fullName name.segments

/-- A session answers what the list of entries says. -/
theorem resolveIn_eq_answer (hs : database.Sound) (reference : String) (name : PartialName) :
    resolveIn database reference name = answer reference (fitting database name) := by
  rw [resolveIn, hs.lookup_eq, hs.candidates_eq, fitting, ← Database.map_entry_matching]
  rcases database.matching name with _ | ⟨first, _ | ⟨second, rest⟩⟩
  · rfl
  · rfl
  · show _ = Except.error (ResolveError.ambiguous reference
      (((first :: second :: rest).map (·.entry)).map Entry.reference))
    rw [List.map_map]
    rfl

/-- The printed full name of a stored entry fits it alone if its path has no slash, and does not
fit it otherwise. -/
theorem exists_fitting_reference_iff (hs : database.Sound) {entry : Entry}
    (hmem : entry ∈ database.entries) (hplain : entry.IsPlain) :
    ∃ name, PartialName.parse entry.reference = .ok name ∧
      (fitting database name = [entry] ↔ '/' ∉ entry.path.toList) := by
  by_cases hpath : '/' ∈ entry.path.toList
  · obtain ⟨name, hparse, hfits⟩ := PartialName.fits_reference_of_mem hplain hpath
    refine ⟨name, hparse, fun hfitting => ?_, fun hnot => absurd hpath hnot⟩
    have hentry : entry ∈ fitting database name := hfitting ▸ List.mem_singleton_self entry
    rw [fitting, List.mem_filter, hfits] at hentry
    exact absurd hentry.2 (by decide)
  · refine ⟨_, PartialName.parse_reference_of_not_mem hplain hpath, fun _ => hpath, fun _ => ?_⟩
    obtain ⟨record, hrecord, rfl⟩ := List.mem_map.mp hmem
    rw [fitting, ← Database.map_entry_matching, hs.matching_fullName hrecord, List.map_singleton]

/-- **A candidate leads back to its entry exactly when the path is a single word**, for entries
whose names are made of words. -/
theorem resolve_candidate_iff {files : FileReader} {source reference : String}
    {candidates : List String} (hparse : Database.parse source = .ok database)
    (hload : session.load files = (.ok database, after))
    (h : (session.resolve files reference).1 = .error (.ambiguous reference candidates)) :
    ∃ found : List Entry, candidates = found.map Entry.reference ∧
      found.Sublist database.entries ∧ 2 ≤ found.length ∧
      (session.resolve files reference).2 = after ∧
      ∀ entry ∈ found, entry.IsLettered → ∀ later,
        (after.resolve later entry.reference = (.ok entry, after) ↔ '/' ∉ entry.path.toList) := by
  have hs := (Database.Reachable.parse hparse).sound
  cases hname : PartialName.parse reference with
  | error error =>
    rw [resolve_of_malformed hname] at h
    cases h
  | ok name =>
    rw [resolve_of_parse hname hload] at h ⊢
    rw [resolveIn_eq_answer hs, answer_eq_ambiguous_iff] at h
    have hsublist : (fitting database name).Sublist database.entries := List.filter_sublist
    refine ⟨fitting database name, h.2, hsublist, h.1, rfl, fun entry hfound hlettered later => ?_⟩
    have hmem := hsublist.subset hfound
    obtain ⟨tokens, _, hdeclares⟩ := Database.declared_of_mem hparse hmem
    obtain ⟨again, hagain, hiff⟩ :=
      exists_fitting_reference_iff hs hmem (hlettered.isPlain hdeclares.symbol_wellFormed)
    rw [resolve_of_parse hagain (load_again hload later), resolveIn_eq_answer hs, Prod.mk.injEq,
      answer_eq_ok_iff, hiff]
    exact and_iff_left rfl

/-- A symbol in a repository with two paths, where it is the `get` of two elements. -/
def getEntry (path element : String) (line : Int) : Entry where
  repository := "lib"
  path := path
  project := "proj"
  folder := "src"
  package := "pkg"
  moduleName := "M"
  extension := "x"
  symbol := ⟨element, "#", "get"⟩
  location := ⟨line, 2, 3⟩

/-- An index with an entry in a path of two words and one in a path of a single word. -/
def twoPaths : String :=
  "lib#a.b\n\tproj#src\n\t\tpkg\n\t\t\tM.x\n\t\t\t\tList#get::1::2::3\n" ++
    "lib#c\n\tproj#src\n\t\tpkg\n\t\t\tM.x\n\t\t\t\tMap#get::4::2::3\n"

theorem isLettered_getEntry {path element : String} (hpath : IsLettered '/' path)
    (helement : IsWord element) (line : Int) : (getEntry path element line).IsLettered where
  repository := by show IsLettered '.' "lib"; decide
  path := hpath
  project := by show IsLettered '.' "proj"; decide
  folder := by show IsLettered '/' "src"; decide
  package := fun _ => by show IsLettered '/' "pkg"; decide
  moduleName := by show IsLettered '.' "M"; decide
  element := helement
  property := fun _ => by show IsWord "get"; decide

theorem entries_twoPaths :
    (Database.parse twoPaths).map Database.entries =
      .ok [getEntry "a/b" "List" 1, getEntry "c" "Map" 4] := by
  cbv

/-- A session that has this index. -/
theorem exists_loaded_twoPaths : ∃ database, Database.parse twoPaths = .ok database ∧
    database.entries = [getEntry "a/b" "List" 1, getEntry "c" "Map" 4] ∧
    (configured "gen").load (fun _ => .ok twoPaths) = (.ok database, loaded "gen" database) := by
  obtain ⟨database, hparse, hentries⟩ := map_eq_ok_iff.mp entries_twoPaths
  exact ⟨database, hparse, hentries, load_configured_iff.mpr ⟨⟨twoPaths, rfl, hparse⟩, rfl⟩⟩

/-- Both entries of this index fit `get`. -/
theorem resolve_get {files : FileReader} (hparse : Database.parse twoPaths = .ok database)
    (hentries : database.entries = [getEntry "a/b" "List" 1, getEntry "c" "Map" 4])
    (hload : session.load files = (.ok database, after)) :
    session.resolve files "get" = (.error (.ambiguous "get"
      [(getEntry "a/b" "List" 1).reference, (getEntry "c" "Map" 4).reference]), after) := by
  have hname : PartialName.parse "get" = .ok ⟨["get"]⟩ := by cbv
  have hfitting : fitting database ⟨["get"]⟩ =
      [getEntry "a/b" "List" 1, getEntry "c" "Map" 4] := by
    rw [fitting, hentries]
    decide +kernel
  rw [resolve_of_parse hname hload, resolveIn_eq_answer (Database.Reachable.parse hparse).sound,
    hfitting]
  rfl

theorem resolve_candidate_twoPaths : ∃ after : Session,
    (configured "gen").resolve (fun _ => .ok twoPaths) "get" = (.error (.ambiguous "get"
      [(getEntry "a/b" "List" 1).reference, (getEntry "c" "Map" 4).reference]), after) ∧
    ∀ later,
      after.resolve later (getEntry "a/b" "List" 1).reference ≠
        (.ok (getEntry "a/b" "List" 1), after) ∧
      after.resolve later (getEntry "c" "Map" 4).reference =
        (.ok (getEntry "c" "Map" 4), after) := by
  obtain ⟨database, hparse, hentries, hload⟩ := exists_loaded_twoPaths
  have hget := resolve_get hparse hentries hload
  obtain ⟨found, _, hsublist, hlength, _, hiff⟩ :=
    resolve_candidate_iff hparse hload (congrArg Prod.fst hget)
  rw [hentries] at hsublist
  obtain rfl := hsublist.eq_of_length_le hlength
  refine ⟨_, hget, fun later => ⟨fun heq => ?_, ?_⟩⟩
  · exact (hiff _ List.mem_cons_self (isLettered_getEntry (by decide) (by decide) 1) later).mp heq
      (by decide)
  · exact (hiff _ (by simp) (isLettered_getEntry (by decide) (by decide) 4) later).mpr (by decide)

/-- A candidate in a path of two words leads to nothing. -/
theorem candidate_not_found : ∃ after : Session,
    (getEntry "a/b" "List" 1).IsLettered ∧ (getEntry "c" "Map" 4).IsLettered ∧
    (configured "gen").resolve (fun _ => .ok twoPaths) "get" = (.error (.ambiguous "get"
      [(getEntry "a/b" "List" 1).reference, (getEntry "c" "Map" 4).reference]), after) ∧
    (after.resolve (fun _ => .ok twoPaths) (getEntry "a/b" "List" 1).reference).1 =
      .error (.notFound (getEntry "a/b" "List" 1).reference) := by
  obtain ⟨database, hparse, hentries, hload⟩ := exists_loaded_twoPaths
  have hname : PartialName.parse (getEntry "a/b" "List" 1).reference =
      .ok ⟨["get", "#", "List", "M", "pkg", "src", "proj", "b", "a", "lib"]⟩ := by
    cbv
  have hfitting : fitting database
      ⟨["get", "#", "List", "M", "pkg", "src", "proj", "b", "a", "lib"]⟩ = [] := by
    rw [fitting, hentries]
    decide +kernel
  refine ⟨_, isLettered_getEntry (by decide) (by decide) 1,
    isLettered_getEntry (by decide) (by decide) 4, resolve_get hparse hentries hload, ?_⟩
  rw [resolve_of_parse hname (load_again hload _),
    resolveIn_eq_answer (Database.Reachable.parse hparse).sound, hfitting]
  rfl

end Session

end SymbolIndex
