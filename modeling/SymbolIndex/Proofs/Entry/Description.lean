import SymbolIndex.Entry.Canonical
import SymbolIndex.Proofs.Bind
import SymbolIndex.Proofs.Name.Quoting

/-!
# The same entry from names and from a canonical text

A document gives an entry by the names that enclose it, and a canonical text gives it by its fields.
A `Description` holds the parts of an entry as a document writes them, with dots in the path, in the
folder and in the package; either text can be written from it.

Names are cut at the first `#` or `.`, the fields at colons, the module of a field at its last slash
behind that, and its symbol at the first mark.  So it is enough that no part in front of such a cut
has the character in it: what is behind the cut may hold it.

* `ofNames_names`, `ofCanonical_canonical`: what either text is read as.
* `ofNames_eq_ok_iff`: names that are read are those of a description.
* `ofNames_eq_ofCanonical`: they are read as the same entry.
-/

namespace SymbolIndex

/-- The parts of an entry, with dots in the path, in the folder and in the package. -/
structure Description where
  repository : String
  path : String
  project : String
  folder : String
  package : String
  moduleName : String
  extension : String
  symbol : SymbolName
  location : Location
  trueOrigin : Option Origin

/-- The names of a true origin in the order they are written. -/
def Origin.names (origin : Origin) : List String :=
  [origin.repository, origin.path, origin.project, origin.folder]

/-- Does the number fit in a signed word of 32 bits? -/
def IsWordValue (n : Int) : Prop := Decimal.minWord ≤ n ∧ n ≤ Decimal.maxWord

/-- None of the characters is in the text. -/
def Omits (chars : List Char) (text : String) : Prop := ∀ c ∈ chars, c ∉ text.toList

instance (n : Int) : Decidable (IsWordValue n) :=
  inferInstanceAs (Decidable (Decimal.minWord ≤ n ∧ n ≤ Decimal.maxWord))

instance (chars : List Char) (text : String) : Decidable (Omits chars text) :=
  List.decidableBAll (fun c => c ∉ text.toList) chars

namespace Description

/-- A path as canonical texts and entries have it. -/
def slashes (dotted : String) : String := replaceChar '.' '/' dotted

/-- The names that enclose the entry in a document, the innermost first. -/
def names (d : Description) : List String :=
  [d.symbol.element, d.moduleName ++ "." ++ d.extension, d.package, d.project ++ "#" ++ d.folder,
    d.repository ++ "#" ++ d.path]

/-- What the leaf line declares. -/
def declaration (d : Description) : Declaration :=
  ⟨d.symbol.delimiter, d.symbol.property, d.location, d.trueOrigin⟩

/-- The module behind its package, if that is not empty. -/
def module (d : Description) : String :=
  (if d.package = "" then "" else slashes d.package ++ "/") ++ d.moduleName

/-- The fields of the location and of the true origin. -/
def placeFields (d : Description) : List String :=
  [toString d.location.line, toString d.location.offsetStart, toString d.location.offsetEnd] ++
    d.trueOrigin.elim [] Origin.names

/-- The fields of the canonical text. -/
def fields (d : Description) : List String :=
  [d.repository, slashes d.path, d.project, slashes d.folder, d.module ++ "." ++ d.extension,
    d.symbol.display] ++ d.placeFields

/-- The canonical text. -/
def canonical (d : Description) : String := ":".intercalate d.fields

/-- The entry that is described. -/
def entry (d : Description) : Entry where
  repository := d.repository
  path := slashes d.path
  project := d.project
  folder := slashes d.folder
  package := slashes d.package
  moduleName := d.moduleName
  extension := d.extension
  symbol := d.symbol
  location := d.location
  trueOrigin := d.trueOrigin

/-- The names of the description are cut where its parts end. -/
structure CutsNames (d : Description) : Prop where
  repository : '#' ∉ d.repository.toList
  project : '#' ∉ d.project.toList
  moduleName : '.' ∉ d.moduleName.toList

/-- No part of the description holds a character at which another one would be cut off. -/
structure IsSeparable (d : Description) : Prop where
  repository : Omits [':', '#'] d.repository
  path : Omits [':'] d.path
  project : Omits [':', '#'] d.project
  folder : Omits [':'] d.folder
  package : Omits [':'] d.package
  moduleName : Omits [':', '.', '/'] d.moduleName
  extension : Omits [':'] d.extension
  element : Omits [':', '"', '#', '@'] d.symbol.element
  delimiter : d.symbol.delimiter ∈ "" :: SymbolName.delimiters
  property : Omits [':', '"'] d.symbol.property
  no_property : d.symbol.delimiter = "" → d.symbol.property = ""
  no_accessor : d.symbol.delimiter = "#" ∨ d.symbol.delimiter = "@" →
    d.symbol.property.toList.head?.any SymbolName.isAccessor = false
  line : IsWordValue d.location.line
  offsetStart : IsWordValue d.location.offsetStart
  offsetEnd : IsWordValue d.location.offsetEnd
  trueOrigin : ∀ origin ∈ d.trueOrigin, ∀ name ∈ origin.names, Omits [':'] name

variable {d : Description}

/-! ### Names -/

/-- **The names of a description are read as its entry**, whatever encloses them. -/
theorem ofNames_names (h : d.CutsNames) (more : List String) :
    Entry.ofNames (d.names ++ more) d.declaration = .ok d.entry := by
  have hrepository : Entry.cutName '#' (d.repository ++ "#" ++ d.path) =
      .ok (d.repository, d.path) := Entry.cutName_eq_ok_iff.mpr ⟨by simp, h.repository⟩
  have hproject : Entry.cutName '#' (d.project ++ "#" ++ d.folder) = .ok (d.project, d.folder) :=
    Entry.cutName_eq_ok_iff.mpr ⟨by simp, h.project⟩
  have hmodule : Entry.cutName '.' (d.moduleName ++ "." ++ d.extension) =
      .ok (d.moduleName, d.extension) := Entry.cutName_eq_ok_iff.mpr ⟨by simp, h.moduleName⟩
  simp only [names, List.cons_append, List.nil_append, Entry.ofNames, hrepository, hproject,
    hmodule]
  rfl

/-- **Whatever is made from names is described**: the names are those of a description, and the
names behind them play no part. -/
theorem ofNames_eq_ok_iff {names : List String} {declaration : Declaration} {entry : Entry} :
    Entry.ofNames names declaration = .ok entry ↔
      ∃ d : Description, d.CutsNames ∧ d.names <+: names ∧ d.declaration = declaration ∧
        d.entry = entry := by
  constructor
  · intro h
    unfold Entry.ofNames at h
    split at h
    · rename_i element moduleFile package projectAndFolder repositoryAndPath more
      obtain ⟨⟨repository, path⟩, hrepository, h⟩ := bind_eq_ok_iff.mp h
      obtain ⟨⟨project, folder⟩, hproject, h⟩ := bind_eq_ok_iff.mp h
      obtain ⟨⟨moduleName, extension⟩, hmodule, h⟩ := bind_eq_ok_iff.mp h
      cases h
      obtain ⟨hrepository, hrepositoryCut⟩ := Entry.cutName_eq_ok_iff.mp hrepository
      obtain ⟨hproject, hprojectCut⟩ := Entry.cutName_eq_ok_iff.mp hproject
      obtain ⟨hmodule, hmoduleCut⟩ := Entry.cutName_eq_ok_iff.mp hmodule
      refine ⟨⟨repository, path, project, folder, package, moduleName, extension,
        ⟨element, declaration.delimiter, declaration.property⟩, declaration.location,
        declaration.trueOrigin⟩, ⟨hrepositoryCut, hprojectCut, hmoduleCut⟩, ⟨more, ?_⟩, rfl, rfl⟩
      have hrepository : repositoryAndPath = repository ++ "#" ++ path :=
        String.toList_inj.mp (by simp [hrepository])
      have hproject : projectAndFolder = project ++ "#" ++ folder :=
        String.toList_inj.mp (by simp [hproject])
      have hmodule : moduleFile = moduleName ++ "." ++ extension :=
        String.toList_inj.mp (by simp [hmodule])
      rw [hrepository, hproject, hmodule]
      rfl
    · cases h
  · rintro ⟨d, hcuts, ⟨more, rfl⟩, rfl, rfl⟩
    exact ofNames_names hcuts more

/-! ### The canonical text -/

theorem not_mem_slashes {c : Char} {dotted : String} (h : c ∉ dotted.toList) (hc : c ≠ '/') :
    c ∉ (slashes dotted).toList :=
  not_mem_replaceChar h hc

theorem slashes_eq_empty_iff {dotted : String} : slashes dotted = "" ↔ dotted = "" :=
  replaceChar_eq_empty_iff

theorem not_mem_module {c : Char} (hpackage : c ∉ (slashes d.package).toList)
    (hname : c ∉ d.moduleName.toList) (hc : c ≠ '/') : c ∉ d.module.toList := by
  rw [module]
  split
  · simpa using hname
  · simp [hpackage, hname, hc]

theorem colon_not_mem_toString (n : Int) : ':' ∉ (toString n).toList := by
  intro h
  rcases Decimal.isDigit_of_mem_toString h with hdigit | heq
  · exact absurd hdigit (by decide)
  · exact absurd heq (by decide)

/-- A written number stands without blanks around it. -/
theorem readNumber_toString {n : Int} (h : IsWordValue n) :
    Entry.readNumber (toString n) = .ok n := by
  have hblank : ∀ c ∈ (toString n).toList, isBlank c = false := by
    intro c hc
    rcases Decimal.isDigit_of_mem_toString hc with hdigit | rfl
    · exact isBlank_of_isDigit hdigit
    · decide
  rw [Entry.readNumber, trimBoth_eq_self (fun c hc => hblank c (List.mem_of_mem_head? hc))
    (fun c hc => hblank c (List.mem_of_mem_getLast? hc)), Decimal.word?_toString h]

namespace IsSeparable

variable (h : d.IsSeparable)

include h

theorem cutsNames : d.CutsNames where
  repository := h.repository '#' (by decide)
  project := h.project '#' (by decide)
  moduleName := h.moduleName '.' (by decide)

theorem colon_not_mem_fields : ∀ field ∈ d.fields, ':' ∉ field.toList := by
  have hmodule : ':' ∉ (d.module ++ "." ++ d.extension).toList := by
    have hfront := not_mem_module (not_mem_slashes (h.package ':' (by decide)) (by decide))
      (h.moduleName ':' (by decide)) (by decide)
    have hback := h.extension ':' (by decide)
    simp [hfront, hback]
  have hsymbol : ':' ∉ d.symbol.display.toList := by
    have helement := h.element ':' (by decide)
    have hdelimiter : ∀ delimiter ∈ "" :: SymbolName.delimiters, ':' ∉ delimiter.toList := by
      decide +kernel
    have hproperty := h.property ':' (by decide)
    simp [SymbolName.toList_display, helement, hdelimiter _ h.delimiter, hproperty]
  have horigin : ∀ field ∈ d.trueOrigin.elim [] Origin.names, ':' ∉ field.toList := by
    cases horigin : d.trueOrigin with
    | none => exact List.forall_mem_nil _
    | some origin => exact fun name hname => h.trueOrigin origin horigin name hname ':' (by decide)
  rw [fields, placeFields]
  simp only [List.forall_mem_append, List.forall_mem_cons]
  exact ⟨⟨h.repository ':' (by decide), not_mem_slashes (h.path ':' (by decide)) (by decide),
    h.project ':' (by decide), not_mem_slashes (h.folder ':' (by decide)) (by decide), hmodule,
    hsymbol, List.forall_mem_nil _⟩,
    ⟨colon_not_mem_toString _, colon_not_mem_toString _, colon_not_mem_toString _,
      List.forall_mem_nil _⟩, horigin⟩

theorem pieces_canonical : pieces ':' d.canonical = d.fields :=
  pieces_intercalate h.colon_not_mem_fields (List.cons_ne_nil _ _)

theorem cutName_module :
    Entry.cutName '.' (d.module ++ "." ++ d.extension) = .ok (d.module, d.extension) := by
  refine Entry.cutName_eq_ok_iff.mpr ⟨by simp, ?_⟩
  exact not_mem_module (not_mem_replaceChar_old (by decide)) (h.moduleName '.' (by decide))
    (by decide)

theorem cutModule_module : Entry.cutModule d.module = (slashes d.package, d.moduleName) := by
  have hname : '/' ∉ d.moduleName.toList := h.moduleName '/' (by decide)
  by_cases hpackage : d.package = ""
  · have hmodule : d.module = d.moduleName := by
      rw [module, if_pos hpackage, String.empty_append]
    have hcut : cutLast '/' d.moduleName.toList = none := cutLast_eq_none_iff.mpr hname
    rw [hmodule, Entry.cutModule, hcut, slashes_eq_empty_iff.mpr hpackage]
  · have hcut : cutLast '/' d.module.toList =
        some ((slashes d.package).toList, d.moduleName.toList) := by
      refine cutLast_eq_some_iff.mpr ⟨?_, hname⟩
      rw [module, if_neg hpackage]
      simp
    rw [Entry.cutModule, hcut]
    simp only [String.ofList_toList]

theorem ofQuoted_symbol : SymbolName.ofQuoted d.symbol.display = d.symbol := by
  refine SymbolName.ofQuoted_display ?_ (fun c hc => ⟨?_, ?_⟩) (h.property '"' (by decide))
    h.no_accessor
  · rcases List.mem_cons.mp h.delimiter with hnone | hdelimiter
    · exact .inl ⟨hnone, h.no_property hnone⟩
    · exact .inr hdelimiter
  · rintro rfl
    exact h.element '"' (by decide) hc
  · simp only [SymbolName.isMark, Bool.or_eq_false_iff, decide_eq_false_iff_not]
    constructor <;> rintro rfl
    · exact h.element '#' (by decide) hc
    · exact h.element '@' (by decide) hc

theorem readPlace_placeFields (canonical : String) :
    Entry.readPlace canonical d.placeFields = .ok (d.location, d.trueOrigin) := by
  rw [placeFields]
  refine bind_eq_ok_iff.mpr ⟨_, readNumber_toString h.line, bind_eq_ok_iff.mpr
    ⟨_, readNumber_toString h.offsetStart, bind_eq_ok_iff.mpr
      ⟨_, readNumber_toString h.offsetEnd, ?_⟩⟩⟩
  cases d.trueOrigin with
  | none => rfl
  | some origin => rfl

/-- **The canonical text of a description is read as its entry.** -/
theorem ofCanonical_canonical : Entry.ofCanonical d.canonical = .ok d.entry := by
  rw [Entry.ofCanonical, h.pieces_canonical, fields]
  refine bind_eq_ok_iff.mpr ⟨_, h.cutName_module, bind_eq_ok_iff.mpr
    ⟨_, h.readPlace_placeFields d.canonical, ?_⟩⟩
  show Except.ok { d.entry with
    package := (Entry.cutModule d.module).1
    moduleName := (Entry.cutModule d.module).2
    symbol := SymbolName.ofQuoted d.symbol.display } = Except.ok d.entry
  rw [h.cutModule_module, h.ofQuoted_symbol]
  rfl

end IsSeparable

/-- **Names and canonical texts agree.**  From a description whose parts can be told from one
another, both are read, and as the same entry. -/
theorem ofNames_eq_ofCanonical (d : Description) (h : d.IsSeparable) :
    Entry.ofNames d.names d.declaration = .ok d.entry ∧
      Entry.ofCanonical d.canonical = .ok d.entry := by
  have hnames := ofNames_names h.cutsNames []
  rw [List.append_nil] at hnames
  exact ⟨hnames, h.ofCanonical_canonical⟩

/-- An overloaded setter in a module without a package. -/
def overload : Description where
  repository := "r"
  path := ".a.b"
  project := "p.q"
  folder := "src.main."
  package := ""
  moduleName := "M"
  extension := "x.y"
  symbol := ⟨"Map", "#>", "<at"⟩
  location := ⟨-1, 0, 2147483647⟩
  trueOrigin := some ⟨"o", "#", "", "f.g"⟩

/-- Its dots stay in the project, in the extension and in the true origin. -/
theorem ofNames_eq_ofCanonical_overload :
    overload.IsSeparable ∧ ∃ entry,
      Entry.ofNames ["Map", "M.x.y", "", "p.q#src.main.", "r#.a.b"]
        ⟨"#>", "<at", ⟨-1, 0, 2147483647⟩, some ⟨"o", "#", "", "f.g"⟩⟩ = .ok entry ∧
      Entry.ofCanonical "r:/a/b:p.q:src/main/:M.x.y:Map#><at:-1:0:2147483647:o:#::f.g" =
        .ok entry ∧
      entry.trueFolder = "f/g" := by
  have hseparable : overload.IsSeparable := by
    constructor
    all_goals decide +kernel
  have hcanonical : overload.canonical =
      "r:/a/b:p.q:src/main/:M.x.y:Map#><at:-1:0:2147483647:o:#::f.g" := by
    decide +kernel
  have hagree := ofNames_eq_ofCanonical overload hseparable
  rw [hcanonical] at hagree
  exact ⟨hseparable, overload.entry, hagree.1, hagree.2, by decide +kernel⟩

end Description

end SymbolIndex
