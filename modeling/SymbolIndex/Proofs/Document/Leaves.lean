import SymbolIndex.Proofs.Document.Declarations
import SymbolIndex.Proofs.Document.Shifting
import SymbolIndex.Proofs.Database.Growth

/-!
# The leaves of a document

What a document adds to a database are its leaves, in their order: each has an entry, made
from its own name and the names around it, and the place of its name.  `leaves` finds them
without a database.

A document that can be read from the empty outline can be read behind another one.  The
names that are there before do no harm, since its first name cuts them all off: a line
only ever keeps names of its own document, and so the same entries are made.  What can go
wrong is that one of them is a duplicate there.

* `foldlM_read_eq`: reading such a document behind another one is placing its leaves.
* `foldlM_place_eq_ok_iff`: placing leaves is adding their entries.
-/

namespace SymbolIndex

-- Entries are made and added in the same way everywhere, so neither is looked into here.
attribute [local irreducible] Entry.ofNames Database.add

/-- A leaf of a document. -/
structure Leaf where
  /-- Where its name begins. -/
  position : Position
  entry : Entry
  deriving DecidableEq, Repr

def Leaf.shifted (f : Position → Position) (leaf : Leaf) : Leaf :=
  { leaf with position := f leaf.position }

namespace Line

/-- The names down to a line, below the given names. -/
def inner (names : List String) (line : Line) : List String :=
  names.take line.depth ++ [line.content.name]

/-- The leaf that a line is, below the given names. -/
def leaf? (names : List String) (line : Line) : Option Leaf :=
  match line.content with
  | .group _ => none
  | .leaf symbol location trueOrigin =>
    (Entry.ofNames (line.inner names).reverse
      ⟨symbol.delimiter, symbol.property, location, trueOrigin⟩).toOption.map (⟨line.position, ·⟩)

theorem leaf?_leaf (names : List String) (depth : Nat) (position : Position) (symbol : SymbolName)
    (location : Location) (trueOrigin : Option Origin) :
    leaf? names ⟨depth, position, .leaf symbol location trueOrigin⟩ =
      (Entry.ofNames (names.take depth ++ [symbol.element]).reverse
        ⟨symbol.delimiter, symbol.property, location, trueOrigin⟩).toOption.map (⟨position, ·⟩) :=
  rfl

theorem leaf?_shifted (f : Position → Position) (names : List String) (line : Line) :
    (line.shifted f).leaf? names = (line.leaf? names).map (Leaf.shifted f) := by
  obtain ⟨depth, position, content⟩ := line
  cases content with
  | group name => rfl
  | leaf symbol location trueOrigin =>
    rw [shifted, leaf?_leaf, leaf?_leaf, Option.map_map]
    rfl

end Line

namespace TokenLine

/-- The leaves of lines below the given names. -/
def leavesBelow (names : List String) : List TokenLine → List Leaf
  | [] => []
  | tokens :: rest =>
    match tokens.read with
    | .ok (some line) => (line.leaf? names).toList ++ leavesBelow (line.inner names) rest
    | _ => leavesBelow names rest

theorem leavesBelow_of_blank {tokens : TokenLine} (h : tokens.read = .ok none)
    (names : List String) (rest : List TokenLine) :
    leavesBelow names (tokens :: rest) = leavesBelow names rest := by
  rw [leavesBelow, h]

theorem leavesBelow_of_line {tokens : TokenLine} {line : Line} (h : tokens.read = .ok (some line))
    (names : List String) (rest : List TokenLine) :
    leavesBelow names (tokens :: rest) =
      (line.leaf? names).toList ++ leavesBelow (line.inner names) rest := by
  rw [leavesBelow, h]

theorem leavesBelow_shifted (f : Position → Position) (names : List String)
    (lines : List TokenLine) :
    leavesBelow names (lines.map (shifted f)) = (leavesBelow names lines).map (Leaf.shifted f) := by
  induction lines generalizing names with
  | nil => rfl
  | cons tokens lines ih =>
    have hread := tokens.read_shifted (f := f)
    rw [List.map_cons]
    cases hline : tokens.read with
    | error error =>
      rw [hline] at hread
      rw [leavesBelow, hread, leavesBelow, hline]
      exact ih names
    | ok line? =>
      rw [hline] at hread
      cases line? with
      | none =>
        rw [leavesBelow_of_blank hline, leavesBelow_of_blank hread]
        exact ih names
      | some line =>
        rw [leavesBelow_of_line hline, leavesBelow_of_line hread, List.map_append,
          ← Option.toList_map, ← line.leaf?_shifted, ← ih]
        rfl

end TokenLine

/-- The leaves of a document. -/
def leaves (source : String) : List Leaf :=
  TokenLine.leavesBelow [] (TokenLine.ofDocument source)

/-! ### Placing leaves -/

namespace Database

/-- Adds the entry of a leaf. -/
def place (database : Database) (leaf : Leaf) : Except ParseError Database :=
  (database.insert leaf.entry).mapError fun _ => ⟨leaf.position, .duplicateEntry⟩

theorem place_of_ok {database after : Database} {leaf : Leaf} {id : Nat}
    (h : database.add leaf.entry = (.ok id, after)) : database.place leaf = .ok after := by
  rw [place, insert, h]
  rfl

theorem place_of_error {database after : Database} {leaf : Leaf} {error : InsertError}
    (h : database.add leaf.entry = (.error error, after)) :
    database.place leaf = .error ⟨leaf.position, .duplicateEntry⟩ := by
  rw [place, insert, h]
  rfl

/-- Placing leaves is adding their entries, if none is rejected. -/
theorem foldlM_place_of_insertAll {database after : Database} {leaves : List Leaf}
    (h : database.insertAll (leaves.map (·.entry)) = (after, none)) :
    leaves.foldlM place database = .ok after := by
  induction leaves generalizing database with
  | nil =>
    cases h
    rfl
  | cons leaf leaves ih =>
    rw [List.map_cons] at h
    rcases hadd : database.add leaf.entry with ⟨error | id, middle⟩
    · rw [insertAll_cons_of_error hadd] at h
      cases h
    · rw [insertAll_cons_of_ok hadd] at h
      rw [List.foldlM_cons, place_of_ok hadd]
      exact ih h

/-- The first leaf whose entry is rejected is where placing leaves ends. -/
theorem foldlM_place_of_insertAll_error {database after : Database} {leaves : List Leaf}
    {error : InsertError} (h : database.insertAll (leaves.map (·.entry)) = (after, some error)) :
    ∃ front leaf back, leaves = front ++ leaf :: back ∧
      database.insertAll (front.map (·.entry)) = (after, none) ∧
      after.add leaf.entry = (.error error, after) ∧
      leaves.foldlM place database = .error ⟨leaf.position, .duplicateEntry⟩ := by
  obtain ⟨entries, entry, entries', hentries, hfront, hadd⟩ := exists_of_insertAll h
  obtain ⟨front, behind, rfl, rfl, hbehind⟩ := List.map_eq_append_iff.mp hentries
  obtain ⟨leaf, back, rfl, rfl, rfl⟩ := List.map_eq_cons_iff.mp hbehind
  refine ⟨front, leaf, back, rfl, hfront, hadd, ?_⟩
  rw [List.foldlM_append, foldlM_place_of_insertAll hfront]
  show (leaf :: back).foldlM place after = _
  rw [List.foldlM_cons, place_of_error hadd]
  rfl

theorem foldlM_place_eq_ok_iff {database after : Database} {leaves : List Leaf} :
    leaves.foldlM place database = .ok after ↔
      database.insertAll (leaves.map (·.entry)) = (after, none) := by
  refine ⟨fun hplace => ?_, foldlM_place_of_insertAll⟩
  rcases hinsert : database.insertAll (leaves.map (·.entry)) with ⟨reached, _ | error⟩
  · rw [foldlM_place_of_insertAll hinsert] at hplace
    cases hplace
    exact hinsert
  · obtain ⟨_, _, _, _, _, _, herror⟩ := foldlM_place_of_insertAll_error hinsert
    rw [herror] at hplace
    cases hplace

end Database

/-! ### Reading is placing leaves -/

namespace Outline

variable {outline after : Outline} {names : List String}

/-- More names do not matter where a line finds its place without them. -/
theorem enter_of_isPrefix {depth : Nat} {name : String} (h : outline.enter depth name = .ok after)
    (hnames : outline.names <+: names) (database : Database) :
    enter ⟨names, database⟩ depth name = .ok ⟨outline.names.take depth ++ [name], database⟩ := by
  obtain ⟨more, rfl⟩ := hnames
  unfold enter at h ⊢
  split at h
  · cases h
  · rename_i hdepth
    have hle : depth ≤ outline.names.length := by omega
    rw [if_neg (by simp only [List.length_append]; omega)]
    simp only [List.take_append_of_le_length hle]

theorem declare_eq_place {declaration : Declaration} {entry : Entry}
    (h : Entry.ofNames names.reverse declaration = .ok entry) (database : Database)
    (position : Position) :
    (declare ⟨names, database⟩ declaration).mapError (⟨position, ·⟩) =
      (database.place ⟨position, entry⟩).map (⟨names, ·⟩) := by
  rw [declare, h, Database.place]
  dsimp only
  cases database.insert entry <;> rfl

/-- **A line that is taken is taken with more names and with another database**, but its entry may
be a duplicate there. -/
theorem add_eq_place {line : Line} (h : outline.add line = .ok after)
    (hnames : outline.names <+: names) (database : Database) :
    after.names = line.inner outline.names ∧
      (add ⟨names, database⟩ line).mapError (⟨line.position, ·⟩) =
        ((line.leaf? outline.names).toList.foldlM Database.place database).map
          (⟨line.inner outline.names, ·⟩) := by
  obtain ⟨depth, position, content⟩ := line
  obtain ⟨entered, henter, hcontent⟩ := bind_eq_ok_iff.mp h
  have hbehind := enter_of_isPrefix henter hnames database
  obtain rfl := enter_eq_ok henter
  rw [add, hbehind]
  cases content with
  | group name =>
    cases hcontent
    exact ⟨rfl, rfl⟩
  | leaf symbol location trueOrigin =>
    obtain ⟨entry, hentry, _, hnames⟩ := declare_eq_ok hcontent
    have hinner : Entry.ofNames (outline.names.take depth ++ [symbol.element]).reverse
        ⟨symbol.delimiter, symbol.property, location, trueOrigin⟩ = .ok entry := hentry
    refine ⟨hnames, ?_⟩
    rw [Line.leaf?_leaf, hinner]
    show (declare ⟨_, database⟩ _).mapError _ = _
    rw [declare_eq_place hentry]
    show _ = (database.place ⟨position, entry⟩ >>= pure).map _
    rw [bind_pure]
    rfl

/-- **A document that the empty outline takes is taken behind another one by placing its leaves.**
The names may be more than the document has seen. -/
theorem foldlM_read_eq {lines : List TokenLine} (h : lines.foldlM read outline = .ok after)
    (hnames : outline.names <+: names) (database : Database) :
    (lines.foldlM read ⟨names, database⟩).map (·.database) =
      (TokenLine.leavesBelow outline.names lines).foldlM Database.place database := by
  induction lines generalizing outline names database with
  | nil => rfl
  | cons tokens lines ih =>
    obtain ⟨middle, hstep, hrest⟩ := foldlM_cons_eq_ok_iff.mp h
    obtain ⟨line?, hread, hline⟩ := bind_eq_ok_iff.mp hstep
    rw [List.foldlM_cons, read, hread]
    cases line? with
    | none =>
      cases hline
      rw [TokenLine.leavesBelow_of_blank hread]
      exact ih hrest hnames database
    | some line =>
      obtain ⟨hafter, hadd⟩ := add_eq_place (mapError_eq_ok_iff.mp hline) hnames database
      rw [TokenLine.leavesBelow_of_line hread, List.foldlM_append, ← hafter]
      show ((add ⟨names, database⟩ line).mapError _ >>= _).map _ = _
      rw [hadd]
      cases (line.leaf? outline.names).toList.foldlM Database.place database with
      | error error => rfl
      | ok placed =>
        -- Behind a line, both outlines have the names down to it, and no others.
        rw [← hafter]
        exact ih hrest (List.prefix_refl _) placed

end Outline

end SymbolIndex
