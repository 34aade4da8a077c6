import SymbolIndex.Trie
import SymbolIndex.PartialName

/-!
# The database of a source index

The entries in the order they came, and a trie in which each stands under its full
name, the most specific segment first: branches for all segments but the last,
which is the repository, and a leaf for that.

An entry that would bring no new branch is a duplicate; so two entries that differ
in the repository alone do not go together.
-/

namespace SymbolIndex

/-- An entry and its number, counted from zero in the order of insertion. -/
structure Record where
  id : Nat
  entry : Entry
  deriving DecidableEq, Repr

structure Database where
  /-- All records, in the order of insertion. -/
  records : Array Record
  /-- The records under the full names of their entries. -/
  trie : Trie String Record
  deriving Repr

/-- An entry that the database does not take, and why. -/
structure InsertError where
  rejection : Rejection
  entry : Entry
  deriving DecidableEq, Repr

def InsertError.message (error : InsertError) : String :=
  match error.rejection with
  | .duplicate => "entry already in the source index: " ++ error.entry.display
  | .collision => "entry collides with an existing entry: " ++ error.entry.display

def LookupError.message : LookupError → String
  | absent => "not in the source index"
  | ambiguous => "ambiguous, more than one entry matches"

namespace Database

def empty : Database := ⟨#[], .empty⟩

def size (database : Database) : Nat := database.records.size

def entries (database : Database) : List Entry :=
  database.records.toList.map (·.entry)

/-- Adds an entry and gives it the next number.  An entry that is rejected leaves the database as
it was, since its path is checked before anything is changed. -/
def add (database : Database) (entry : Entry) : Except InsertError Nat × Database :=
  match database.trie.check entry.hierarchy.tail.reverse with
  | .error rejection => (.error ⟨rejection, entry⟩, database)
  | .ok () =>
    match entry.hierarchy with
    | [] => (.error ⟨.duplicate, entry⟩, database)
    | key :: path =>
      let record : Record := ⟨database.size, entry⟩
      match database.trie.plant key record path.reverse with
      | (.error rejection, trie) => (.error ⟨rejection, entry⟩, { database with trie })
      | (.ok (), trie) => (.ok record.id, ⟨database.records.push record, trie⟩)

/-- The database with one more entry, if it takes it. -/
def insert (database : Database) (entry : Entry) : Except InsertError Database :=
  match database.add entry with
  | (.ok _, after) => .ok after
  | (.error error, _) => .error error

def insertAll (database : Database) : List Entry → Database × Option InsertError
  | [] => (database, none)
  | entry :: rest =>
    match database.add entry with
    | (.ok _, after) => after.insertAll rest
    | (.error error, after) => (after, some error)

/-- Adds the entries of another database up to the first that is rejected. -/
def extend (database other : Database) : Database × Option InsertError :=
  database.insertAll other.entries

/-- The one record that a name refers to. -/
def lookup (database : Database) (name : PartialName) : Except LookupError Record :=
  database.trie.lookup name.segments

/-- All records that a name could refer to, in the order of insertion. -/
def candidates (database : Database) (name : PartialName) : List Record :=
  (database.trie.find name.segments).mergeSort fun a b => a.id ≤ b.id

end Database

end SymbolIndex
