import SymbolIndex.Document

/-!
# Index files

Reading a file is a function from paths, so that all that is built on it can be
followed without a file system.
-/

namespace SymbolIndex

/-- Why a file cannot be read as text. -/
inductive ReadFailure where
  | notFound
  /-- Something on the way to the file is no directory. -/
  | notDirectory
  | isDirectory
  | notText
  /-- The system gives another reason. -/
  | other (reason : String)
  deriving DecidableEq, Repr

def ReadFailure.message : ReadFailure → String
  | notFound => "No such file or directory (os error 2)"
  | notDirectory => "Not a directory (os error 20)"
  | isDirectory => "Is a directory (os error 21)"
  | notText => "stream did not contain valid UTF-8"
  | other reason => reason

abbrev FileReader := String → Except ReadFailure String

/-- Why there is no database from a file. -/
inductive LoadError where
  | unreadable (path : String) (failure : ReadFailure)
  | malformed (path : String) (error : ParseError)
  deriving DecidableEq, Repr

def LoadError.message : LoadError → String
  | unreadable path failure => s!"failed to read {path}: {failure.message}"
  | malformed path error => s!"{path}:{error.message}"

def Database.load (files : FileReader) (path : String) : Except LoadError Database :=
  match files path with
  | .error failure => .error (.unreadable path failure)
  | .ok source => (Database.parse source).mapError (.malformed path)

theorem Database.load_eq_ok_iff {files : FileReader} {path : String} {database : Database} :
    Database.load files path = .ok database ↔
      ∃ source, files path = .ok source ∧ Database.parse source = .ok database := by
  unfold Database.load
  split
  · simp_all
  · rename_i source h
    constructor
    · intro hmap
      cases hp : Database.parse source with
      | error e => rw [hp] at hmap; cases hmap
      | ok d => rw [hp] at hmap; cases hmap; exact ⟨source, h, hp⟩
    · rintro ⟨s, hs, hp⟩
      obtain rfl : source = s := by simpa [h] using hs
      rw [hp]
      rfl

end SymbolIndex
