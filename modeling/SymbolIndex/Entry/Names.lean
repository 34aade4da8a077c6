import SymbolIndex.Entry
import SymbolIndex.Entry.Error

/-!
# Entries from enclosing names

In an index document the lines around a symbol name it: its module's file, the
package, the project with its source folder behind a `#`, and the repository with
the path behind a `#`.  Paths, folders and packages are written with dots there.

* `ofNames_eq_error_incomplete_iff`: what is missing is noticed first.
-/

namespace SymbolIndex

/-- What a leaf line declares of a symbol besides the names. -/
structure Declaration where
  delimiter : String := ""
  property : String := ""
  location : Location := .absent
  trueOrigin : Option Origin := none
  deriving DecidableEq, Repr

namespace Entry

/-- The number of enclosing names that an entry needs. -/
def namesNeeded : Nat := 5

/-- The parts of a name around the first `separator`. -/
def cutName (separator : Char) (name : String) : Except EntryError (String × String) :=
  match cutFirst separator name.toList with
  | some (front, back) => .ok (.ofList front, .ofList back)
  | none => .error (.missingSeparator name separator)

/-- Makes an entry from the names that enclose it, the innermost first, and its declaration. -/
def ofNames (names : List String) (declaration : Declaration) : Except EntryError Entry :=
  match names with
  | element :: moduleFile :: package :: projectAndFolder :: repositoryAndPath :: _ => do
    let (repository, path) ← cutName '#' repositoryAndPath
    let (project, folder) ← cutName '#' projectAndFolder
    let (moduleName, extension) ← cutName '.' moduleFile
    return {
      repository, project, moduleName, extension
      path := replaceChar '.' '/' path
      folder := replaceChar '.' '/' folder
      package := replaceChar '.' '/' package
      symbol := ⟨element, declaration.delimiter, declaration.property⟩
      location := declaration.location
      trueOrigin := declaration.trueOrigin }
  | _ => .error (.incomplete namesNeeded names.length)

theorem cutName_eq_ok_iff {separator : Char} {name front back : String} :
    cutName separator name = .ok (front, back) ↔
      name.toList = front.toList ++ separator :: back.toList ∧ separator ∉ front.toList := by
  unfold cutName
  split
  · rename_i f b h
    rw [cutFirst_eq_some_iff] at h
    constructor
    · intro he
      obtain ⟨rfl, rfl⟩ : String.ofList f = front ∧ String.ofList b = back := by simpa using he
      simpa using h
    · intro he
      have := h.1 ▸ cutFirst_eq_some_iff.2 he
      rw [← h.1, cutFirst_eq_some_iff.2 h] at this
      simp_all
  · rename_i h
    rw [cutFirst_eq_none_iff] at h
    simp only [reduceCtorEq, false_iff, not_and]
    intro he
    simp [he] at h

theorem cutName_ne_incomplete (separator : Char) (name : String) (expected found : Nat) :
    cutName separator name ≠ .error (.incomplete expected found) := by
  unfold cutName
  split <;> simp

/-- Missing names are noticed first, before what is wrong with those there are. -/
theorem ofNames_eq_error_incomplete_iff {names : List String} {declaration : Declaration}
    {expected found : Nat} :
    ofNames names declaration = .error (.incomplete expected found) ↔
      names.length < namesNeeded ∧ expected = namesNeeded ∧ found = names.length := by
  unfold ofNames
  split
  · rename_i element moduleFile package project repository more
    constructor
    · intro h
      simp only [bind, Except.bind] at h
      split at h
      · rename_i he; cases h; exact absurd he (cutName_ne_incomplete _ _ _ _)
      · split at h
        · rename_i he; cases h; exact absurd he (cutName_ne_incomplete _ _ _ _)
        · split at h
          · rename_i he; cases h; exact absurd he (cutName_ne_incomplete _ _ _ _)
          · cases h
    · intro h
      simp only [List.length_cons, namesNeeded] at h
      omega
  · rename_i h
    have hlen : names.length < namesNeeded := by
      match names with
      | [] | [_] | [_, _] | [_, _, _] | [_, _, _, _] => simp [namesNeeded]
      | a :: b :: c :: d :: e :: r => exact absurd rfl (h a b c d e r)
    constructor
    · intro he
      cases he
      exact ⟨hlen, rfl, rfl⟩
    · rintro ⟨-, rfl, rfl⟩
      rfl

end Entry

end SymbolIndex
