import SymbolIndex.Proofs.Database.Search

/-!
# Which entries a database takes

An entry is added below its branches, which are its full name without the repository.
Against the entries that are there two things can be wrong: a full name ends on the
way, so that a leaf stands where a branch is needed, or all branches are there
already, so that the entry brings nothing new.

* `add_spec`: these are the only reasons for a rejection, never both at once, and a
  rejected entry leaves no trace.  The check walk and the walk that makes the branches
  agree on every trie, so the second one is not stopped by what the first let through.
-/

namespace SymbolIndex.Database

-- The segments of a full name are never looked at here; unfolding them leads into texts.
attribute [local irreducible] Entry.branch

/-- The full name of a stored entry ends on the way to the branches of an entry. -/
def Collides (database : Database) (entry : Entry) : Prop :=
  ∃ stored ∈ database.entries, stored.fullName <+: entry.branch.reverse

/-- The branches of an entry are all on the way to those of a stored entry. -/
def Repeats (database : Database) (entry : Entry) : Prop :=
  ∃ stored ∈ database.entries, entry.branch.reverse <+: stored.branch.reverse

theorem branch_ne_nil (entry : Entry) : entry.branch ≠ [] := by
  unfold Entry.branch
  exact List.cons_ne_nil _ _

theorem dropLast_fullName (entry : Entry) : entry.fullName.dropLast = entry.branch.reverse := by
  rw [entry.fullName_eq_append, List.dropLast_concat]

/-- What some leaf of the trie has, some stored entry has. -/
theorem Sound.exists_leaf_iff {database : Database} (hs : Sound database)
    {p : List String → Prop} :
    (∃ leaf ∈ database.trie.toList, p leaf.1) ↔ ∃ stored ∈ database.entries, p stored.fullName := by
  constructor
  · rintro ⟨leaf, hmem, hp⟩
    obtain ⟨record, hrecord, rfl⟩ := List.mem_map.mp (hs.paths.mem_iff.mp hmem)
    exact ⟨record.entry, List.mem_map.mpr ⟨record, hrecord, rfl⟩, hp⟩
  · rintro ⟨stored, hmem, hp⟩
    obtain ⟨record, hrecord, rfl⟩ := List.mem_map.mp hmem
    exact ⟨_, hs.mem_toList hrecord, hp⟩

theorem Sound.check_eq_collision_iff {database : Database} (hs : Sound database) (entry : Entry) :
    database.trie.check entry.branch.reverse = .error .collision ↔ database.Collides entry := by
  rw [Trie.check_eq_collision_iff hs.valid]
  exact hs.exists_leaf_iff (p := fun path => path <+: entry.branch.reverse)

theorem Sound.check_eq_duplicate_iff {database : Database} (hs : Sound database) (entry : Entry) :
    database.trie.check entry.branch.reverse = .error .duplicate ↔ database.Repeats entry := by
  have hne : entry.branch.reverse ≠ [] := List.reverse_ne_nil_iff.mpr (branch_ne_nil entry)
  rw [Trie.check_eq_duplicate_iff hs.valid (.inl hne),
    hs.exists_leaf_iff (p := fun path => entry.branch.reverse <+: path.dropLast)]
  simp only [dropLast_fullName, Repeats]

theorem add_eq_error_iff (database : Database) (entry : Entry) (rejection : Rejection) :
    (database.add entry).1 = .error ⟨rejection, entry⟩ ↔
      database.trie.check entry.branch.reverse = .error rejection := by
  rcases database.add_cases entry with ⟨found, hcheck, heq⟩ | ⟨trie, hcheck, _, heq⟩
  · rw [heq, hcheck]
    simp
  · rw [heq, hcheck]
    simp

/-- **A database takes an entry unless it collides with one that is there or repeats one, and a
rejected entry changes nothing.** -/
theorem add_spec {database : Database} (h : Reachable database) (entry : Entry) :
    ((database.add entry).1 = .error ⟨.collision, entry⟩ ↔ database.Collides entry) ∧
      ((database.add entry).1 = .error ⟨.duplicate, entry⟩ ↔ database.Repeats entry) ∧
      ¬ (database.Collides entry ∧ database.Repeats entry) ∧
      (¬ database.Collides entry → ¬ database.Repeats entry →
        (database.add entry).1 = .ok database.size ∧
          (database.add entry).2.entries = database.entries ++ [entry]) ∧
      (∀ error, (database.add entry).1 = .error error → (database.add entry).2 = database) ∧
      (database.trie.check entry.branch.reverse = .ok () →
        entry.hierarchy ≠ [] ∧
          ∀ record, (database.trie.plant entry.repository record entry.branch.reverse).1 = .ok ()) := by
  have hs := h.sound
  refine ⟨?_, ?_, ?_, ?_, ?_, ?_⟩
  · rw [add_eq_error_iff, hs.check_eq_collision_iff]
  · rw [add_eq_error_iff, hs.check_eq_duplicate_iff]
  · rintro ⟨hcollides, hrepeats⟩
    rw [← hs.check_eq_collision_iff] at hcollides
    rw [← hs.check_eq_duplicate_iff, hcollides] at hrepeats
    cases hrepeats
  · intro hcollides hrepeats
    rw [← hs.check_eq_collision_iff] at hcollides
    rw [← hs.check_eq_duplicate_iff] at hrepeats
    rcases database.add_cases entry with ⟨rejection, hcheck, _⟩ | ⟨trie, _, _, heq⟩
    · cases rejection with
      | duplicate => exact absurd hcheck hrepeats
      | collision => exact absurd hcheck hcollides
    · have hok : database.add entry = (.ok database.size, (database.add entry).2) := by rw [heq]
      exact ⟨congrArg Prod.fst hok, entries_add_of_ok hok⟩
  · intro error herror
    have hadd : database.add entry = (.error error, (database.add entry).2) := by rw [← herror]
    exact (add_of_error hadd).1
  · intro hcheck
    exact ⟨List.cons_ne_nil _ _, fun record => Trie.plant_of_check entry.repository record hcheck⟩

/-- An entry whose folder has the repository and the path of another entry in it. -/
def nestedEntry : Entry :=
  { formatEntry "DateTimeFormat" "withPattern" with
    repository := "mirror"
    path := "mirrors"
    project := "stdlib_api"
    folder := "packages/eu.numberfour.stdlib.format.api/src/n4js" }

theorem add_spec_formats : Reachable formats ∧
    formats.add nestedEntry = (.error ⟨.collision, nestedEntry⟩, formats) ∧
    (formats.add (formatEntry "NumberFormat" "withPattern")).1 =
      .error ⟨.duplicate, formatEntry "NumberFormat" "withPattern"⟩ ∧
    (formats.add (formatEntry "NumberFormat" "withStyle")).1 = .ok formats.size := by
  have hcollides : formats.Collides nestedEntry := by
    unfold Collides
    decide +kernel
  have hrepeats : formats.Repeats (formatEntry "NumberFormat" "withPattern") := by
    unfold Repeats
    decide +kernel
  have hcollides' : ¬ formats.Collides (formatEntry "NumberFormat" "withStyle") := by
    unfold Collides
    decide +kernel
  have hrepeats' : ¬ formats.Repeats (formatEntry "NumberFormat" "withStyle") := by
    unfold Repeats
    decide +kernel
  obtain ⟨hcollision, _, _, _, hsame, _⟩ := add_spec reachable_formats nestedEntry
  have herror := hcollision.mpr hcollides
  obtain ⟨_, hduplicate, _⟩ :=
    add_spec reachable_formats (formatEntry "NumberFormat" "withPattern")
  obtain ⟨_, _, _, haccepted, _⟩ :=
    add_spec reachable_formats (formatEntry "NumberFormat" "withStyle")
  exact ⟨reachable_formats, Prod.ext herror (hsame _ herror), hduplicate.mpr hrepeats,
    (haccepted hcollides' hrepeats').1⟩

end SymbolIndex.Database
