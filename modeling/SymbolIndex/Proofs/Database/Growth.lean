import SymbolIndex.Proofs.Database.Insertion

/-!
# Adding many entries

Many entries are added one after the other, up to the first that is rejected.  Whether
an entry is rejected is decided by single entries that are there before it: some of
them bar it.  So a list of entries is taken as a whole when none of it is barred by an
entry of the database, or by one further up in the list.

* `insertAll_append`: adding one list behind another.
* `exists_of_insertAll`: where it stops, and what has been added until then.
* `Sound.insertAll_ok_iff`: which lists are taken as a whole.
* `Reachable.insertAll_entries`: a reachable database is what its own entries make of the
  empty one.  Rejected entries leave no trace, and there is no other way to grow.
-/

namespace SymbolIndex

-- The segments of a full name are never looked at here; unfolding them leads into texts.
attribute [local irreducible] Entry.branch

/-- An entry does not let a later one in: its full name ends on the way to the branches of the
later one, or these are all on the way to its own. -/
def Entry.Bars (earlier later : Entry) : Prop :=
  earlier.fullName <+: later.branch.reverse ∨ later.branch.reverse <+: earlier.branch.reverse

namespace Database

/-! ### Runs of additions -/

theorem insertAll_cons_of_ok {database after : Database} {entry : Entry} {id : Nat}
    (h : database.add entry = (.ok id, after)) (rest : List Entry) :
    database.insertAll (entry :: rest) = after.insertAll rest := by
  rw [insertAll, h]

theorem insertAll_cons_of_error {database after : Database} {entry : Entry} {error : InsertError}
    (h : database.add entry = (.error error, after)) (rest : List Entry) :
    database.insertAll (entry :: rest) = (after, some error) := by
  rw [insertAll, h]

/-- Behind a list that is taken as a whole, the next one is added. -/
theorem insertAll_append {database after : Database} {front : List Entry}
    (h : database.insertAll front = (after, none)) (back : List Entry) :
    database.insertAll (front ++ back) = after.insertAll back := by
  induction front generalizing database with
  | nil =>
    cases h
    rfl
  | cons entry front ih =>
    rw [List.cons_append]
    rcases hadd : database.add entry with ⟨error | id, middle⟩
    · rw [insertAll_cons_of_error hadd] at h
      cases h
    · rw [insertAll_cons_of_ok hadd] at h ⊢
      exact ih h

theorem entries_insertAll {database after : Database} {list : List Entry}
    (h : database.insertAll list = (after, none)) : after.entries = database.entries ++ list := by
  induction list generalizing database with
  | nil =>
    cases h
    exact (List.append_nil _).symm
  | cons entry list ih =>
    rcases hadd : database.add entry with ⟨error | id, middle⟩
    · rw [insertAll_cons_of_error hadd] at h
      cases h
    · rw [insertAll_cons_of_ok hadd] at h
      rw [ih h, entries_add_of_ok hadd, List.append_assoc, List.singleton_append]

/-- **Adding stops at the first entry that is rejected**, and all before it are added. -/
theorem exists_of_insertAll {database after : Database} {list : List Entry} {error : InsertError}
    (h : database.insertAll list = (after, some error)) :
    ∃ front entry back, list = front ++ entry :: back ∧
      database.insertAll front = (after, none) ∧ after.add entry = (.error error, after) := by
  induction list generalizing database with
  | nil => cases h
  | cons entry list ih =>
    rcases hadd : database.add entry with ⟨found | id, middle⟩
    · rw [insertAll_cons_of_error hadd] at h
      cases h
      obtain rfl := (add_of_error hadd).1
      exact ⟨[], entry, list, rfl, rfl, hadd⟩
    · rw [insertAll_cons_of_ok hadd] at h
      obtain ⟨front, rejected, back, rfl, hfront, hrejected⟩ := ih h
      refine ⟨entry :: front, rejected, back, rfl, ?_, hrejected⟩
      rw [insertAll_cons_of_ok hadd, hfront]

/-! ### Which lists are taken as a whole -/

/-- **An entry is taken unless a stored one bars it.** -/
theorem Sound.add_ok_iff {database : Database} (hs : Sound database) (entry : Entry) :
    (∃ id after, database.add entry = (.ok id, after)) ↔
      ∀ stored ∈ database.entries, ¬ stored.Bars entry := by
  constructor
  · rintro ⟨id, after, hadd⟩ stored hmem hbars
    have herror : ∃ rejection, database.trie.check entry.branch.reverse = .error rejection := by
      rcases hbars with hcollides | hrepeats
      · exact ⟨_, (hs.check_eq_collision_iff entry).mpr ⟨stored, hmem, hcollides⟩⟩
      · exact ⟨_, (hs.check_eq_duplicate_iff entry).mpr ⟨stored, hmem, hrepeats⟩⟩
    obtain ⟨rejection, hcheck⟩ := herror
    have hrejected := (add_eq_error_iff database entry rejection).mpr hcheck
    rw [hadd] at hrejected
    cases hrejected
  · intro hfree
    rcases database.add_cases entry with ⟨rejection, hcheck, _⟩ | ⟨trie, _, _, heq⟩
    · cases rejection with
      | collision =>
        obtain ⟨stored, hmem, hcollides⟩ := (hs.check_eq_collision_iff entry).mp hcheck
        exact absurd (.inl hcollides) (hfree stored hmem)
      | duplicate =>
        obtain ⟨stored, hmem, hrepeats⟩ := (hs.check_eq_duplicate_iff entry).mp hcheck
        exact absurd (.inr hrepeats) (hfree stored hmem)
    · exact ⟨_, _, heq⟩

/-- **A list is taken as a whole unless an entry of it is barred by a stored one or by an earlier
one of the list.** -/
theorem Sound.insertAll_ok_iff {database : Database} (hs : Sound database) (list : List Entry) :
    (database.insertAll list).2 = none ↔
      (∀ stored ∈ database.entries, ∀ entry ∈ list, ¬ stored.Bars entry) ∧
        list.Pairwise fun earlier later => ¬ earlier.Bars later := by
  induction list generalizing database with
  | nil => simp [Database.insertAll]
  | cons entry list ih =>
    have hfree := hs.add_ok_iff entry
    have hafter := hs.add entry
    rcases hadd : database.add entry with ⟨error | id, after⟩
    · rw [insertAll_cons_of_error hadd]
      have hbarred : ¬ ∀ stored ∈ database.entries, ¬ stored.Bars entry := by
        intro hall
        obtain ⟨id, after', hok⟩ := hfree.mpr hall
        rw [hadd] at hok
        cases hok
      simp only [reduceCtorEq, false_iff, not_and]
      intro hstored
      exact absurd (fun stored hmem => hstored stored hmem entry List.mem_cons_self) hbarred
    · rw [hadd] at hafter
      rw [insertAll_cons_of_ok hadd, ih hafter, entries_add_of_ok hadd, List.pairwise_cons]
      have hentry := hfree.mp ⟨id, after, hadd⟩
      constructor
      · rintro ⟨hstored, hlist⟩
        refine ⟨fun stored hmem later hlater => ?_, fun later hlater => ?_, hlist⟩
        · rcases List.mem_cons.mp hlater with rfl | hlater
          · exact hentry stored hmem
          · exact hstored stored (List.mem_append_left _ hmem) later hlater
        · exact hstored entry (List.mem_append_right _ List.mem_cons_self) later hlater
      · rintro ⟨hstored, hentries, hlist⟩
        refine ⟨fun stored hmem later hlater => ?_, hlist⟩
        rcases List.mem_append.mp hmem with hmem | hmem
        · exact hstored stored hmem later (List.mem_cons_of_mem _ hlater)
        · rw [List.mem_singleton.mp hmem]
          exact hentries later hlater

/-! ### A database and its entries -/

/-- **A reachable database is what its entries make of the empty one.** -/
theorem Reachable.insertAll_entries {database : Database} (h : Reachable database) :
    Database.empty.insertAll database.entries = (database, none) := by
  refine h.induction (p := fun database => Database.empty.insertAll database.entries =
    (database, none)) rfl fun database entry ih => ?_
  rcases hadd : database.add entry with ⟨error | id, after⟩
  · rw [(add_of_error hadd).1]
    exact ih
  · show Database.empty.insertAll after.entries = (after, none)
    rw [entries_add_of_ok hadd, insertAll_append ih, insertAll_cons_of_ok hadd]
    rfl

end Database

end SymbolIndex
