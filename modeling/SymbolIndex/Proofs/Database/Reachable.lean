import Mathlib.Data.List.Nodup
import SymbolIndex.Proofs.Document.Declarations
import SymbolIndex.Proofs.Trie.Search

/-!
# Reachable databases

A database grows from the empty one by adding entries one by one, by taking over the
entries of another database, and by reading an index document.  All three add single
entries, accepted or rejected, so what is to be known of every reachable database has
to be shown of `Database.add` alone.

`Sound` is what every reachable database has: its trie is valid, its records are
numbered in order, and the leaves of the trie are the records, each behind the full
name of its entry.

* `add_cases`: all that adding an entry can do.
* `declared_of_mem`: a document has no entries but those that its lines declare.
* `Sound.add`: it keeps a database sound, whether the entry is accepted or not.
* `Reachable.sound`: every reachable database is sound.
* `Sound.lookup_eq`, `Sound.candidates_eq`: a sound database is searched as its list
  of records is.
-/

namespace SymbolIndex

namespace Database

/-! ### All that adding an entry can do -/

/-- **An entry is rejected by the check walk and nothing changes, or it comes to the end of the
records.**  The second walk has no say, nor has the case of an empty hierarchy. -/
theorem add_cases (database : Database) (entry : Entry) :
    (∃ rejection, database.trie.check entry.branch.reverse = .error rejection ∧
      database.add entry = (.error ⟨rejection, entry⟩, database)) ∨
    (∃ trie, database.trie.check entry.branch.reverse = .ok () ∧
      database.trie.plant entry.repository ⟨database.size, entry⟩ entry.branch.reverse =
        (.ok (), trie) ∧
      database.add entry =
        (.ok database.size, ⟨database.records.push ⟨database.size, entry⟩, trie⟩)) := by
  have htail : entry.hierarchy.tail = entry.branch := rfl
  cases hcheck : database.trie.check entry.branch.reverse with
  | error rejection =>
    refine .inl ⟨rejection, rfl, ?_⟩
    rw [add, htail, hcheck]
  | ok _ =>
    have hok := Trie.plant_of_check entry.repository (⟨database.size, entry⟩ : Record) hcheck
    cases hplant : database.trie.plant entry.repository (⟨database.size, entry⟩ : Record)
      entry.branch.reverse with
    | mk result trie =>
      rw [hplant] at hok
      obtain rfl : result = .ok () := hok
      refine .inr ⟨trie, rfl, rfl, ?_⟩
      rw [add, htail, hcheck]
      simp only [Entry.hierarchy, hplant]

theorem records_add_of_ok {database after : Database} {entry : Entry} {id : Nat}
    (h : database.add entry = (.ok id, after)) :
    id = database.size ∧ after.records.toList = database.records.toList ++ [⟨id, entry⟩] := by
  rcases database.add_cases entry with ⟨rejection, _, heq⟩ | ⟨trie, _, _, heq⟩
  · rw [heq] at h
    cases h
  · rw [heq] at h
    cases h
    exact ⟨rfl, Array.toList_push⟩

theorem entries_add_of_ok {database after : Database} {entry : Entry} {id : Nat}
    (h : database.add entry = (.ok id, after)) : after.entries = database.entries ++ [entry] := by
  rw [entries, (records_add_of_ok h).2, List.map_append]
  rfl

theorem add_of_error {database after : Database} {entry : Entry} {error : InsertError}
    (h : database.add entry = (.error error, after)) : after = database ∧ error.entry = entry := by
  rcases database.add_cases entry with ⟨rejection, _, heq⟩ | ⟨trie, _, _, heq⟩
  · rw [heq] at h
    cases h
    exact ⟨rfl, rfl⟩
  · rw [heq] at h
    cases h

theorem insert_eq_ok {database after : Database} {entry : Entry}
    (h : database.insert entry = .ok after) : (database.add entry).2 = after := by
  unfold insert at h
  split at h
  · rename_i heq
    cases h
    rw [heq]
  · cases h

theorem entries_of_insert {database after : Database} {entry : Entry}
    (h : database.insert entry = .ok after) : after.entries = database.entries ++ [entry] := by
  unfold insert at h
  split at h
  · rename_i heq
    cases h
    exact entries_add_of_ok heq
  · cases h

/-! ### Runs of additions -/

variable {p : Database → Prop}

/-- What adding an entry keeps, adding many keeps. -/
theorem insertAll_induction (hadd : ∀ database entry, p database → p (database.add entry).2)
    (list : List Entry) {database : Database} (h : p database) : p (database.insertAll list).1 := by
  induction list generalizing database with
  | nil => exact h
  | cons entry rest ih =>
    have hafter := hadd database entry h
    rw [insertAll]
    split
    · rename_i after heq
      rw [heq] at hafter
      exact ih hafter
    · rename_i after heq
      rw [heq] at hafter
      exact hafter

/-- Does a line of a document declare the entry? -/
def Declared (source : String) (entry : Entry) : Prop :=
  ∃ tokens ∈ TokenLine.ofDocument source, tokens.Declares entry

/-- What the empty database has and adding a declared entry keeps, an index document gives. -/
theorem parse_induction {source : String} (hempty : p empty)
    (hadd : ∀ database entry, Declared source entry → p database → p (database.add entry).2)
    {database : Database} (h : Database.parse source = .ok database) : p database := by
  obtain ⟨outline, hfold, hdone⟩ := bind_eq_ok_iff.mp h
  cases hdone
  refine foldlM_induction (p := fun outline => p outline.database) ?_ hfold hempty
  intro before tokens hmem after hread hbefore
  rcases Outline.read_eq_ok hread with heq | ⟨entry, hdeclares, hinsert⟩
  · rw [heq]
    exact hbefore
  · rw [← insert_eq_ok hinsert]
    exact hadd before.database entry ⟨tokens, hmem, hdeclares⟩ hbefore

/-- **Every entry of a document is declared by one of its lines.** -/
theorem declared_of_mem {source : String} {database : Database}
    (h : Database.parse source = .ok database) {entry : Entry} (hmem : entry ∈ database.entries) :
    Declared source entry := by
  refine parse_induction (p := fun database => ∀ entry ∈ database.entries, Declared source entry)
    (fun _ hmem => nomatch hmem) ?_ h entry hmem
  intro before added hadded hbefore entry hmem
  rcases hadd : before.add added with ⟨error | id, after⟩
  · rw [hadd, (add_of_error hadd).1] at hmem
    exact hbefore entry hmem
  · rw [hadd, entries_add_of_ok hadd] at hmem
    rcases List.mem_append.mp hmem with hmem | hmem
    · exact hbefore entry hmem
    · rw [List.mem_singleton.mp hmem]
      exact hadded

/-- The databases that come from the empty one. -/
inductive Reachable : Database → Prop
  | empty : Reachable empty
  | add {database : Database} (h : Reachable database) (entry : Entry) :
      Reachable (database.add entry).2
  | extend {database other : Database} (h : Reachable database) (ho : Reachable other) :
      Reachable (database.extend other).1
  | parse {source : String} {database : Database} (h : Database.parse source = .ok database) :
      Reachable database

/-- Single additions are enough. -/
theorem Reachable.induction (hempty : p Database.empty)
    (hadd : ∀ database entry, p database → p (database.add entry).2) {database : Database}
    (h : Reachable database) : p database := by
  induction h with
  | empty => exact hempty
  | add _ entry ih => exact hadd _ entry ih
  | extend _ _ ih _ => exact insertAll_induction hadd _ ih
  | parse h => exact parse_induction hempty (fun database entry _ => hadd database entry) h

/-! ### Sound databases -/

/-- The records are numbered in order, and the leaves of the trie are the records, each behind the
full name of its entry. -/
structure Sound (database : Database) : Prop where
  valid : database.trie.Valid
  ids : database.records.toList.map (·.id) = List.range database.size
  paths : database.trie.toList.Perm
    (database.records.toList.map fun record => (record.entry.fullName, record))

theorem sound_empty : Sound empty := ⟨.empty, rfl, .refl _⟩

/-- **Adding an entry keeps a database sound.** -/
theorem Sound.add {database : Database} (hs : Sound database) (entry : Entry) :
    Sound (database.add entry).2 := by
  rcases database.add_cases entry with ⟨rejection, _, heq⟩ | ⟨trie, hcheck, hplant, heq⟩
  · rw [heq]
    exact hs
  · have hvalid := hs.valid.plant entry.repository (⟨database.size, entry⟩ : Record) hcheck
    have hpaths := Trie.toList_plant entry.repository (⟨database.size, entry⟩ : Record) hcheck
    rw [hplant] at hvalid hpaths
    rw [← entry.fullName_eq_append] at hpaths
    rw [heq]
    refine ⟨hvalid, ?_, ?_⟩
    · rw [Array.toList_push, List.map_append, hs.ids, size, size, Array.size_push,
        List.range_succ]
      rfl
    · rw [Array.toList_push, List.map_append]
      exact (hpaths.trans (hs.paths.cons _)).trans (List.perm_append_singleton _ _).symm

/-- **Every reachable database is sound.** -/
theorem Reachable.sound {database : Database} (h : Reachable database) : Sound database :=
  h.induction sound_empty fun _ entry hs => hs.add entry

/-! ### Searching a sound database -/

/-- The records whose full names fit a name. -/
def matching (database : Database) (name : PartialName) : List Record :=
  database.records.toList.filter fun record => fits record.entry.fullName name.segments

theorem Sound.matching_perm {database : Database} (hs : Sound database) (name : PartialName) :
    (database.trie.matching name.segments).Perm (database.matching name) := by
  have hperm := (hs.paths.filter fun entry => fits entry.1 name.segments).map (·.2)
  rw [List.filter_map, List.map_map] at hperm
  simp only [Function.comp_def, List.map_id'] at hperm
  rw [Trie.matching, matching]
  exact hperm

/-- **One record is found exactly when one record fits.** -/
theorem Sound.lookup_eq {database : Database} (hs : Sound database) (name : PartialName) :
    database.lookup name = only (database.matching name) := by
  rw [lookup, hs.valid.lookup_eq_only_matching]
  exact only_perm (hs.matching_perm name)

theorem Sound.pairwise_id_lt {database : Database} (hs : Sound database) :
    database.records.toList.Pairwise fun a b => a.id < b.id := by
  rw [← List.pairwise_map, hs.ids]
  exact List.pairwise_lt_range

theorem Sound.eq_of_id_eq {database : Database} (hs : Sound database) {a b : Record}
    (ha : a ∈ database.records.toList) (hb : b ∈ database.records.toList) (h : a.id = b.id) :
    a = b := by
  have hnodup : (database.records.toList.map (·.id)).Nodup := hs.ids ▸ List.nodup_range
  exact List.inj_on_of_nodup_map hnodup ha hb h

/-- **The candidates are the records that fit, in the order of insertion.**  The search finds them
in some order; sorting by number leaves no choice, since no two records share one. -/
theorem Sound.candidates_eq {database : Database} (hs : Sound database) (name : PartialName) :
    database.candidates name = database.matching name := by
  have hlt : (database.matching name).Pairwise fun a b => a.id < b.id :=
    hs.pairwise_id_lt.filter _
  have hsorted : (database.candidates name).Pairwise fun a b => decide (a.id ≤ b.id) = true :=
    List.pairwise_mergeSort (by simp; omega) (by simp; omega) _
  have hperm : (database.candidates name).Perm (database.matching name) :=
    (List.mergeSort_perm _ _).trans
      ((hs.valid.find_perm_matching name.segments).trans (hs.matching_perm name))
  refine List.Perm.eq_of_pairwise ?_ hsorted (hlt.imp ?_) hperm
  · intro a b ha hb hab hba
    rw [decide_eq_true_eq] at hab hba
    have hmem := List.filter_sublist.subset hb
    have hmem' := List.filter_sublist.subset (hperm.subset ha)
    exact hs.eq_of_id_eq hmem' hmem (Nat.le_antisymm hab hba)
  · intro a b hab
    exact decide_eq_true (Nat.le_of_lt hab)

/-! ### An example -/

/-- A property of a class of the module with its name. -/
def formatEntry (moduleName property : String) : Entry where
  repository := "stdlib_api"
  path := "packages"
  project := "eu.numberfour.stdlib.format.api"
  folder := "src/n4js"
  package := "n4/format"
  moduleName
  extension := "n4js"
  symbol := ⟨moduleName, "@", property⟩

/-- Two properties of one name. -/
def formats : Database :=
  ((empty.add (formatEntry "DateTimeFormat" "withPattern")).2.add
    (formatEntry "NumberFormat" "withPattern")).2

theorem reachable_formats : Reachable formats := (Reachable.empty.add _).add _

end Database

end SymbolIndex
