import SymbolIndex.Proofs.Database.Reachable

/-!
# Searching a reachable database

The trie of a database is there to be quick.  What it finds could be told without it,
from the list of entries alone: a name fits an entry when one of the name and the
entry's full name begins with the other.

* `search_agrees`: the candidates are the entries that fit, in the order of insertion,
  and a lookup finds one entry exactly when one fits.
* `fullName_resolves`: no full name begins with another, each stored entry has one leaf
  of its own behind its full name, and so its full name finds it and nothing else.
  Insertion does not compare full names; it asks for a new branch.  That no full name
  begins with another comes from the trie, where no path to a leaf goes on.
-/

namespace SymbolIndex.Database

-- The segments of a full name are never looked at here; unfolding them leads into texts.
attribute [local irreducible] Entry.branch

/-! ### Names of stored entries -/

section Names

variable {database : Database}

theorem Sound.mem_toList (hs : Sound database) {record : Record}
    (h : record ∈ database.records.toList) :
    (record.entry.fullName, record) ∈ database.trie.toList :=
  hs.paths.mem_iff.mpr (List.mem_map.mpr ⟨record, h, rfl⟩)

/-- The full name of a stored entry fits that entry alone. -/
theorem Sound.matching_fullName (hs : Sound database) {record : Record}
    (h : record ∈ database.records.toList) : database.matching (.ofEntry record.entry) = [record] := by
  have hvalues := hs.valid.values_descend record.entry.fullName
  rw [hs.valid.descend_of_mem (hs.mem_toList h)] at hvalues
  have hperm := hs.matching_perm (.ofEntry record.entry)
  rw [PartialName.ofEntry, ← hvalues] at hperm
  exact List.perm_singleton.mp hperm.symm

theorem Sound.eq_of_prefix (hs : Sound database) {a b : Record}
    (ha : a ∈ database.records.toList) (hb : b ∈ database.records.toList)
    (h : a.entry.fullName <+: b.entry.fullName) : a = b := by
  have hmem : a ∈ database.matching (.ofEntry b.entry) :=
    List.mem_filter.mpr ⟨ha, fits_iff.mpr (.inl h)⟩
  rw [hs.matching_fullName hb] at hmem
  exact List.mem_singleton.mp hmem

/-- **No full name of a stored entry begins with another.** -/
theorem Sound.pairwise_not_prefix (hs : Sound database) :
    database.entries.Pairwise fun a b => ¬ a.fullName <+: b.fullName ∧ ¬ b.fullName <+: a.fullName := by
  rw [entries, List.pairwise_map]
  refine hs.pairwise_id_lt.imp_of_mem fun {a b} ha hb hab => ⟨fun h => ?_, fun h => ?_⟩
  · rw [hs.eq_of_prefix ha hb h] at hab
    exact Nat.lt_irrefl _ hab
  · rw [hs.eq_of_prefix hb ha h] at hab
    exact Nat.lt_irrefl _ hab

theorem Sound.nodup_records (hs : Sound database) : database.records.toList.Nodup := by
  refine hs.pairwise_id_lt.imp fun {a b} hab heq => ?_
  rw [heq] at hab
  exact Nat.lt_irrefl _ hab

theorem Sound.nodup_entries (hs : Sound database) : database.entries.Nodup := by
  refine hs.pairwise_not_prefix.imp fun {a b} h heq => h.1 ?_
  exact heq ▸ List.prefix_rfl

/-- A number is at one leaf. -/
theorem Sound.filter_id (hs : Sound database) {record : Record}
    (h : record ∈ database.records.toList) :
    database.trie.toList.filter (fun leaf => leaf.2.id = record.id) =
      [(record.entry.fullName, record)] := by
  have hone : database.records.toList.filter (fun r => r.id = record.id) = [record] := by
    have hcongr : database.records.toList.filter (fun r => r.id = record.id) =
        database.records.toList.filter (fun r => r = record) := by
      refine List.filter_congr fun r hr => ?_
      rw [decide_eq_decide]
      exact ⟨hs.eq_of_id_eq hr h, fun heq => by rw [heq]⟩
    rw [hcongr, List.filter_eq, List.count_eq_one_of_mem hs.nodup_records h, List.replicate_one]
  have hperm := hs.paths.filter fun leaf => leaf.2.id = record.id
  rw [List.filter_map] at hperm
  simp only [Function.comp_def, hone] at hperm
  exact List.perm_singleton.mp hperm

end Names

/-! ### The search in the trie is the search in the list -/

theorem map_entry_matching (database : Database) (name : PartialName) :
    (database.matching name).map (·.entry) =
      database.entries.filter fun entry => fits entry.fullName name.segments := by
  rw [matching, entries, List.filter_map]
  rfl

/-- **The search in the trie is the search in the list.**  The candidates are the records that fit,
in order, none of them twice; a lookup gives the one candidate there is. -/
theorem search_agrees {database : Database} (h : Reachable database) (name : PartialName) :
    (database.candidates name).map (·.entry) =
        database.entries.filter (fun entry => fits entry.fullName name.segments) ∧
      ((database.candidates name).map (·.entry)).Nodup ∧
      (database.candidates name).Sublist database.records.toList ∧
      (∀ record, database.lookup name = .ok record ↔ database.candidates name = [record]) ∧
      (database.lookup name = .error .absent ↔ database.candidates name = []) ∧
      (database.lookup name = .error .ambiguous ↔ 2 ≤ (database.candidates name).length) := by
  have hs := h.sound
  rw [hs.candidates_eq, hs.lookup_eq]
  refine ⟨map_entry_matching database name, ?_, List.filter_sublist, fun record => only_eq_ok_iff,
    only_eq_absent_iff, only_eq_ambiguous_iff⟩
  rw [map_entry_matching]
  exact hs.nodup_entries.filter _

theorem search_agrees_formats : Reachable formats ∧
    (formats.candidates ⟨["withPattern"]⟩).map (·.entry) =
      [formatEntry "DateTimeFormat" "withPattern", formatEntry "NumberFormat" "withPattern"] ∧
    formats.lookup ⟨["withPattern"]⟩ = .error .ambiguous := by
  obtain ⟨hentries, _, _, _, _, hambiguous⟩ :=
    search_agrees reachable_formats ⟨["withPattern"]⟩
  have hfound : (formats.candidates ⟨["withPattern"]⟩).map (·.entry) =
      [formatEntry "DateTimeFormat" "withPattern", formatEntry "NumberFormat" "withPattern"] :=
    hentries.trans (by decide +kernel)
  refine ⟨reachable_formats, hfound, hambiguous.mpr ?_⟩
  rw [← List.length_map (f := (·.entry)), hfound]
  exact Nat.le_refl 2

/-- How the entries of a database stand in its trie. -/
structure Placed (database : Database) : Prop where
  /-- No full name begins with another. -/
  incomparable : database.entries.Pairwise fun a b =>
    ¬ a.fullName <+: b.fullName ∧ ¬ b.fullName <+: a.fullName
  /-- Each number is at one leaf, and that is behind the full name of the entry. -/
  one_leaf : ∀ record ∈ database.records.toList,
    database.trie.toList.filter (fun leaf => leaf.2.id = record.id) =
      [(record.entry.fullName, record)]
  /-- No leaf is there besides. -/
  stored : ∀ leaf ∈ database.trie.toList, leaf.2 ∈ database.records.toList
  /-- A full name leads to its leaf. -/
  descend_fullName : ∀ record ∈ database.records.toList,
    database.trie.descend record.entry.fullName = some (.leaf record)
  /-- Every branch leads to a value. -/
  values_ne_nil : ∀ path children, path ≠ [] →
    database.trie.descend path = some (.node children) → children.values ≠ []

theorem Sound.placed {database : Database} (hs : Sound database) : Placed database where
  incomparable := hs.pairwise_not_prefix
  one_leaf := fun _ h => hs.filter_id h
  stored := fun leaf h => by
    obtain ⟨record, hmem, rfl⟩ := List.mem_map.mp (hs.paths.mem_iff.mp h)
    exact hmem
  descend_fullName := fun _ h => hs.valid.descend_of_mem (hs.mem_toList h)
  values_ne_nil := fun path children hpath h => by
    obtain ⟨hvalid, hne⟩ := hs.valid.descend h
    exact hvalid.values_ne_nil (hne hpath)

/-- **Every stored entry is found under its own full name.** -/
theorem fullName_resolves {database : Database} (h : Reachable database) :
    Placed database ∧ ∀ record ∈ database.records.toList,
      database.lookup (.ofEntry record.entry) = .ok record ∧
        database.candidates (.ofEntry record.entry) = [record] := by
  refine ⟨h.sound.placed, fun record hmem => ?_⟩
  rw [h.sound.lookup_eq, h.sound.candidates_eq, h.sound.matching_fullName hmem]
  exact ⟨rfl, rfl⟩

theorem fullName_resolves_formats : Reachable formats ∧
    ∃ record, record ∈ formats.records.toList ∧
      record.entry = formatEntry "NumberFormat" "withPattern" ∧
      formats.lookup (.ofEntry record.entry) = .ok record := by
  have hmem : (⟨1, formatEntry "NumberFormat" "withPattern"⟩ : Record) ∈ formats.records.toList := by
    decide +kernel
  exact ⟨reachable_formats, _, hmem, rfl, ((fullName_resolves reachable_formats).2 _ hmem).1⟩

end SymbolIndex.Database
