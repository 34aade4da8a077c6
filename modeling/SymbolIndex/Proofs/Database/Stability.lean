import SymbolIndex.Proofs.Database.Merging

/-!
# More entries and longer names

A name finds the records that fit it.  A database that grows gets more of them at the end of its
records, and loses none.  A name that goes on behind its end fits fewer of them, and no others.  So
what a reference finds can only become ambiguous when entries are added, and only clearer when it
is qualified further; it never comes to mean another entry.

* `GrowsTo.candidates_prefix`: the candidates of before are the first ones of after.
* `lookup_of_growsTo`: a reference in a database that has grown.
* `fits_of_prefix`: what fits a longer name fits a shorter one.
* `lookup_of_qualified`: a reference that is qualified further.  The walk down the trie takes steps
  by the name then that it took by itself before, but both are told through the names that fit.
-/

namespace SymbolIndex

-- The segments of a full name are never looked at here; unfolding them leads into texts.
attribute [local irreducible] Entry.branch

/-! ### The only element of a part of a list -/

section Only

variable {α : Type} {part list : List α}

/-- The only element stays one of many at least. -/
theorem only_of_sublist (h : part.Sublist list) {value : α} (hpart : only part = .ok value) :
    only list = .ok value ∨ only list = .error .ambiguous ∧ value ∈ list := by
  rw [only_eq_ok_iff] at hpart
  subst hpart
  have hmem : value ∈ list := h.subset List.mem_cons_self
  cases honly : only list with
  | ok other =>
    rw [only_eq_ok_iff.mp honly, List.mem_singleton] at hmem
    exact .inl (congrArg _ hmem.symm)
  | error error =>
    cases error with
    | absent =>
      rw [only_eq_absent_iff.mp honly] at hmem
      cases hmem
    | ambiguous => exact .inr ⟨rfl, hmem⟩

theorem only_ambiguous_of_sublist (h : part.Sublist list)
    (hpart : only part = .error .ambiguous) : only list = .error .ambiguous :=
  only_eq_ambiguous_iff.mpr (Nat.le_trans (only_eq_ambiguous_iff.mp hpart) h.length_le)

theorem only_absent_of_sublist (h : part.Sublist list) (hlist : only list = .error .absent) :
    only part = .error .absent := by
  rw [only_eq_absent_iff] at hlist ⊢
  exact List.sublist_nil.mp (hlist ▸ h)

end Only

namespace Database

theorem Sound.lookup_eq_only_candidates {database : Database} (hs : Sound database)
    (name : PartialName) : database.lookup name = only (database.candidates name) := by
  rw [hs.lookup_eq, hs.candidates_eq]

/-! ### More entries -/

/-- The databases that come from one by adding entries and taking over other databases.  Either may
be rejected. -/
inductive GrowsTo (database : Database) : Database → Prop
  | refl : GrowsTo database database
  | add {middle : Database} (h : GrowsTo database middle) (entry : Entry) :
      GrowsTo database (middle.add entry).2
  | extend {middle : Database} (h : GrowsTo database middle) (other : Database) :
      GrowsTo database (middle.extend other).1

/-- Single additions are enough. -/
theorem GrowsTo.induction {p : Database → Prop} {database after : Database}
    (h : GrowsTo database after) (hadd : ∀ database entry, p database → p (database.add entry).2)
    (hp : p database) : p after := by
  induction h with
  | refl => exact hp
  | add _ entry ih => exact hadd _ entry ih
  | extend _ other ih => exact insertAll_induction hadd other.entries ih

theorem records_prefix_add (database : Database) (entry : Entry) :
    database.records.toList <+: (database.add entry).2.records.toList := by
  rcases hadd : database.add entry with ⟨error | id, after⟩
  · obtain ⟨rfl, _⟩ := add_of_error hadd
    exact List.prefix_rfl
  · rw [(records_add_of_ok hadd).2]
    exact List.prefix_append _ _

/-- **A database that grows keeps its records**, and others come behind them. -/
theorem GrowsTo.records_prefix {database after : Database} (h : GrowsTo database after) :
    database.records.toList <+: after.records.toList := by
  refine h.induction (p := fun other => database.records.toList <+: other.records.toList) ?_
    List.prefix_rfl
  intro middle entry hmiddle
  exact hmiddle.trans (middle.records_prefix_add entry)

theorem GrowsTo.sound {database after : Database} (h : GrowsTo database after)
    (hs : Sound database) : Sound after :=
  h.induction (fun _ entry hs => hs.add entry) hs

theorem GrowsTo.candidates_prefix {database after : Database} (h : GrowsTo database after)
    (hs : Sound database) (name : PartialName) :
    database.candidates name <+: after.candidates name := by
  rw [hs.candidates_eq, (h.sound hs).candidates_eq]
  exact h.records_prefix.filter _

/-- **A growing database never redirects a reference.**  All candidates stay, in their order.  A
reference that was resolved is resolved to the same record, or it is ambiguous now and that record
is among its candidates; one that was ambiguous stays so. -/
theorem lookup_of_growsTo {database after : Database} (h : Reachable database)
    (hgrows : GrowsTo database after) (name : PartialName) :
    (database.candidates name).Sublist (after.candidates name) ∧
      (∀ record, database.lookup name = .ok record →
        after.lookup name = .ok record ∨
          after.lookup name = .error .ambiguous ∧ record ∈ after.candidates name) ∧
      (database.lookup name = .error .ambiguous → after.lookup name = .error .ambiguous) := by
  have hsublist := (hgrows.candidates_prefix h.sound name).sublist
  rw [h.sound.lookup_eq_only_candidates, (hgrows.sound h.sound).lookup_eq_only_candidates]
  exact ⟨hsublist, fun _ hok => only_of_sublist hsublist hok,
    only_ambiguous_of_sublist hsublist⟩

/-- A property that is there already is rejected; of the two that are taken over then, so is the
second. -/
def grownFormats : Database :=
  ((numberFormat.add (formatEntry "NumberFormat" "withStyle")).2.extend formats).1

/-- A property that another module has by now as well, and one that no other has. -/
theorem lookup_of_growsTo_grownFormats :
    let pattern : Record := ⟨1, formatEntry "NumberFormat" "withPattern"⟩
    let style : Record := ⟨0, formatEntry "NumberFormat" "withStyle"⟩
    Reachable numberFormat ∧ GrowsTo numberFormat grownFormats ∧
      numberFormat.lookup ⟨["withPattern"]⟩ = .ok pattern ∧
      grownFormats.lookup ⟨["withPattern"]⟩ = .error .ambiguous ∧
      pattern ∈ grownFormats.candidates ⟨["withPattern"]⟩ ∧
      numberFormat.lookup ⟨["withStyle"]⟩ = .ok style ∧
      grownFormats.lookup ⟨["withStyle"]⟩ = .ok style ∧
      grownFormats.lookup ⟨[]⟩ = .error .ambiguous := by
  intro pattern style
  have hgrows : GrowsTo numberFormat grownFormats := (GrowsTo.refl.add _).extend _
  have hlater := lookup_of_growsTo reachable_numberFormat hgrows
  have hpattern : numberFormat.lookup ⟨["withPattern"]⟩ = .ok pattern := by decide +kernel
  have hstyle : numberFormat.lookup ⟨["withStyle"]⟩ = .ok style := by decide +kernel
  have hnever : grownFormats.lookup ⟨["withPattern"]⟩ ≠ .ok pattern := by decide +kernel
  have hclear : grownFormats.lookup ⟨["withStyle"]⟩ ≠ .error .ambiguous := by decide +kernel
  have hempty : numberFormat.lookup ⟨[]⟩ = .error .ambiguous := by decide +kernel
  obtain ⟨hambiguous, hmem⟩ := ((hlater _).2.1 pattern hpattern).resolve_left hnever
  exact ⟨reachable_numberFormat, hgrows, hpattern, hambiguous, hmem, hstyle,
    ((hlater _).2.1 style hstyle).resolve_right fun h => hclear h.1, (hlater _).2.2 hempty⟩

/-! ### Longer names -/

/-- What fits a longer name fits a shorter one. -/
theorem fits_of_prefix {path name longer : List String} (h : name <+: longer)
    (hfits : fits path longer = true) : fits path name = true := by
  rw [fits_iff] at hfits ⊢
  rcases hfits with hpath | hlonger
  · exact List.prefix_or_prefix_of_prefix hpath h
  · exact .inr (h.trans hlonger)

section Qualified

variable {database : Database} {name longer : List String}

theorem Sound.candidates_sublist (hs : Sound database) (h : name <+: longer) :
    (database.candidates ⟨longer⟩).Sublist (database.candidates ⟨name⟩) := by
  rw [hs.candidates_eq, hs.candidates_eq]
  exact List.monotone_filter_right _ fun _ hfits => fits_of_prefix h hfits

/-- A record that is found is one of those that are stored, and fits. -/
theorem Sound.of_lookup_eq_ok (hs : Sound database) {record : Record}
    (hok : database.lookup ⟨name⟩ = .ok record) :
    record ∈ database.records.toList ∧ fits record.entry.fullName name = true := by
  rw [hs.lookup_eq, only_eq_ok_iff] at hok
  have hmem : record ∈ database.matching ⟨name⟩ := by
    rw [hok]
    exact List.mem_cons_self
  exact List.mem_filter.mp hmem

/-- A record that a name finds is found by a longer one that it fits. -/
theorem Sound.lookup_of_fits (hs : Sound database) (h : name <+: longer) {record : Record}
    (hok : database.lookup ⟨name⟩ = .ok record)
    (hfits : fits record.entry.fullName longer = true) :
    database.lookup ⟨longer⟩ = .ok record := by
  have hmem : record ∈ database.candidates ⟨longer⟩ := by
    rw [hs.candidates_eq]
    exact List.mem_filter.mpr ⟨(hs.of_lookup_eq_ok hok).1, hfits⟩
  have hsublist := hs.candidates_sublist h
  rw [hs.lookup_eq_only_candidates, only_eq_ok_iff] at hok ⊢
  rw [hok] at hsublist
  refine (List.sublist_singleton.mp hsublist).resolve_left fun hnil => ?_
  rw [hnil] at hmem
  cases hmem

theorem Sound.lookup_fullName (hs : Sound database) {record : Record}
    (h : record ∈ database.records.toList) :
    database.lookup ⟨record.entry.fullName⟩ = .ok record := by
  rw [hs.lookup_eq, only_eq_ok_iff]
  exact hs.matching_fullName h

/-- The initial parts of the full name that are as long as the reference find what it finds.  Where
the full name ends before the reference does, it is the only one of them. -/
theorem Sound.lookup_initial (hs : Sound database) {record : Record} {initial : List String}
    (hok : database.lookup ⟨name⟩ = .ok record) (hinitial : initial <+: record.entry.fullName)
    (hlength : name.length ≤ initial.length) : database.lookup ⟨initial⟩ = .ok record := by
  obtain ⟨hmem, hfits⟩ := hs.of_lookup_eq_ok hok
  rcases fits_iff.mp hfits with hpast | hwithin
  · have heq : initial = record.entry.fullName :=
      hinitial.eq_of_length_le (Nat.le_trans hpast.length_le hlength)
    rw [heq]
    exact hs.lookup_fullName hmem
  · have hname : name <+: initial := List.prefix_of_prefix_length_le hwithin hinitial hlength
    exact hs.lookup_of_fits hname hok (fits_iff.mpr (.inr hinitial))

end Qualified

/-- **Qualifying a reference further only narrows it.**  Its candidates are some of those of before,
in their order.  If the reference is resolved to a record, so are all initial parts of the full name
that are as long as it, and whatever begins with the full name.  If nothing fits it, nothing fits
it qualified. -/
theorem lookup_of_qualified {database : Database} (h : Reachable database)
    (name more : List String) :
    (database.candidates ⟨name ++ more⟩).Sublist (database.candidates ⟨name⟩) ∧
      (∀ record, database.lookup ⟨name⟩ = .ok record →
        (∀ initial, initial <+: record.entry.fullName → name.length ≤ initial.length →
          database.lookup ⟨initial⟩ = .ok record) ∧
        ∀ rest, database.lookup ⟨record.entry.fullName ++ rest⟩ = .ok record) ∧
      (database.lookup ⟨name⟩ = .error .absent →
        database.lookup ⟨name ++ more⟩ = .error .absent) := by
  have hs := h.sound
  have hsublist := hs.candidates_sublist (List.prefix_append name more)
  refine ⟨hsublist, fun record hok => ⟨fun initial => hs.lookup_initial hok, fun rest => ?_⟩, ?_⟩
  · have hfull := hs.lookup_fullName (hs.of_lookup_eq_ok hok).1
    have hbegins := List.prefix_append record.entry.fullName rest
    exact hs.lookup_of_fits hbegins hfull (fits_iff.mpr (.inl hbegins))
  · rw [hs.lookup_eq_only_candidates, hs.lookup_eq_only_candidates]
    exact only_absent_of_sublist hsublist

/-- A reference into the middle of a full name, one beyond it, and two that fit nothing. -/
theorem lookup_of_qualified_formats :
    let record : Record := ⟨1, formatEntry "NumberFormat" "withPattern"⟩
    Reachable formats ∧
      formats.lookup ⟨["withPattern", "@", "NumberFormat"]⟩ = .ok record ∧
      formats.lookup ⟨["withPattern", "@", "NumberFormat", "NumberFormat", "format"]⟩ = .ok record ∧
      formats.lookup ⟨record.entry.fullName ++ ["beyond"]⟩ = .ok record ∧
      formats.lookup ⟨["withStyle"]⟩ = .error .absent ∧
      formats.lookup ⟨["withStyle"] ++ ["@"]⟩ = .error .absent := by
  intro record
  have hok : formats.lookup ⟨["withPattern", "@", "NumberFormat"]⟩ = .ok record := by
    decide +kernel
  have habsent : formats.lookup ⟨["withStyle"]⟩ = .error .absent := by decide +kernel
  have hinitial : ["withPattern", "@", "NumberFormat", "NumberFormat", "format"] <+:
      record.entry.fullName := by
    decide +kernel
  obtain ⟨_, hfound, _⟩ :=
    lookup_of_qualified reachable_formats ["withPattern", "@", "NumberFormat"] []
  obtain ⟨_, _, hnothing⟩ := lookup_of_qualified reachable_formats ["withStyle"] ["@"]
  exact ⟨reachable_formats, hok, (hfound record hok).1 _ hinitial (by decide),
    (hfound record hok).2 _, habsent, hnothing habsent⟩

end Database

end SymbolIndex
