import SymbolIndex.Proofs.Database.Growth

/-!
# Taking over the entries of another database

A database takes over another one entry by entry, in their order, up to the first that
is rejected.  The empty database becomes the other one.  Two databases can be taken over
one after the other or put together first: what is rejected depends on single entries
that are there before, so an entry that is let in among many is let in among few.

* `extend_agrees`: all of this, and what is left when an entry is rejected.
-/

namespace SymbolIndex.Database

-- The segments of a full name are never looked at here; unfolding them leads into texts.
attribute [local irreducible] Entry.branch

/-- What is let in behind more entries is let in behind some of them. -/
theorem Sound.insertAll_of_append {database other : Database} (hs : Sound database)
    (ho : Sound other) {list : List Entry}
    (h : (database.insertAll (other.entries ++ list)).2 = none) :
    (other.insertAll list).2 = none := by
  obtain ⟨_, hpairwise⟩ := (hs.insertAll_ok_iff _).mp h
  obtain ⟨_, hlist, hbetween⟩ := List.pairwise_append.mp hpairwise
  exact (ho.insertAll_ok_iff list).mpr ⟨hbetween, hlist⟩

/-- **Merging is joining lists of entries.**  The empty database becomes the other one.  Taking over
two databases one after the other gives the same database as taking over the second joined to the
first, which is possible then.  A merge that fails adds exactly the entries before the first that
is rejected. -/
theorem extend_agrees {database other : Database} (h : Reachable database) (ho : Reachable other) :
    Database.empty.extend other = (other, none) ∧
      (∀ third merged all, database.extend other = (merged, none) →
        merged.extend third = (all, none) →
          ∃ joined, other.extend third = (joined, none) ∧ database.extend joined = (all, none)) ∧
      (∀ merged error, database.extend other = (merged, some error) →
        ∃ front entry back, other.entries = front ++ entry :: back ∧
          merged.entries = database.entries ++ front ∧
          database.insertAll front = (merged, none) ∧
          merged.add entry = (.error error, merged)) := by
  refine ⟨ho.insertAll_entries, ?_, ?_⟩
  · intro third merged all hmerged hall
    have hboth : database.insertAll (other.entries ++ third.entries) = (all, none) := by
      rw [insertAll_append hmerged]
      exact hall
    have hjoined : (other.extend third).2 = none :=
      h.sound.insertAll_of_append ho.sound (congrArg Prod.snd hboth)
    refine ⟨(other.extend third).1, Prod.ext rfl hjoined, ?_⟩
    have hentries : (other.extend third).1.entries = other.entries ++ third.entries :=
      entries_insertAll (Prod.ext rfl hjoined)
    rw [extend, hentries]
    exact hboth
  · intro merged error herror
    obtain ⟨front, entry, back, hother, hfront, hentry⟩ := exists_of_insertAll herror
    exact ⟨front, entry, back, hother, entries_insertAll hfront, hfront, hentry⟩

/-- Two properties of one module, the second of which `formats` has already. -/
def numberFormat : Database :=
  ((empty.add (formatEntry "NumberFormat" "withStyle")).2.add
    (formatEntry "NumberFormat" "withPattern")).2

theorem reachable_numberFormat : Reachable numberFormat := (Reachable.empty.add _).add _

/-- A property of another module. -/
def durationFormat : Database := (empty.add (formatEntry "DurationFormat" "withStyle")).2

theorem reachable_durationFormat : Reachable durationFormat := Reachable.empty.add _

/-- A property of a third module. -/
def currencyFormat : Database := (empty.add (formatEntry "CurrencyFormat" "withStyle")).2

theorem extend_agrees_formats :
    Reachable formats ∧ Reachable durationFormat ∧ Reachable numberFormat ∧
    (∃ merged all joined : Database, durationFormat.extend numberFormat = (merged, none) ∧
      merged.extend currencyFormat = (all, none) ∧
      numberFormat.extend currencyFormat = (joined, none) ∧
      durationFormat.extend joined = (all, none)) ∧
    ∃ (merged : Database) (front back : List Entry),
      formats.extend numberFormat =
        (merged, some ⟨.duplicate, formatEntry "NumberFormat" "withPattern"⟩) ∧
      numberFormat.entries = front ++ formatEntry "NumberFormat" "withPattern" :: back ∧
      merged.entries = formats.entries ++ front := by
  have hmerged : (durationFormat.extend numberFormat).2 = none := by decide +kernel
  have hall : ((durationFormat.extend numberFormat).1.extend currencyFormat).2 = none := by
    decide +kernel
  have hfails : (formats.extend numberFormat).2 =
      some ⟨.duplicate, formatEntry "NumberFormat" "withPattern"⟩ := by
    decide +kernel
  obtain ⟨_, hjoin, _⟩ := extend_agrees reachable_durationFormat reachable_numberFormat
  obtain ⟨joined, hjoined, hsame⟩ :=
    hjoin currencyFormat _ _ (Prod.ext rfl hmerged) (Prod.ext rfl hall)
  obtain ⟨_, _, hfail⟩ := extend_agrees reachable_formats reachable_numberFormat
  obtain ⟨front, entry, back, hentries, hfront, _, hadd⟩ := hfail _ _ (Prod.ext rfl hfails)
  obtain rfl : formatEntry "NumberFormat" "withPattern" = entry := (add_of_error hadd).2
  exact ⟨reachable_formats, reachable_durationFormat, reachable_numberFormat,
    ⟨_, _, joined, Prod.ext rfl hmerged, Prod.ext rfl hall, hjoined, hsame⟩,
    _, front, back, Prod.ext rfl hfails, hentries, hfront⟩

end SymbolIndex.Database
