import SymbolIndex.Entry.Canonical
import SymbolIndex.Proofs.Database.Growth

/-!
# The order in which entries are added

Whether some entries go together depends on the order in which they are added, though on
nothing else.  An entry has to bring a new branch.  When the branches of one entry are all
on the way to those of another, the first has to come before the second; the other way
round it brings nothing new.  Every other reason for which one of two entries bars the
other bars the other way round as well.

* `insertAll_perm`: which of the orders of a list are taken as a whole, if one is.  All of
  them are, if there is no such pair.
* `order_matters`: two entries that go together in one order only.
-/

namespace SymbolIndex

-- The segments of a full name are never looked at here; unfolding them leads into texts.
attribute [local irreducible] Entry.branch

/-! ### Pairs of entries -/

section Pairs

variable {a b : Entry}

theorem Entry.branch_prefix_fullName (entry : Entry) :
    entry.branch.reverse <+: entry.fullName := by
  rw [entry.fullName_eq_append]
  exact List.prefix_append ..

/-- Neither of two entries ends on the way to the other, if the earlier lets the later in. -/
theorem Entry.not_prefix_of_not_bars (h : ¬ a.Bars b) :
    ¬ a.fullName <+: b.branch.reverse ∧ ¬ b.fullName <+: a.branch.reverse :=
  ⟨fun hab => h (.inl hab), fun hba => h (.inr (b.branch_prefix_fullName.trans hba))⟩

theorem Entry.branch_ne_of_not_bars (h : ¬ a.Bars b) : a.branch ≠ b.branch :=
  fun heq => h (.inr (heq ▸ List.prefix_rfl))

end Pairs

/-- No entry of the list comes behind one that has all its branches on the way to its own. -/
def ShorterFirst (list : List Entry) : Prop :=
  list.Pairwise fun earlier later => ¬ later.branch.reverse <+: earlier.branch.reverse

/-- No entry of the list has all its branches on the way to those of another. -/
def NoneLeads (list : List Entry) : Prop :=
  ∀ a ∈ list, ∀ b ∈ list, a.branch.reverse <+: b.branch.reverse → a.branch = b.branch

namespace Database

theorem insertAll_empty_ok_iff (list : List Entry) :
    (empty.insertAll list).2 = none ↔ list.Pairwise fun earlier later => ¬ earlier.Bars later := by
  rw [sound_empty.insertAll_ok_iff]
  exact and_iff_right fun stored hmem => nomatch hmem

/-! ### Orders of a list -/

variable {list list' : List Entry}

/-- If a list is taken as a whole, its other orders are when the shorter branches come first. -/
theorem insertAll_of_shorterFirst (h : list.Perm list') (hlist : (empty.insertAll list).2 = none) :
    (empty.insertAll list').2 = none ↔ ShorterFirst list' := by
  rw [insertAll_empty_ok_iff] at hlist ⊢
  -- That neither entry of a pair ends on the way to the other does not depend on their order.
  have hends : list'.Pairwise fun a b =>
      ¬ a.fullName <+: b.branch.reverse ∧ ¬ b.fullName <+: a.branch.reverse :=
    (h.pairwise_iff And.symm).mp (hlist.imp Entry.not_prefix_of_not_bars)
  constructor
  · intro hlist'
    exact hlist'.imp fun hbars hrepeats => hbars (.inr hrepeats)
  · intro hshorter
    refine (hends.and hshorter).imp ?_
    rintro a b ⟨⟨hcollides, _⟩, hrepeats⟩ hbars
    exact hbars.elim hcollides hrepeats

/-- Without such pairs, the branches of a list that is taken differ, and that is all it takes. -/
theorem insertAll_of_noneLeads (h : list.Perm list') (hnone : NoneLeads list)
    (hlist : (empty.insertAll list).2 = none) : (empty.insertAll list').2 = none := by
  have hdistinct : list'.Pairwise fun a b => a.branch ≠ b.branch :=
    (h.pairwise_iff Ne.symm).mp
      (((insertAll_empty_ok_iff list).mp hlist).imp Entry.branch_ne_of_not_bars)
  refine (insertAll_of_shorterFirst h hlist).mpr (hdistinct.imp_of_mem ?_)
  intro a b ha hb hne hprefix
  exact hne (hnone b (h.mem_iff.mpr hb) a (h.mem_iff.mpr ha) hprefix).symm

theorem noneLeads_of_perm (h : list.Perm list') (hnone : NoneLeads list) : NoneLeads list' :=
  fun a ha b hb => hnone a (h.mem_iff.mpr ha) b (h.mem_iff.mpr hb)

/-- **An order of a list that is taken as a whole is taken when no entry comes behind one that its
branches lead to**; without such pairs the order does not matter. -/
theorem insertAll_perm (h : list.Perm list') :
    ((empty.insertAll list).2 = none →
      ((empty.insertAll list').2 = none ↔ ShorterFirst list')) ∧
    (NoneLeads list →
      ((empty.insertAll list).2 = none ↔ (empty.insertAll list').2 = none)) := by
  refine ⟨insertAll_of_shorterFirst h, fun hnone => ⟨insertAll_of_noneLeads h hnone, ?_⟩⟩
  exact insertAll_of_noneLeads h.symm (noneLeads_of_perm h hnone)

/-- A class in the project `q` at `p`. -/
def shallowEntry : Entry where
  repository := "r"
  path := "p"
  project := "q"
  folder := "f"
  package := ""
  moduleName := "M"
  extension := "x"
  symbol := ⟨"E", "", ""⟩

/-- The same class in a repository where `p` is a project itself. -/
def deepEntry : Entry where
  repository := "s"
  path := "z"
  project := "p"
  folder := "q/f"
  package := ""
  moduleName := "M"
  extension := "x"
  symbol := ⟨"E", "", ""⟩

theorem insertAll_perm_shallow :
    (empty.insertAll [shallowEntry, deepEntry, nestedEntry]).2 = none ∧
      (empty.insertAll [nestedEntry, shallowEntry, deepEntry]).2 = none ∧
      NoneLeads [shallowEntry, nestedEntry] ∧
      ((empty.insertAll [shallowEntry, nestedEntry]).2 = none ↔
        (empty.insertAll [nestedEntry, shallowEntry]).2 = none) := by
  have hlist : (empty.insertAll [shallowEntry, deepEntry, nestedEntry]).2 = none := by
    decide +kernel
  have hperm : [shallowEntry, deepEntry, nestedEntry].Perm
      [nestedEntry, shallowEntry, deepEntry] := by
    decide +kernel
  have hshorter : ShorterFirst [nestedEntry, shallowEntry, deepEntry] := by
    unfold ShorterFirst
    decide +kernel
  have hnone : NoneLeads [shallowEntry, nestedEntry] := by
    unfold NoneLeads
    decide +kernel
  exact ⟨hlist, ((insertAll_perm hperm).1 hlist).mpr hshorter, hnone,
    (insertAll_perm (List.Perm.swap ..)).2 hnone⟩

/-- **Two entries that go together in one order only.** -/
theorem order_matters :
    Entry.ofCanonical "r:p:q:f:M.x:E" = .ok shallowEntry ∧
      Entry.ofCanonical "s:z:p:q/f:M.x:E" = .ok deepEntry ∧
      [shallowEntry, deepEntry].Perm [deepEntry, shallowEntry] ∧
      (empty.insertAll [shallowEntry, deepEntry]).2 = none ∧
      (empty.insertAll [deepEntry, shallowEntry]).2 = some ⟨.duplicate, shallowEntry⟩ :=
  ⟨by cbv, by cbv, List.Perm.swap .., by decide +kernel, by decide +kernel⟩

end Database

end SymbolIndex
