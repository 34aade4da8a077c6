import Mathlib.Data.List.Basic
import SymbolIndex.Proofs.Trie.Valid

/-!
# Search in a trie

A search by a partial path is told through the list of paths: it finds the values
whose path fits, in that one of the two begins with the other.

The walk down the trie takes the path apart from the front, and so does `fits`.  Where
the partial path ends, all paths below fit; where a leaf stops the walk, its path has
ended, and no other path that begins so is there.

* `find_perm_matching`: in a valid trie the search finds exactly the values whose
  paths fit.
* `lookup_eq_only_matching`: it finds one value exactly when one path fits.  This is
  where a branch without values below would be wrong: it would count as a value.
-/

namespace SymbolIndex

/-- Does one of the two begin with the other? -/
def fits {κ : Type} [DecidableEq κ] (path name : List κ) : Bool := path <+: name ∨ name <+: path

theorem fits_iff {κ : Type} [DecidableEq κ] {path name : List κ} :
    fits path name = true ↔ path <+: name ∨ name <+: path :=
  decide_eq_true_iff

theorem fits_nil {κ : Type} [DecidableEq κ] (path : List κ) : fits path [] = true :=
  fits_iff.mpr (.inr List.nil_prefix)

theorem fits_cons_cons {κ : Type} [DecidableEq κ] {k s : κ} {path name : List κ} :
    fits (k :: path) (s :: name) = true ↔ k = s ∧ fits path name = true := by
  rw [fits_iff, fits_iff, List.cons_prefix_cons, List.cons_prefix_cons, eq_comm (a := s),
    ← and_or_left]

theorem fits_cons_self {κ : Type} [DecidableEq κ] (k : κ) (path name : List κ) :
    fits (k :: path) (k :: name) = fits path name := by
  rw [Bool.eq_iff_iff, fits_cons_cons]
  exact and_iff_right rfl

theorem fits_append_append {κ : Type} [DecidableEq κ] (front path name : List κ) :
    fits (front ++ path) (front ++ name) = fits path name := by
  induction front with
  | nil => rfl
  | cons k front ih => rw [List.cons_append, List.cons_append, fits_cons_self, ih]

theorem fits_cons_of_ne {κ : Type} [DecidableEq κ] {k s : κ} (h : k ≠ s) (path name : List κ) :
    fits (k :: path) (s :: name) = false := by
  rw [Bool.eq_false_iff]
  intro hfits
  exact h (fits_cons_cons.mp hfits).1

/-- The only element of a list. -/
def only {α : Type} : List α → Except LookupError α
  | [] => .error .absent
  | [value] => .ok value
  | _ :: _ :: _ => .error .ambiguous

section Only

variable {α : Type} {list : List α}

theorem only_eq_ok_iff {value : α} : only list = .ok value ↔ list = [value] := by
  rcases list with _ | ⟨a, _ | ⟨b, rest⟩⟩ <;> simp [only]

theorem only_eq_absent_iff : only list = .error .absent ↔ list = [] := by
  rcases list with _ | ⟨a, _ | ⟨b, rest⟩⟩ <;> simp [only]

theorem only_eq_ambiguous_iff : only list = .error .ambiguous ↔ 2 ≤ list.length := by
  rcases list with _ | ⟨a, _ | ⟨b, rest⟩⟩ <;> simp [only]

/-- Order plays no part in what is the only element. -/
theorem only_perm {list' : List α} (h : list.Perm list') : only list = only list' := by
  rcases list with _ | ⟨a, _ | ⟨b, rest⟩⟩
  · rw [List.nil_perm.mp h]
  · rw [List.singleton_perm.mp h]
  · rw [only, only_eq_ambiguous_iff.mpr]
    rw [← h.length_eq]
    simp

end Only

namespace Trie

variable {κ α : Type}

/-- The values at a place. -/
def Place.values : Place κ α → List α
  | .leaf value => [value]
  | .node children => children.values

/-- A valid trie has the one value that its walk along single children ends at. -/
theorem Valid.single_eq_only {trie : Trie κ α} (hv : trie.Valid) :
    trie.single = only trie.values := by
  fun_induction single trie with
  | case1 => rfl
  | case2 => rfl
  | case3 k below ih =>
    rw [ih hv.of_branch.2.2.1, values, values, List.append_nil]
  | case4 trie hempty hleaf hbranch =>
    symm
    rw [only_eq_ambiguous_iff]
    cases trie with
    | empty => exact absurd rfl hempty
    | leaf k v rest =>
      have hne : rest ≠ Trie.empty := fun he => hleaf k v (he ▸ rfl)
      have hpos := List.length_pos_iff.mpr (hv.of_leaf.2.values_ne_nil hne)
      rw [values, List.length_cons]
      omega
    | branch k below rest =>
      have hne : rest ≠ Trie.empty := fun he => hbranch k below (he ▸ rfl)
      have hbelow := List.length_pos_iff.mpr (hv.of_branch.2.2.1.values_ne_nil hv.of_branch.2.1)
      have hrest := List.length_pos_iff.mpr (hv.of_branch.2.2.2.values_ne_nil hne)
      rw [values, List.length_append]
      omega

variable [DecidableEq κ]

/-- The values whose paths fit a partial path. -/
def matching (trie : Trie κ α) (name : List κ) : List α :=
  (trie.toList.filter fun entry => fits entry.1 name).map (·.2)

theorem matching_nil (trie : Trie κ α) : trie.matching [] = trie.values := by
  have hall : trie.toList.filter (fun entry => fits entry.1 []) = trie.toList :=
    List.filter_eq_self.mpr fun entry _ => fits_nil entry.1
  rw [matching, hall, values_eq]

theorem matching_of_not_mem_keys {trie : Trie κ α} {segment : κ} (h : segment ∉ trie.keys)
    (name : List κ) : trie.matching (segment :: name) = [] := by
  rw [matching, List.map_eq_nil_iff, List.filter_eq_nil_iff]
  intro entry hmem hfits
  obtain ⟨k, path, he, hk⟩ := exists_cons_of_mem_toList hmem
  rw [he, fits_cons_cons] at hfits
  exact h (hfits.1 ▸ hk)

theorem matching_leaf (k segment : κ) (v : α) (rest : Trie κ α) (name : List κ) :
    (leaf k v rest).matching (segment :: name) =
      (if k = segment then [v] else []) ++ rest.matching (segment :: name) := by
  unfold matching
  rw [toList, List.filter_cons]
  by_cases hk : k = segment
  · have hfits : fits [k] (segment :: name) = true :=
      fits_cons_cons.mpr ⟨hk, fits_iff.mpr (.inl List.nil_prefix)⟩
    rw [if_pos hfits, if_pos hk]
    rfl
  · simp [fits_cons_of_ne hk, hk]

theorem matching_branch (k segment : κ) (below rest : Trie κ α) (name : List κ) :
    (branch k below rest).matching (segment :: name) =
      (if k = segment then below.matching name else []) ++ rest.matching (segment :: name) := by
  unfold matching
  rw [toList, List.filter_append, List.map_append, List.filter_map, List.map_map]
  by_cases hk : k = segment
  · subst hk
    simp [Function.comp_def, fits_cons_self]
  · simp [Function.comp_def, fits_cons_of_ne hk, hk]

/-- **Where a partial path leads are the values whose paths fit it.** -/
theorem Valid.values_descend {trie : Trie κ α} (hv : trie.Valid) (name : List κ) :
    (trie.descend name).elim [] Place.values = trie.matching name := by
  fun_induction descend trie name with
  | case1 children => exact (matching_nil children).symm
  | case2 => rfl
  | case3 v rest segment name =>
    rw [matching_leaf, if_pos rfl, matching_of_not_mem_keys hv.of_leaf.1]
    rfl
  | case4 k v rest segment name hk ih =>
    rw [matching_leaf, if_neg hk, List.nil_append]
    exact ih hv.of_leaf.2
  | case5 below rest segment name ih =>
    rw [matching_branch, if_pos rfl, matching_of_not_mem_keys hv.of_branch.1, List.append_nil]
    exact ih hv.of_branch.2.2.1
  | case6 k below rest segment name hk ih =>
    rw [matching_branch, if_neg hk, List.nil_append]
    exact ih hv.of_branch.2.2.2

/-- What stands where a path leads is valid again. -/
theorem Valid.descend {trie children : Trie κ α} (hv : trie.Valid) {name : List κ}
    (h : trie.descend name = some (.node children)) :
    children.Valid ∧ (name ≠ [] → children ≠ Trie.empty) := by
  fun_induction Trie.descend trie name with
  | case1 =>
    cases h
    exact ⟨hv, fun hne => absurd rfl hne⟩
  | case2 => cases h
  | case3 => cases h
  | case4 k v rest segment name hk ih =>
    exact ⟨(ih hv.of_leaf.2 h).1, fun _ => (ih hv.of_leaf.2 h).2 (List.cons_ne_nil _ _)⟩
  | case5 below rest segment name ih =>
    refine ⟨(ih hv.of_branch.2.2.1 h).1, fun _ => ?_⟩
    by_cases hname : name = []
    · subst hname
      rw [Trie.descend] at h
      cases h
      exact hv.of_branch.2.1
    · exact (ih hv.of_branch.2.2.1 h).2 hname
  | case6 k below rest segment name hk ih =>
    exact ⟨(ih hv.of_branch.2.2.2 h).1, fun _ => (ih hv.of_branch.2.2.2 h).2 (List.cons_ne_nil _ _)⟩

/-- **One value is found exactly when one path fits.** -/
theorem Valid.lookup_eq_only_matching {trie : Trie κ α} (hv : trie.Valid) (name : List κ) :
    trie.lookup name = only (trie.matching name) := by
  rw [← hv.values_descend, lookup]
  cases h : trie.descend name with
  | none => rfl
  | some place =>
    cases place with
    | leaf value => rfl
    | node children => exact (hv.descend h).1.single_eq_only

/-- **The search finds the values whose paths fit.** -/
theorem Valid.find_perm_matching {trie : Trie κ α} (hv : trie.Valid) (name : List κ) :
    (trie.find name).Perm (trie.matching name) := by
  rw [← hv.values_descend, find]
  cases h : trie.descend name with
  | none => exact .refl _
  | some place =>
    cases place with
    | leaf value => exact .refl _
    | node children => simpa [Place.values] using gather_perm [children]

/-- The path to a value leads to its leaf. -/
theorem Valid.descend_of_mem {trie : Trie κ α} (hv : trie.Valid) {path : List κ} {value : α}
    (h : (path, value) ∈ trie.toList) : trie.descend path = some (.leaf value) := by
  induction trie generalizing path with
  | empty => simp [toList] at h
  | leaf k v rest ih =>
    rw [toList] at h
    rcases List.mem_cons.mp h with he | hr
    · cases he
      rw [Trie.descend, if_pos rfl]
    · obtain ⟨k', path', rfl, hk'⟩ := exists_cons_of_mem_toList hr
      rw [Trie.descend, if_neg fun (he : k = k') => hv.of_leaf.1 (he ▸ hk')]
      exact ih hv.of_leaf.2 hr
  | branch k below rest ihb ihr =>
    rw [toList] at h
    rcases List.mem_append.mp h with hb | hr
    · obtain ⟨inner, hin, he⟩ := List.mem_map.mp hb
      cases he
      rw [Trie.descend, if_pos rfl]
      exact ihb hv.of_branch.2.2.1 hin
    · obtain ⟨k', path', rfl, hk'⟩ := exists_cons_of_mem_toList hr
      rw [Trie.descend, if_neg fun (he : k = k') => hv.of_branch.1 (he ▸ hk')]
      exact ihr hv.of_branch.2.2.2 hr

end Trie

end SymbolIndex
