import Mathlib.Data.List.Basic
import SymbolIndex.Trie

/-!
# Valid tries

A trie is valid when no node has two children of one key and every branch leads to
a value.  The type of tries does not ask for either; both come from the way in which
values are put in.

* `Valid.plant`: a walk that was checked keeps a trie valid.  The branches that it
  makes end in the new leaf, and no child gives way to that leaf, since the node it
  goes to is new.
* `check_eq_collision_iff`, `check_eq_duplicate_iff`: in a valid trie the check walk
  fails for two reasons, and both are read off the list of paths: a path that is
  there ends on the way, or runs on behind the end of the way.
-/

namespace SymbolIndex.Trie

variable {κ α : Type}

/-- The keys of the children of a node. -/
def keys : Trie κ α → List κ
  | empty => []
  | leaf k _ rest => k :: keys rest
  | branch k _ rest => k :: keys rest

/-- Each child of a node has a key of its own, and every branch leads to a value. -/
inductive Valid : Trie κ α → Prop
  | empty : Valid empty
  | leaf {k : κ} {v : α} {rest : Trie κ α} (hk : k ∉ rest.keys) (hr : Valid rest) :
      Valid (leaf k v rest)
  | branch {k : κ} {below rest : Trie κ α} (hk : k ∉ rest.keys) (hne : below ≠ Trie.empty)
      (hb : Valid below) (hr : Valid rest) : Valid (branch k below rest)

theorem Valid.of_leaf {k : κ} {v : α} {rest : Trie κ α} (hv : (Trie.leaf k v rest).Valid) :
    k ∉ rest.keys ∧ rest.Valid := by
  cases hv with
  | leaf hk hr => exact ⟨hk, hr⟩

theorem Valid.of_branch {k : κ} {below rest : Trie κ α} (hv : (Trie.branch k below rest).Valid) :
    k ∉ rest.keys ∧ below ≠ Trie.empty ∧ below.Valid ∧ rest.Valid := by
  cases hv with
  | branch hk hne hb hr => exact ⟨hk, hne, hb, hr⟩

/-! ### The list of paths -/

/-- A path begins with the key of a child. -/
theorem exists_cons_of_mem_toList {trie : Trie κ α} {entry : List κ × α}
    (h : entry ∈ trie.toList) : ∃ k path, entry.1 = k :: path ∧ k ∈ trie.keys := by
  induction trie with
  | empty => simp [toList] at h
  | leaf k v rest ih =>
    rw [toList] at h
    rcases List.mem_cons.mp h with rfl | hr
    · exact ⟨k, [], rfl, List.mem_cons_self⟩
    · obtain ⟨k', path, he, hk⟩ := ih hr
      exact ⟨k', path, he, List.mem_cons_of_mem k hk⟩
  | branch k below rest _ ih =>
    rw [toList] at h
    rcases List.mem_append.mp h with hb | hr
    · obtain ⟨inner, _, rfl⟩ := List.mem_map.mp hb
      exact ⟨k, inner.1, rfl, List.mem_cons_self⟩
    · obtain ⟨k', path, he, hk⟩ := ih hr
      exact ⟨k', path, he, List.mem_cons_of_mem k hk⟩

theorem ne_nil_of_mem_toList {trie : Trie κ α} {entry : List κ × α} (h : entry ∈ trie.toList) :
    entry.1 ≠ [] := by
  obtain ⟨k, path, he, _⟩ := exists_cons_of_mem_toList h
  rw [he]
  exact List.cons_ne_nil k path

theorem Valid.toList_ne_nil {trie : Trie κ α} (hv : trie.Valid) (hne : trie ≠ Trie.empty) :
    trie.toList ≠ [] := by
  induction trie with
  | empty => exact absurd rfl hne
  | leaf k v rest _ => simp [toList]
  | branch k below rest ihb _ =>
    have hb := ihb hv.of_branch.2.2.1 hv.of_branch.2.1
    simp [toList, hb]

theorem Valid.values_ne_nil {trie : Trie κ α} (hv : trie.Valid) (hne : trie ≠ Trie.empty) :
    trie.values ≠ [] := by
  rw [values_eq]
  simpa using hv.toList_ne_nil hne

theorem exists_mem_toList_branch {k : κ} {below rest : Trie κ α} {p : List κ × α → Prop} :
    (∃ entry ∈ (branch k below rest).toList, p entry) ↔
      (∃ entry ∈ below.toList, p (k :: entry.1, entry.2)) ∨ ∃ entry ∈ rest.toList, p entry := by
  constructor
  · rintro ⟨entry, hmem, hp⟩
    rcases List.mem_append.mp hmem with hb | hr
    · obtain ⟨inner, hin, rfl⟩ := List.mem_map.mp hb
      exact .inl ⟨inner, hin, hp⟩
    · exact .inr ⟨entry, hr, hp⟩
  · rintro (⟨inner, hin, hp⟩ | ⟨entry, hr, hp⟩)
    · exact ⟨_, List.mem_append_left _ (List.mem_map.mpr ⟨inner, hin, rfl⟩), hp⟩
    · exact ⟨entry, List.mem_append_right _ hr, hp⟩

theorem prefix_cons_of_not_mem_keys {trie : Trie κ α} {k : κ} (hk : k ∉ trie.keys)
    {entry : List κ × α} (h : entry ∈ trie.toList) (path : List κ) : ¬ entry.1 <+: k :: path := by
  obtain ⟨k', path', he, hk'⟩ := exists_cons_of_mem_toList h
  intro hp
  rw [he, List.cons_prefix_cons] at hp
  exact hk (hp.1 ▸ hk')

theorem cons_prefix_dropLast_iff {k k' : κ} {path path' : List κ} :
    k :: path <+: (k' :: path').dropLast ↔ k = k' ∧ path' ≠ [] ∧ path <+: path'.dropLast := by
  cases path' with
  | nil => simp
  | cons c rest => simp [List.cons_prefix_cons]

theorem cons_prefix_dropLast_of_not_mem_keys {trie : Trie κ α} {k : κ} (hk : k ∉ trie.keys)
    {entry : List κ × α} (h : entry ∈ trie.toList) (path : List κ) :
    ¬ k :: path <+: entry.1.dropLast := by
  obtain ⟨k', path', he, hk'⟩ := exists_cons_of_mem_toList h
  intro hp
  rw [he, cons_prefix_dropLast_iff] at hp
  exact hk (hp.1 ▸ hk')

/-! ### What the check walk finds -/

section Check

variable [DecidableEq κ]

/-- **A collision is a path that ends on the way.** -/
theorem check_eq_collision_iff {trie : Trie κ α} (hv : trie.Valid) {path : List κ} :
    trie.check path = .error .collision ↔ ∃ entry ∈ trie.toList, entry.1 <+: path := by
  fun_induction check trie path with
  | case1 trie =>
    simp only [Except.error.injEq, reduceCtorEq, List.prefix_nil, false_iff, not_exists, not_and]
    intro entry hmem
    exact ne_nil_of_mem_toList hmem
  | case2 => simp [toList]
  | case3 v rest segment path =>
    simp only [true_iff]
    exact ⟨([segment], v), by simp [toList], by simp [List.cons_prefix_cons]⟩
  | case4 k v rest segment path hk ih =>
    rw [ih hv.of_leaf.2, toList, List.exists_mem_cons_iff, List.cons_prefix_cons]
    simp [hk]
  | case5 below rest segment path ih =>
    rw [ih hv.of_branch.2.2.1, exists_mem_toList_branch]
    constructor
    · rintro ⟨entry, hmem, hp⟩
      exact .inl ⟨entry, hmem, List.cons_prefix_cons.mpr ⟨rfl, hp⟩⟩
    · rintro (⟨entry, hmem, hp⟩ | ⟨entry, hmem, hp⟩)
      · exact ⟨entry, hmem, (List.cons_prefix_cons.mp hp).2⟩
      · exact absurd hp (prefix_cons_of_not_mem_keys hv.of_branch.1 hmem path)
  | case6 k below rest segment path hk ih =>
    rw [ih hv.of_branch.2.2.2, exists_mem_toList_branch]
    constructor
    · exact .inr
    · rintro (⟨entry, _, hp⟩ | hr)
      · exact absurd (List.cons_prefix_cons.mp hp).1 hk
      · exact hr

/-- **A duplicate is a way that a path runs along and beyond.**  Only the empty way through the
empty trie is refused without such a path. -/
theorem check_eq_duplicate_iff {trie : Trie κ α} (hv : trie.Valid) {path : List κ}
    (hne : path ≠ [] ∨ trie ≠ empty) :
    trie.check path = .error .duplicate ↔ ∃ entry ∈ trie.toList, path <+: entry.1.dropLast := by
  fun_induction check trie path with
  | case1 trie =>
    obtain ⟨entry, hmem⟩ := List.exists_mem_of_ne_nil _ (hv.toList_ne_nil (by simpa using hne))
    simp only [List.nil_prefix, and_true, true_iff]
    exact ⟨entry, hmem⟩
  | case2 => simp [toList]
  | case3 v rest segment path =>
    simp only [Except.error.injEq, reduceCtorEq, toList, List.exists_mem_cons_iff, false_iff,
      cons_prefix_dropLast_iff, not_or, not_exists, not_and]
    exact ⟨by simp, fun entry hmem => cons_prefix_dropLast_of_not_mem_keys hv.of_leaf.1 hmem path⟩
  | case4 k v rest segment path hk ih =>
    rw [ih hv.of_leaf.2 (.inl (List.cons_ne_nil _ _)), toList, List.exists_mem_cons_iff,
      cons_prefix_dropLast_iff]
    simp
  | case5 below rest segment path ih =>
    rw [ih hv.of_branch.2.2.1 (.inr hv.of_branch.2.1), exists_mem_toList_branch]
    constructor
    · rintro ⟨entry, hmem, hp⟩
      exact .inl ⟨entry, hmem,
        cons_prefix_dropLast_iff.mpr ⟨rfl, ne_nil_of_mem_toList hmem, hp⟩⟩
    · rintro (⟨entry, hmem, hp⟩ | ⟨entry, hmem, hp⟩)
      · exact ⟨entry, hmem, (cons_prefix_dropLast_iff.mp hp).2.2⟩
      · exact absurd hp (cons_prefix_dropLast_of_not_mem_keys hv.of_branch.1 hmem path)
  | case6 k below rest segment path hk ih =>
    rw [ih hv.of_branch.2.2.2 (.inl (List.cons_ne_nil _ _)), exists_mem_toList_branch]
    constructor
    · exact .inr
    · rintro (⟨entry, _, hp⟩ | hr)
      · exact absurd (cons_prefix_dropLast_iff.mp hp).1.symm hk
      · exact hr

end Check

/-! ### What the second walk makes -/

theorem chain_ne_empty (key : κ) (value : α) (path : List κ) : chain key value path ≠ empty := by
  cases path <;> simp [chain]

theorem valid_chain (key : κ) (value : α) (path : List κ) : (chain key value path).Valid := by
  induction path with
  | nil => exact .leaf (by simp [keys]) .empty
  | cons segment path ih =>
    exact .branch (by simp [keys]) (chain_ne_empty key value path) ih .empty

variable [DecidableEq κ]

theorem plant_ne_empty {key : κ} {value : α} {trie : Trie κ α} {path : List κ}
    (h : trie.check path = .ok ()) : (trie.plant key value path).2 ≠ empty := by
  intro he
  have hperm := toList_plant key value h
  rw [he] at hperm
  exact absurd hperm.length_eq (by simp [toList])

theorem mem_keys_plant {key k : κ} {value : α} {trie : Trie κ α} {segment : κ} {path : List κ}
    (h : trie.check (segment :: path) = .ok ())
    (hk : k ∈ (trie.plant key value (segment :: path)).2.keys) : k = segment ∨ k ∈ trie.keys := by
  induction trie with
  | empty => simpa [plant, chain, keys] using hk
  | leaf k' v rest ih =>
    rw [check] at h
    split at h
    · cases h
    · rename_i hne
      rw [plant, if_neg hne] at hk
      rcases List.mem_cons.mp hk with rfl | hr
      · exact .inr List.mem_cons_self
      · exact (ih h hr).imp id (List.mem_cons_of_mem k')
  | branch k' below rest _ ih =>
    rw [check] at h
    split at h
    · rename_i heq
      rw [plant, if_pos heq] at hk
      exact .inr hk
    · rename_i hne
      rw [plant, if_neg hne] at hk
      rcases List.mem_cons.mp hk with rfl | hr
      · exact .inr List.mem_cons_self
      · exact (ih h hr).imp id (List.mem_cons_of_mem k')

/-- **A walk that was checked keeps a trie valid.** -/
theorem Valid.plant {trie : Trie κ α} (hv : trie.Valid) (key : κ) (value : α) {path : List κ}
    (h : trie.check path = .ok ()) : (trie.plant key value path).2.Valid := by
  fun_induction check trie path with
  | case1 => cases h
  | case2 segment path => exact valid_chain key value (segment :: path)
  | case3 => cases h
  | case4 k v rest segment path hk ih =>
    rw [Trie.plant, if_neg hk]
    refine .leaf (fun hmem => ?_) (ih hv.of_leaf.2 h)
    rcases mem_keys_plant h hmem with he | hr
    · exact hk he
    · exact hv.of_leaf.1 hr
  | case5 below rest segment path ih =>
    rw [Trie.plant, if_pos rfl]
    exact .branch hv.of_branch.1 (plant_ne_empty h) (ih hv.of_branch.2.2.1 h) hv.of_branch.2.2.2
  | case6 k below rest segment path hk ih =>
    rw [Trie.plant, if_neg hk]
    refine .branch (fun hmem => ?_) hv.of_branch.2.1 hv.of_branch.2.2.1 (ih hv.of_branch.2.2.2 h)
    rcases mem_keys_plant h hmem with he | hr
    · exact hk he
    · exact hv.of_branch.1 hr

end SymbolIndex.Trie
