/-!
# Tries

A trie keeps values under paths.  Each child of a node has a key of its own, and
is either a leaf with a value or a branch with children again, so no path to a
value goes through another value.  The children of a node stay in the order in
which they came.

A value comes in by two walks.  The first, `check`, only looks whether the path of
branches brings something new and is free; the second, `plant`, makes the branches
and puts the leaf there.

A partial path finds all values whose path it leads to.  It may also run past a
leaf: what is behind the leaf is not looked at.

What a trie holds is its list of paths and values, `toList`; the other operations
are told through that list.

* `values_eq`: the values are those of the list.
* `plant_of_check`, `toList_plant`: a walk that was checked makes its way, and adds
  one path and value to the list and keeps all others.
* `gather_perm`: all values are gathered, in whatever order.
-/

namespace SymbolIndex

/-- The children of a node. -/
inductive Trie (κ α : Type) where
  | empty
  /-- A child that holds a value, and the children after it. -/
  | leaf (key : κ) (value : α) (rest : Trie κ α)
  /-- A child that has children, and the children after it. -/
  | branch (key : κ) (below rest : Trie κ α)
  deriving DecidableEq, Repr

/-- Why a value cannot be put under a path. -/
inductive Rejection where
  /-- The branches of the path are all there already. -/
  | duplicate
  /-- There is a leaf where the path needs a branch. -/
  | collision
  deriving DecidableEq, Repr

/-- Why a partial path does not find one value. -/
inductive LookupError where
  | absent
  | ambiguous
  deriving DecidableEq, Repr

namespace Trie

variable {κ α : Type}

/-- The paths to the values, with the values. -/
def toList : Trie κ α → List (List κ × α)
  | empty => []
  | leaf key value rest => ([key], value) :: toList rest
  | branch key below rest =>
    (toList below).map (fun (path, value) => (key :: path, value)) ++ toList rest

def values : Trie κ α → List α
  | empty => []
  | leaf _ value rest => value :: values rest
  | branch _ below rest => values below ++ values rest

/-- A single value, under branches for `path` and a leaf for `key`. -/
def chain (key : κ) (value : α) : List κ → Trie κ α
  | [] => leaf key value empty
  | segment :: path => branch segment (chain key value path) empty

/-- Why no value can be put under branches for a path.  At least one of the branches has to be
new. -/
def check [DecidableEq κ] : Trie κ α → List κ → Except Rejection Unit
  | _, [] => .error .duplicate
  | empty, _ :: _ => .ok ()
  | leaf k _ rest, segment :: path =>
    if k = segment then .error .collision else check rest (segment :: path)
  | branch k below rest, segment :: path =>
    if k = segment then check below path else check rest (segment :: path)

/-- Puts a leaf among the children of a node.  A child that has the key gives way to it. -/
def setLeaf [DecidableEq κ] (key : κ) (value : α) : Trie κ α → Trie κ α
  | empty => leaf key value empty
  | leaf k v rest => if k = key then leaf k value rest else leaf k v (setLeaf key value rest)
  | branch k below rest =>
    if k = key then leaf k value rest else branch k below (setLeaf key value rest)

/-- Walks down a path, makes the branches that are not there, and puts a leaf at its end.  A leaf
on the way stops the walk; the trie is given as the walk leaves it. -/
def plant [DecidableEq κ] (key : κ) (value : α) :
    Trie κ α → List κ → Except Rejection Unit × Trie κ α
  | children, [] => (.ok (), children.setLeaf key value)
  | empty, segment :: path => (.ok (), chain key value (segment :: path))
  | leaf k v rest, segment :: path =>
    if k = segment then (.error .collision, leaf k v rest)
    else (plant key value rest (segment :: path)).map id (leaf k v)
  | branch k below rest, segment :: path =>
    if k = segment then (plant key value below path).map id (branch k · rest)
    else (plant key value rest (segment :: path)).map id (branch k below)

/-- Where a partial path leads. -/
inductive Place (κ α : Type) where
  | leaf (value : α)
  | node (children : Trie κ α)
  deriving Repr

/-- Follows a partial path as far as the first leaf. -/
def descend [DecidableEq κ] : Trie κ α → List κ → Option (Place κ α)
  | children, [] => some (.node children)
  | empty, _ :: _ => none
  | leaf k v rest, segment :: path =>
    if k = segment then some (.leaf v) else descend rest (segment :: path)
  | branch k below rest, segment :: path =>
    if k = segment then descend below path else descend rest (segment :: path)

/-- The single value of a trie, found by following single children. -/
def single : Trie κ α → Except LookupError α
  | empty => .error .absent
  | leaf _ value empty => .ok value
  | branch _ below empty => single below
  | _ => .error .ambiguous

/-- The one value that a partial path finds. -/
def lookup [DecidableEq κ] (trie : Trie κ α) (path : List κ) : Except LookupError α :=
  match trie.descend path with
  | none => .error .absent
  | some (.leaf value) => .ok value
  | some (.node children) => children.single

/-- The values of the leaves among the children of a node. -/
def leaves : Trie κ α → List α
  | empty => []
  | leaf _ value rest => value :: leaves rest
  | branch _ _ rest => leaves rest

/-- What is below the branches among the children of a node. -/
def branches : Trie κ α → List (Trie κ α)
  | empty => []
  | leaf _ _ rest => branches rest
  | branch _ below rest => below :: branches rest

/-- The number of nodes and children. -/
def size : Trie κ α → Nat
  | empty => 1
  | leaf _ _ rest => size rest + 1
  | branch _ below rest => size below + size rest

/-- The number of nodes and children in a stack. -/
def stackSize : List (Trie κ α) → Nat
  | [] => 0
  | top :: stack => size top + stackSize stack

theorem stackSize_append (a b : List (Trie κ α)) :
    stackSize (a ++ b) = stackSize a + stackSize b := by
  induction a with
  | nil => rw [List.nil_append, stackSize, Nat.zero_add]
  | cons top a ih => rw [List.cons_append, stackSize, stackSize, ih, Nat.add_assoc]

theorem stackSize_reverse (stack : List (Trie κ α)) : stackSize stack.reverse = stackSize stack := by
  induction stack with
  | nil => rfl
  | cons top stack ih =>
    rw [List.reverse_cons, stackSize_append, ih]
    exact Nat.add_comm ..

theorem stackSize_branches_lt (trie : Trie κ α) : stackSize trie.branches < trie.size := by
  induction trie with
  | empty => exact Nat.zero_lt_one
  | leaf k v rest ih => exact Nat.lt_succ_of_lt ih
  | branch k below rest _ ih => exact Nat.add_lt_add_left ih _

/-- The values below the nodes of a stack.  The leaves of the node on top come first, and the
branches of that node are put on the stack one by one. -/
def gather : List (Trie κ α) → List α
  | [] => []
  | top :: stack => top.leaves ++ gather (top.branches.reverse ++ stack)
termination_by stack => stackSize stack
decreasing_by
  rw [stackSize_append, stackSize_reverse]
  exact Nat.add_lt_add_right (stackSize_branches_lt top) _

/-- All values that a partial path finds, in no particular order. -/
def find [DecidableEq κ] (trie : Trie κ α) (path : List κ) : List α :=
  match trie.descend path with
  | none => []
  | some (.leaf value) => [value]
  | some (.node children) => gather [children]

/-! ## Through the view -/

theorem values_eq (trie : Trie κ α) : trie.values = trie.toList.map (·.2) := by
  induction trie with
  | empty => rfl
  | leaf k v rest ih => simp [values, toList, ih]
  | branch k below rest ihb ihr => simp [values, toList, ihb, ihr, Function.comp_def]

@[simp] theorem toList_chain (key : κ) (value : α) (path : List κ) :
    (chain key value path).toList = [(path ++ [key], value)] := by
  induction path with
  | nil => rfl
  | cons s path ih => simp [chain, toList, ih]

/-- A walk that was checked makes its way. -/
theorem plant_of_check [DecidableEq κ] (key : κ) (value : α) {trie : Trie κ α} {path : List κ}
    (h : trie.check path = .ok ()) : (trie.plant key value path).1 = .ok () := by
  fun_induction check trie path with
  | case1 => cases h
  | case2 => rfl
  | case3 => cases h
  | case4 k v rest segment path hk ih => rw [plant, if_neg hk]; exact ih h
  | case5 k below rest path ih => rw [plant, if_pos rfl]; exact ih h
  | case6 k below rest segment path hk ih => rw [plant, if_neg hk]; exact ih h

/-- A walk that was checked adds one path and its value, and keeps the others. -/
theorem toList_plant [DecidableEq κ] (key : κ) (value : α) {trie : Trie κ α} {path : List κ}
    (h : trie.check path = .ok ()) :
    (trie.plant key value path).2.toList.Perm ((path ++ [key], value) :: trie.toList) := by
  fun_induction check trie path with
  | case1 => cases h
  | case2 => simp [plant, toList]
  | case3 => cases h
  | case4 k v rest segment path hk ih =>
    rw [plant, if_neg hk]
    exact ((ih h).cons _).trans (List.Perm.swap ..)
  | case5 k below rest path ih =>
    rw [plant, if_pos rfl]
    exact ((ih h).map _).append_right _
  | case6 k below rest segment path hk ih =>
    rw [plant, if_neg hk]
    exact ((ih h).append_left _).trans List.perm_middle

theorem perm_leaves_branches (trie : Trie κ α) :
    (trie.leaves ++ trie.branches.flatMap values).Perm trie.values := by
  induction trie with
  | empty => exact .refl _
  | leaf k v rest ih => exact ih.cons v
  | branch k below rest _ ih =>
    rw [leaves, branches, values, List.flatMap_cons]
    exact List.perm_append_comm_assoc .. |>.trans (ih.append_left _)

/-- All values are gathered. -/
theorem gather_perm (stack : List (Trie κ α)) : (gather stack).Perm (stack.flatMap values) := by
  fun_induction gather stack with
  | case1 => exact .refl _
  | case2 top stack ih =>
    rw [List.flatMap_append] at ih
    rw [List.flatMap_cons]
    have hrev := (List.reverse_perm top.branches).flatMap_right values
    have hstack := (ih.trans (hrev.append_right _)).append_left top.leaves
    rw [← List.append_assoc] at hstack
    exact hstack.trans (top.perm_leaves_branches.append_right _)

end Trie

end SymbolIndex
