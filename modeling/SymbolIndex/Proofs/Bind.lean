/-!
# Steps that may fail

A computation of steps that may fail succeeds when each step does.  The proofs about
readers take such a computation apart here, one step at a time.
-/

namespace SymbolIndex

variable {ε ε' α β : Type}

theorem bind_eq_ok_iff {x : Except ε α} {f : α → Except ε β} {b : β} :
    x >>= f = .ok b ↔ ∃ a, x = .ok a ∧ f a = .ok b := by
  cases x with
  | error e => simp [bind, Except.bind]
  | ok a => simp [bind, Except.bind]

theorem mapError_eq_ok_iff {x : Except ε α} {f : ε → ε'} {a : α} :
    x.mapError f = .ok a ↔ x = .ok a := by
  cases x with
  | error e =>
    show Except.error (f e) = Except.ok a ↔ _
    simp
  | ok b =>
    show Except.ok b = Except.ok a ↔ _
    simp

theorem map_eq_ok_iff {x : Except ε α} {f : α → β} {b : β} :
    x.map f = .ok b ↔ ∃ a, x = .ok a ∧ f a = b := by
  cases x with
  | error e => simp [Except.map]
  | ok a => simp [Except.map]

theorem map_eq_error_iff {x : Except ε α} {f : α → β} {error : ε} :
    x.map f = .error error ↔ x = .error error := by
  cases x with
  | error e => simp [Except.map]
  | ok a => simp [Except.map]

/-- Steps succeed when the first one does, and the others do behind it. -/
theorem foldlM_cons_eq_ok_iff {f : α → β → Except ε α} {b : β} {list : List β} {a a' : α} :
    (b :: list).foldlM f a = .ok a' ↔
      ∃ middle, f a b = .ok middle ∧ list.foldlM f middle = .ok a' := by
  rw [List.foldlM_cons, bind_eq_ok_iff]

theorem foldlM_append_eq_ok_iff {f : α → β → Except ε α} {front back : List β} {a a' : α} :
    (front ++ back).foldlM f a = .ok a' ↔
      ∃ middle, front.foldlM f a = .ok middle ∧ back.foldlM f middle = .ok a' := by
  rw [List.foldlM_append, bind_eq_ok_iff]

/-- A property that every step keeps holds at the end of the steps. -/
theorem foldlM_induction {p : α → Prop} {f : α → β → Except ε α} {list : List β}
    (hstep : ∀ a, ∀ b ∈ list, ∀ a', f a b = .ok a' → p a → p a') {a a' : α}
    (h : list.foldlM f a = .ok a') (ha : p a) : p a' := by
  induction list generalizing a with
  | nil =>
    rw [List.foldlM_nil] at h
    cases h
    exact ha
  | cons b rest ih =>
    obtain ⟨next, hb, hrest⟩ := foldlM_cons_eq_ok_iff.mp h
    have hnext := hstep a b List.mem_cons_self next hb ha
    exact ih (fun a b hmem => hstep a b (List.mem_cons_of_mem _ hmem)) hrest hnext

end SymbolIndex
