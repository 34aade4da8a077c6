import SymbolIndex.Document
import SymbolIndex.Proofs.Bind
import SymbolIndex.Proofs.Name.Quoting

/-!
# What a document declares

Whatever a document looks like, an entry of it comes from one of its lines: a leaf line,
whose first name is split into the symbol, below names that make an entry with it.  Here
the reader of a document is taken apart that way, from the outside in.

* `Outline.read_eq_ok`: a line that is read adds nothing, or the entry that it declares.
* `TokenLine.Declares.symbol_wellFormed`: a declared symbol is one that a name can have.
-/

namespace SymbolIndex

/-! ### Reading a leaf line -/

namespace TokenLine

variable {α β : Type} {line behind : TokenLine}

theorem run_bind_eq_ok_iff {x : Reader α} {f : α → Reader β} {b : β} :
    (x >>= f) line = .ok (b, behind) ↔
      ∃ a middle, x line = .ok (a, middle) ∧ f a middle = .ok (b, behind) := by
  show x line >>= (fun v => f v.1 v.2) = .ok (b, behind) ↔ _
  rw [bind_eq_ok_iff, Prod.exists]

/-- The symbol of a leaf line is its first name, split. -/
theorem exists_ofQuoted_of_takeContent {name : Token} {symbol : SymbolName} {location : Location}
    {trueOrigin : Option Origin}
    (h : takeContent name line = .ok (.leaf symbol location trueOrigin, behind)) :
    symbol = .ofQuoted name.text := by
  obtain ⟨token, line₁, _, h⟩ := run_bind_eq_ok_iff.mp h
  split at h
  · cases h
  · obtain ⟨_, line₂, _, h⟩ := run_bind_eq_ok_iff.mp h
    obtain ⟨_, line₃, _, h⟩ := run_bind_eq_ok_iff.mp h
    obtain ⟨_, line₄, _, h⟩ := run_bind_eq_ok_iff.mp h
    obtain ⟨_, line₅, _, h⟩ := run_bind_eq_ok_iff.mp h
    cases h
    rfl

/-- A line is read by taking all of it. -/
theorem exists_takeLine_of_read {line? : Option Line} (h : line.read = .ok line?) :
    ∃ behind, takeLine line = .ok (line?, behind) := by
  change Prod.fst <$> takeLine line = _ at h
  cases htake : takeLine line with
  | error error =>
    rw [htake] at h
    cases h
  | ok taken =>
    obtain ⟨_, behind⟩ := taken
    rw [htake] at h
    cases h
    exact ⟨behind, rfl⟩

theorem exists_takeContent_of_read {result : Line} (h : line.read = .ok (some result)) :
    ∃ name middle behind, takeContent name middle = .ok (result.content, behind) := by
  obtain ⟨behind, h⟩ := exists_takeLine_of_read h
  obtain ⟨depth, line₁, _, h⟩ := run_bind_eq_ok_iff.mp h
  obtain ⟨token, line₂, _, h⟩ := run_bind_eq_ok_iff.mp h
  split at h
  · obtain ⟨content, line₃, hcontent, h⟩ := run_bind_eq_ok_iff.mp h
    cases h
    exact ⟨token, line₂, _, hcontent⟩
  · split at h
    · cases h
    · obtain ⟨_, line₃, _, h⟩ := run_bind_eq_ok_iff.mp h
      cases h

end TokenLine

/-! ### Declarations -/

theorem Entry.symbol_of_ofNames {element : String} {names : List String}
    {declaration : Declaration} {entry : Entry}
    (h : ofNames (element :: names) declaration = .ok entry) :
    entry.symbol = ⟨element, declaration.delimiter, declaration.property⟩ := by
  unfold ofNames at h
  split at h
  · rename_i hnames
    cases hnames
    obtain ⟨_, _, h⟩ := bind_eq_ok_iff.mp h
    obtain ⟨_, _, h⟩ := bind_eq_ok_iff.mp h
    obtain ⟨_, _, h⟩ := bind_eq_ok_iff.mp h
    cases h
    rfl
  · cases h

/-- A line declares an entry, below some names. -/
def TokenLine.Declares (tokens : TokenLine) (entry : Entry) : Prop :=
  ∃ line symbol location trueOrigin names, tokens.read = .ok (some line) ∧
    line.content = .leaf symbol location trueOrigin ∧
    Entry.ofNames (symbol.element :: names)
      ⟨symbol.delimiter, symbol.property, location, trueOrigin⟩ = .ok entry

/-- A declared symbol is one that a name can have. -/
theorem TokenLine.Declares.symbol_wellFormed {tokens : TokenLine} {entry : Entry}
    (h : tokens.Declares entry) : entry.symbol.WellFormed := by
  obtain ⟨line, symbol, location, trueOrigin, names, hread, hcontent, hnames⟩ := h
  obtain ⟨name, middle, behind, htake⟩ := exists_takeContent_of_read hread
  rw [hcontent] at htake
  rw [Entry.symbol_of_ofNames hnames]
  show symbol.WellFormed
  rw [exists_ofQuoted_of_takeContent htake]
  exact SymbolName.wellFormed_ofQuoted name.text

namespace Outline

theorem enter_eq_ok {outline after : Outline} {depth : Nat} {name : String}
    (h : outline.enter depth name = .ok after) :
    after = { outline with names := outline.names.take depth ++ [name] } := by
  unfold enter at h
  split at h
  · cases h
  · cases h
    rfl

theorem declare_eq_ok {outline after : Outline} {declaration : Declaration}
    (h : outline.declare declaration = .ok after) :
    ∃ entry, Entry.ofNames outline.names.reverse declaration = .ok entry ∧
      outline.database.insert entry = .ok after.database ∧ after.names = outline.names := by
  unfold declare at h
  split at h
  · cases h
  · cases h
  · rename_i entry hentry
    split at h
    · rename_i database hinsert
      cases h
      exact ⟨entry, hentry, hinsert, rfl⟩
    · cases h

/-- **A line adds the entry that it declares, or nothing.** -/
theorem read_eq_ok {outline after : Outline} {tokens : TokenLine}
    (h : outline.read tokens = .ok after) :
    after.database = outline.database ∨
      ∃ entry, tokens.Declares entry ∧ outline.database.insert entry = .ok after.database := by
  obtain ⟨line?, hread, hline⟩ := bind_eq_ok_iff.mp h
  cases line? with
  | none =>
    cases hline
    exact .inl rfl
  | some line =>
    obtain ⟨entered, henter, hcontent⟩ := bind_eq_ok_iff.mp (mapError_eq_ok_iff.mp hline)
    obtain rfl := enter_eq_ok henter
    split at hcontent
    · cases hcontent
      exact .inl rfl
    · rename_i symbol location trueOrigin hleaf
      obtain ⟨entry, hentry, hinsert, _⟩ := declare_eq_ok hcontent
      rw [hleaf, List.reverse_append] at hentry
      exact .inr ⟨entry, ⟨line, symbol, location, trueOrigin, _, hread, hleaf, hentry⟩, hinsert⟩

end Outline

end SymbolIndex
