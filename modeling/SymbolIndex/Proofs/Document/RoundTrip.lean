import SymbolIndex.Proofs.Document.Reader

/-!
# Reading a written document

Reading a document undoes writing it: `parse_write` says that the text of any list of lines
is read as `readDirectly` reads the lines, in success and in failure, down to the position
of the error.

The reader keeps one list of names and cuts it at each line, where the direct reading looks
for the names around a line among all lines before it.  `Follows` relates the two: cut at
any depth, the list of names is what the search finds.  A line keeps this true whatever its
depth is, since the cut removes just those names that the search from then on skips.
-/

namespace SymbolIndex

section Reading

-- Both sides make entries and add them in the same way, so neither is looked into here.
attribute [local irreducible] Entry.ofNames Database.insert

/-- The names of an outline are those around a next line, whatever depth it has. -/
structure Follows (outline : Outline) (earlier : List (Nat × String)) : Prop where
  length_eq : outline.names.length = room earlier
  reverse_take : ∀ depth ≤ room earlier,
    (outline.names.take depth).reverse = ancestors depth earlier

theorem follows_nil (database : Database) : Follows { database } [] where
  length_eq := rfl
  reverse_take := by
    intro depth h
    rw [Nat.le_zero.mp h]
    rfl

/-- A line cuts the names at its depth and adds its own. -/
theorem Follows.cons {outline : Outline} {earlier : List (Nat × String)}
    (h : Follows outline earlier) {depth : Nat} (hdepth : depth ≤ room earlier) (name : String)
    (database : Database) :
    Follows ⟨outline.names.take depth ++ [name], database⟩ ((depth, name) :: earlier) := by
  have hlength : (outline.names.take depth).length = depth := by
    rw [List.length_take, h.length_eq, Nat.min_eq_left hdepth]
  refine ⟨by rw [List.length_append, hlength]; rfl, ?_⟩
  intro d hd
  have hd' : d ≤ depth + 1 := hd
  cases d with
  | zero => rfl
  | succ d =>
    rw [ancestors]
    by_cases heq : depth = d
    · subst heq
      rw [if_pos rfl, List.take_of_length_le (by simp [hlength]), List.reverse_append,
        h.reverse_take depth hdepth]
      rfl
    · rw [if_neg heq, List.take_append_of_le_length (by omega), List.take_take,
        Nat.min_eq_left (by omega), h.reverse_take (d + 1) (by omega)]

theorem enter_of_le {outline : Outline} {depth : Nat} (h : depth ≤ outline.names.length)
    (name : String) :
    outline.enter depth name = .ok { outline with names := outline.names.take depth ++ [name] } :=
  if_neg (by omega)

/-- The entry of a leaf is made from its own name and the names around it. -/
theorem Follows.declare_eq {outline : Outline} {earlier : List (Nat × String)}
    (h : Follows outline earlier) {depth : Nat} (hdepth : depth ≤ room earlier)
    (symbol : SymbolName) (location : Location) (trueOrigin : Option Origin) :
    Outline.declare ⟨outline.names.take depth ++ [symbol.element], outline.database⟩
        ⟨symbol.delimiter, symbol.property, location, trueOrigin⟩ =
      (entryBelow earlier depth (.leaf symbol location trueOrigin) >>=
        outline.database.insert?).map
          fun after => ⟨outline.names.take depth ++ [symbol.element], after⟩ := by
  have hnames : (outline.names.take depth ++ [symbol.element]).reverse =
      symbol.element :: ancestors depth earlier := by
    rw [List.reverse_append, h.reverse_take depth hdepth]
    rfl
  rw [Outline.declare, hnames, entryBelow, if_neg (by omega)]
  cases Entry.ofNames (symbol.element :: ancestors depth earlier)
    ⟨symbol.delimiter, symbol.property, location, trueOrigin⟩ with
  | error error => cases error <;> rfl
  | ok entry =>
    show _ = (outline.database.insert? (some entry)).map _
    simp only [Database.insert?]
    cases outline.database.insert entry <;> rfl

/-- A line is added as the direct reading adds it. -/
theorem Follows.add_eq {outline : Outline} {earlier : List (Nat × String)}
    (h : Follows outline earlier) (line : Line) :
    outline.add line =
      (entryBelow earlier line.depth line.content >>= outline.database.insert?).map
        fun after => ⟨outline.names.take line.depth ++ [line.content.name], after⟩ := by
  obtain ⟨depth, position, content⟩ := line
  by_cases hdepth : depth ≤ room earlier
  · have henter := enter_of_le (h.length_eq ▸ hdepth) content.name
    rw [Outline.add, henter]
    cases content with
    | group name =>
      have hbelow : entryBelow earlier depth (.group name) = .ok none := if_neg (by omega)
      rw [hbelow]
      rfl
    | leaf symbol location trueOrigin => exact h.declare_eq hdepth symbol location trueOrigin
  · have hdeep : room earlier < depth := by omega
    have henter : outline.enter depth content.name = .error .tooManyTabs :=
      if_pos (h.length_eq ▸ hdeep)
    have hbelow : entryBelow earlier depth content = .error .tooManyTabs := if_pos hdeep
    rw [Outline.add, henter, hbelow]
    rfl

theorem le_room_of_entryBelow {earlier : List (Nat × String)} {depth : Nat}
    {content : LineContent} {f : Option Entry → Except Fault Database} {after : Database}
    (h : entryBelow earlier depth content >>= f = .ok after) : depth ≤ room earlier := by
  by_cases hdepth : room earlier < depth
  · have hbelow : entryBelow earlier depth content = .error .tooManyTabs := if_pos hdepth
    rw [hbelow] at h
    cases h
  · omega

/-- The lines that are left are read as the direct reading reads them. -/
theorem foldlM_tokenLines {outline : Outline} {earlier : List (Nat × String)}
    (h : Follows outline earlier) (lines : List SpelledLine) (position : Position) :
    ((SpelledLine.tokenLines position lines).foldlM Outline.read outline).map (·.database) =
      readDirectly outline.database position earlier lines := by
  induction lines generalizing outline earlier position with
  | nil => rfl
  | cons line lines ih =>
    have hread : TokenLine.read ⟨line.tokens position, .ok (line.newline position)⟩ =
        .ok (some ⟨line.depth, line.namePosition position, line.content.content⟩) :=
      read_tokens rfl line position
    have hstep : outline.read ⟨line.tokens position, .ok (line.newline position)⟩ =
        (outline.add ⟨line.depth, line.namePosition position, line.content.content⟩).mapError
          fun fault => ⟨line.namePosition position, fault⟩ := by
      rw [Outline.read, hread]
      rfl
    rw [SpelledLine.tokenLines, List.foldlM_cons, hstep, h.add_eq, readDirectly]
    cases hbelow : entryBelow earlier line.depth line.content.content >>=
        outline.database.insert? with
    | error fault => rfl
    | ok after =>
      have hdepth := le_room_of_entryBelow hbelow
      exact ih (h.cons hdepth line.content.content.name after) (position.advanceBy line.text)

/-- **Reading a document undoes writing it.** -/
theorem parse_write (lines : List SpelledLine) :
    Database.parse (SpelledLine.write lines) = readDirectly .empty .start [] lines := by
  rw [Database.parse, SpelledLine.ofDocument_write,
    ← foldlM_tokenLines (follows_nil .empty) lines .start]
  cases (SpelledLine.tokenLines .start lines).foldlM Outline.read {} <;> rfl

end Reading

/-- Two classes in packages of one folder.  Some of the names need their quotes, and the symbol of
the second class comes from another folder in truth. -/
def quotedLines : List SpelledLine :=
  [⟨0, .group (.bare "lib#a.b" (by decide))⟩,
    ⟨1, .group (.quoted "my \"own\"#src" (by decide))⟩,
    ⟨2, .group (.bare "pkg" (by decide))⟩,
    ⟨3, .group (.quoted "a:b.x" (by decide))⟩,
    ⟨4, .leaf ⟨.quoted "E:1" (by decide), some ⟨"#<", by decide, .bare "size" (by decide)⟩,
      ⟨3, by decide⟩, ⟨10, by decide⟩, ⟨20, by decide⟩, none⟩⟩,
    ⟨2, .group (.quoted "q/r" (by decide))⟩,
    ⟨3, .group (.bare "M.x" (by decide))⟩,
    ⟨4, .leaf ⟨.bare "e" (by decide), none, ⟨1, by decide⟩, ⟨2, by decide⟩, ⟨3, by decide⟩,
      some ⟨.bare "r" (by decide), .quoted "p:q" (by decide), .bare "j" (by decide),
        .bare "f" (by decide)⟩⟩⟩]

/-- Their text, and the entries that are read from it. -/
theorem parse_write_quotedLines :
    SpelledLine.write quotedLines =
      "lib#a.b\n\t\"my \\\"own\\\"#src\"\n\t\tpkg\n\t\t\t\"a:b.x\"\n" ++
        "\t\t\t\t\"E:1\"#<size::3::10::20\n\t\t\"q/r\"\n\t\t\tM.x\n" ++
        "\t\t\t\te::1::2::3::r:\"p:q\":j:f\n" ∧
    (Database.parse (SpelledLine.write quotedLines)).map Database.entries = .ok
      [{ repository := "lib", path := "a/b", project := "my \"own\"", folder := "src",
          package := "pkg", moduleName := "a:b", extension := "x", symbol := ⟨"E:1", "#<", "size"⟩,
          location := ⟨3, 10, 20⟩ },
        { repository := "lib", path := "a/b", project := "my \"own\"", folder := "src",
          package := "q/r", moduleName := "M", extension := "x", symbol := ⟨"e", "", ""⟩,
          location := ⟨1, 2, 3⟩, trueOrigin := some ⟨"r", "p:q", "j", "f"⟩ }] := by
  refine ⟨by decide, ?_⟩
  rw [parse_write]
  rfl

end SymbolIndex
