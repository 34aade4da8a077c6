import SymbolIndex.Proofs.Document.Declarations
import SymbolIndex.Proofs.Lexer.Movement

/-!
# How a document ends

The lines of a document end at its newlines, and the last one ends as reading the tokens
does: at the end of the source, or at an error.  A line that an error breaks off is not
read, since each way to read a line needs a token that ends it, and a line has no such token
but its last.

* `ending_eq_ok`: a document that is read has been read to its end.
-/

namespace SymbolIndex

/-! ### Parting tokens -/

/-- All tokens of a document. -/
def readDocument (source : String) : Reading :=
  (Lexer.ofString source).skipComment.readAll

namespace TokenLine

/-- A document begins where its source does, so a comment at its start is left out. -/
theorem ofDocument_eq (source : String) :
    ofDocument source = split (readDocument source).ending (readDocument source).tokens := rfl

/-- Behind a newline a new line begins, whatever comes there. -/
theorem exists_split_append {newline : Token} (h : newline.kind = .newline) (front : List Token) :
    ∃ line lines, ∀ ending back,
      split ending (front ++ newline :: back) = line :: (lines ++ split ending back) := by
  induction front with
  | nil => exact ⟨⟨[], .ok newline⟩, [], fun _ _ => if_pos h⟩
  | cons token front ih =>
    obtain ⟨line, lines, hsplit⟩ := ih
    by_cases hkind : token.kind = .newline
    · refine ⟨⟨[], .ok token⟩, line :: lines, fun ending back => ?_⟩
      rw [List.cons_append, split, if_pos hkind, hsplit]
      rfl
    · refine ⟨{ line with tokens := token :: line.tokens }, lines, fun ending back => ?_⟩
      rw [List.cons_append, split, if_neg hkind, hsplit]
      rfl

/-- The last line ends as the tokens end, and no other line does. -/
theorem exists_split_eq_append (tokens : List Token) :
    ∃ lines last, (∀ ending, split ending tokens = lines ++ [⟨last, ending⟩]) ∧
      ∀ token ∈ last, token ∈ tokens ∧ token.kind ≠ .newline := by
  induction tokens with
  | nil => exact ⟨[], [], fun _ => rfl, List.forall_mem_nil _⟩
  | cons token tokens ih =>
    obtain ⟨lines, last, hsplit, hlast⟩ := ih
    have hmore : ∀ t ∈ last, t ∈ token :: tokens ∧ t.kind ≠ .newline :=
      fun t ht => ⟨List.mem_cons_of_mem token (hlast t ht).1, (hlast t ht).2⟩
    by_cases hkind : token.kind = .newline
    · refine ⟨⟨[], .ok token⟩ :: lines, last, fun ending => ?_, hmore⟩
      rw [split, if_pos hkind, hsplit]
      rfl
    · cases lines with
      | nil =>
        have hall := List.forall_mem_cons.mpr ⟨⟨List.mem_cons_self, hkind⟩, hmore⟩
        refine ⟨[], token :: last, fun ending => ?_, hall⟩
        rw [split, if_neg hkind, hsplit]
        rfl
      | cons line lines =>
        refine ⟨{ line with tokens := token :: line.tokens } :: lines, last, fun ending => ?_, hmore⟩
        rw [split, if_neg hkind, hsplit]
        rfl

/-! ### Lines that an error breaks off -/

/-- The tokens that are left of a line lead to an error, and none of them ends the line. -/
structure Broken (line : TokenLine) : Prop where
  exists_error : ∃ error, line.ending = .error error
  kind_ne : ∀ token ∈ line.tokens, token.kind ≠ .newline ∧ token.kind ≠ .endOfFile

theorem run_lift_eq_ok_iff {α : Type} {x : Except ParseError α} {a : α} {line behind : TokenLine} :
    (liftM x : Reader α) line = .ok (a, behind) ↔ x = .ok a ∧ line = behind := by
  cases x with
  | error error =>
    show Except.error error = Except.ok (a, behind) ↔ _
    simp
  | ok b =>
    show Except.ok (b, line) = Except.ok (a, behind) ↔ _
    simp

namespace Broken

variable {line behind : TokenLine} {token : Token} {kinds : List TokenKind}

theorem take (h : line.Broken) (htake : TokenLine.take line = .ok (token, behind)) :
    (token.kind ≠ .newline ∧ token.kind ≠ .endOfFile) ∧ behind.Broken := by
  obtain ⟨tokens, ending⟩ := line
  obtain ⟨⟨error, rfl⟩, hkinds⟩ := h
  cases tokens with
  | nil => cases htake
  | cons token rest =>
    cases htake
    obtain ⟨htoken, hrest⟩ := List.forall_mem_cons.mp hkinds
    exact ⟨htoken, ⟨error, rfl⟩, hrest⟩

theorem takeOf (h : line.Broken) (htake : TokenLine.takeOf kinds line = .ok (token, behind)) :
    (token.kind ∈ kinds ∧ token.kind ≠ .newline ∧ token.kind ≠ .endOfFile) ∧ behind.Broken := by
  obtain ⟨taken, middle, htaken, hexpect⟩ := run_bind_eq_ok_iff.mp htake
  obtain ⟨hkind, hmiddle⟩ := h.take htaken
  obtain ⟨hexpected, rfl⟩ := run_lift_eq_ok_iff.mp hexpect
  obtain ⟨rfl, hmem⟩ := Token.expect_eq_ok_iff.mp hexpected
  exact ⟨⟨hmem, hkind⟩, hmiddle⟩

theorem takeTabs (h : line.Broken) {depth : Nat}
    (htake : TokenLine.takeTabs line = .ok (depth, behind)) : behind.Broken := by
  cases htake
  exact ⟨h.exists_error, fun t ht => h.kind_ne t ((List.dropWhile_suffix _).subset ht)⟩

theorem takeNumber (h : line.Broken) {n : Int}
    (htake : TokenLine.takeNumber line = .ok (n, behind)) : behind.Broken := by
  obtain ⟨token, middle, htoken, hvalue⟩ := run_bind_eq_ok_iff.mp htake
  obtain ⟨_, rfl⟩ := run_lift_eq_ok_iff.mp hvalue
  exact (h.takeOf htoken).2

theorem takeName (h : line.Broken) {name : String}
    (htake : TokenLine.takeName line = .ok (name, behind)) : behind.Broken := by
  obtain ⟨token, middle, htoken, hname⟩ := run_bind_eq_ok_iff.mp htake
  cases hname
  exact (h.takeOf htoken).2

/-- No token ends the line. -/
theorem not_takeOf_ending (h : line.Broken) :
    TokenLine.takeOf [.newline, .endOfFile] line ≠ .ok (token, behind) := by
  intro htake
  obtain ⟨⟨hmem, hnewline, hend⟩, _⟩ := h.takeOf htake
  simp [hnewline, hend] at hmem

theorem not_takeOrigin (h : line.Broken) {origin : Option Origin} :
    TokenLine.takeOrigin line ≠ .ok (origin, behind) := by
  intro htake
  obtain ⟨token, line₁, htoken, htake⟩ := run_bind_eq_ok_iff.mp htake
  obtain ⟨⟨hmem, hnewline, hend⟩, h⟩ := h.takeOf htoken
  rw [if_pos (by simpa [hnewline, hend] using hmem)] at htake
  obtain ⟨_, line₂, hname, htake⟩ := run_bind_eq_ok_iff.mp htake
  have h := h.takeName hname
  obtain ⟨_, line₃, hname, htake⟩ := run_bind_eq_ok_iff.mp htake
  have h := h.takeName hname
  obtain ⟨_, line₄, hname, htake⟩ := run_bind_eq_ok_iff.mp htake
  have h := h.takeName hname
  obtain ⟨_, line₅, hend, _⟩ := run_bind_eq_ok_iff.mp htake
  exact h.not_takeOf_ending hend

theorem not_takeContent (h : line.Broken) {name : Token} {content : LineContent} :
    TokenLine.takeContent name line ≠ .ok (content, behind) := by
  intro htake
  obtain ⟨token, line₁, htoken, htake⟩ := run_bind_eq_ok_iff.mp htake
  obtain ⟨⟨_, hnewline, _⟩, h⟩ := h.takeOf htoken
  rw [if_neg hnewline] at htake
  obtain ⟨_, line₂, hvalue, htake⟩ := run_bind_eq_ok_iff.mp htake
  obtain ⟨_, rfl⟩ := run_lift_eq_ok_iff.mp hvalue
  obtain ⟨_, line₃, hnumber, htake⟩ := run_bind_eq_ok_iff.mp htake
  have h := h.takeNumber hnumber
  obtain ⟨_, line₄, hnumber, htake⟩ := run_bind_eq_ok_iff.mp htake
  have h := h.takeNumber hnumber
  obtain ⟨_, line₅, horigin, _⟩ := run_bind_eq_ok_iff.mp htake
  exact h.not_takeOrigin horigin

theorem not_takeLine (h : line.Broken) {line? : Option Line} :
    TokenLine.takeLine line ≠ .ok (line?, behind) := by
  intro htake
  obtain ⟨depth, line₁, htabs, htake⟩ := run_bind_eq_ok_iff.mp htake
  have h := h.takeTabs htabs
  obtain ⟨token, line₂, htoken, htake⟩ := run_bind_eq_ok_iff.mp htake
  obtain ⟨⟨hnewline, hend⟩, h⟩ := h.take htoken
  split at htake
  · obtain ⟨content, line₃, hcontent, _⟩ := run_bind_eq_ok_iff.mp htake
    exact h.not_takeContent hcontent
  · obtain ⟨_, line₃, hexpect, _⟩ := run_bind_eq_ok_iff.mp htake
    obtain ⟨hexpected, _⟩ := run_lift_eq_ok_iff.mp hexpect
    obtain ⟨_, hmem⟩ := Token.expect_eq_ok_iff.mp hexpected
    exact hend (List.mem_singleton.mp hmem)

/-- **A line that an error breaks off is not read.** -/
theorem not_read (h : line.Broken) (line? : Option Line) : line.read ≠ .ok line? := by
  intro hread
  obtain ⟨behind, htake⟩ := exists_takeLine_of_read hread
  exact h.not_takeLine htake

end Broken

end TokenLine

/-- **A document that is read has been read to its end.** -/
theorem ending_eq_ok {source : String} {database : Database}
    (h : Database.parse source = .ok database) :
    ∃ last, (readDocument source).ending = .ok last := by
  obtain ⟨after, hlines, _⟩ := bind_eq_ok_iff.mp h
  obtain ⟨lines, tokens, hsplit, htokens⟩ :=
    TokenLine.exists_split_eq_append (readDocument source).tokens
  rw [TokenLine.ofDocument_eq, hsplit, List.foldlM_append] at hlines
  obtain ⟨middle, _, hlast⟩ := bind_eq_ok_iff.mp hlines
  rw [List.foldlM_cons] at hlast
  obtain ⟨_, hread, _⟩ := bind_eq_ok_iff.mp hlast
  obtain ⟨line?, hread, _⟩ := bind_eq_ok_iff.mp hread
  cases hending : (readDocument source).ending with
  | error error =>
    have hbroken : TokenLine.Broken ⟨tokens, .error error⟩ := by
      refine ⟨⟨error, rfl⟩, fun token hmem => ?_⟩
      obtain ⟨hall, hkind⟩ := htokens token hmem
      exact ⟨hkind, Lexer.kind_ne_of_mem_readAll _ token hall⟩
    rw [hending] at hread
    exact absurd hread (hbroken.not_read line?)
  | ok last => exact ⟨last, rfl⟩

end SymbolIndex
