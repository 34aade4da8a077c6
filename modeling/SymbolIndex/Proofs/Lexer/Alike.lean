import Mathlib.Data.List.Forall2
import SymbolIndex.Lexer.Reading

/-!
# One text, read from two positions

A lexer counts its position along and puts it into tokens and errors; it never looks at it.  So two
lexers that have the same text before them read the same, wherever each of them believes to be, and
only the positions are others.

How these differ is a relation that is kept when both positions move over the same character.  If it
holds between two lexers, then also between what they give: `Lexer.Alike.next` for one call, and
`Lexer.Alike.readAll` for reading to the end.  With the relation that always holds this says that
nothing else depends on positions.  With that of a position and its image it says where a token is
when the text begins elsewhere.
-/

namespace SymbolIndex

variable {R : Position → Position → Prop}

/-- A relation of positions that is kept when both move over the same character. -/
def Position.GoesAlong (R : Position → Position → Prop) : Prop :=
  ∀ {p q : Position}, R p q → ∀ c, R (p.advance c) (q.advance c)

theorem Position.GoesAlong.advanceBy (hR : GoesAlong R) {p q : Position} (h : R p q)
    (text : List Char) : R (p.advanceBy text) (q.advanceBy text) := by
  induction text generalizing p q with
  | nil => exact h
  | cons c text ih => exact ih (hR h c)

/-! ### Results -/

section Results

variable {α β γ δ : Type}

/-- Two results with related values, or with the same fault at related positions. -/
inductive ResultsAgree (R : Position → Position → Prop) (S : α → β → Prop) :
    Except ParseError α → Except ParseError β → Prop
  | error {p q : Position} (fault : Fault) (h : R p q) :
      ResultsAgree R S (.error ⟨p, fault⟩) (.error ⟨q, fault⟩)
  | ok {a : α} {b : β} (h : S a b) : ResultsAgree R S (.ok a) (.ok b)

theorem ResultsAgree.bind {S : α → β → Prop} {T : γ → δ → Prop} {x : Except ParseError α}
    {y : Except ParseError β} {k : α → Except ParseError γ} {l : β → Except ParseError δ}
    (hxy : ResultsAgree R S x y) (hkl : ∀ a b, S a b → ResultsAgree R T (k a) (l b)) :
    ResultsAgree R T (x >>= k) (y >>= l) := by
  cases hxy with
  | error fault h => exact .error fault h
  | ok h => exact hkl _ _ h

theorem ResultsAgree.map {S : α → β → Prop} {T : γ → δ → Prop} {x : Except ParseError α}
    {y : Except ParseError β} {k : α → γ} {l : β → δ} (hxy : ResultsAgree R S x y)
    (hkl : ∀ a b, S a b → T (k a) (l b)) : ResultsAgree R T (x.map k) (y.map l) := by
  cases hxy with
  | error fault h => exact .error fault h
  | ok h => exact .ok (hkl _ _ h)

/-- Results that agree in their values are the same, positions of errors apart. -/
theorem ResultsAgree.mapError_eq {x y : Except ParseError α} (h : ResultsAgree R Eq x y) :
    y.mapError (·.fault) = x.mapError (·.fault) := by
  cases h with
  | error fault _ => rfl
  | ok h => rw [h]

end Results

/-! ### Tokens and lexers -/

/-- Two tokens that are the same but for their positions. -/
structure Token.Alike (R : Position → Position → Prop) (token other : Token) : Prop where
  kind_eq : other.kind = token.kind
  text_eq : other.text = token.text
  position : R token.position other.position

/-- Two open runs that go on in the same way. -/
structure QuotedRun.Alike (R : Position → Position → Prop) (run other : QuotedRun) : Prop where
  escape_eq : other.escape = run.escape
  opened : R run.opened other.opened

theorem QuotedRun.Alike.after {run other : QuotedRun} (h : run.Alike R other) (c : Char) :
    Option.Rel (QuotedRun.Alike R) (run.after c) (other.after c) := by
  unfold QuotedRun.after
  rw [h.escape_eq]
  split
  · exact .none
  · exact .some ⟨rfl, h.opened⟩

/-- Two lexers that have the same before them. -/
structure Lexer.Alike (R : Position → Position → Prop) (lexer other : Lexer) : Prop where
  rest_eq : other.rest = lexer.rest
  stops_eq : other.stops = lexer.stops
  position : R lexer.position other.position
  pushed : Option.Rel (Token.Alike R) lexer.pushed other.pushed

/-- Two calls that give the same and leave lexers that have the same before them. -/
structure Lexer.CallsAlike (R : Position → Position → Prop)
    (call other : Except ParseError Token × Lexer) : Prop where
  result : ResultsAgree R (Token.Alike R) call.1 other.1
  behind : call.2.Alike R other.2

/-- Two readings to the end that give the same. -/
structure Reading.Alike (R : Position → Position → Prop) (reading other : Reading) : Prop where
  tokens : List.Forall₂ (Token.Alike R) reading.tokens other.tokens
  ending : ResultsAgree R (Token.Alike R) reading.ending other.ending
  lexer : reading.lexer.Alike R other.lexer

/-- What is taken of a name, or where the run of quotes opens that does not end. -/
inductive Lexer.CutsAlike (R : Position → Position → Prop) : NameCut → NameCut → Prop
  | error {p q : Position} (h : R p q) : CutsAlike R (.error p) (.error q)
  | ok (text rest : List Char) : CutsAlike R (.ok (text, rest)) (.ok (text, rest))

theorem Lexer.CutsAlike.cons {cut other : NameCut} (h : CutsAlike R cut other) (c : Char) :
    CutsAlike R (cut.cons c) (other.cons c) := by
  cases h with
  | error h => exact .error h
  | ok text rest => exact .ok (c :: text) rest

namespace Lexer

variable (hR : Position.GoesAlong R)

include hR

/-- The cut of a name does not depend on where the name is. -/
theorem takeName_alike {stops : List Char} {run run' : Option QuotedRun} {p q : Position}
    (hrun : Option.Rel (QuotedRun.Alike R) run run') (h : R p q) (source : List Char) :
    CutsAlike R (takeName stops run p source) (takeName stops run' q source) := by
  fun_induction takeName stops run p source generalizing run' q with
  | case1 =>
    cases hrun
    exact .ok [] []
  | case2 =>
    cases hrun with
    | some hrun => exact .error hrun.opened
  | case3 p rest ih =>
    cases hrun
    rw [takeName, if_pos rfl]
    have hopened : Option.Rel (QuotedRun.Alike R) (some ⟨p, false⟩) (some ⟨q, false⟩) :=
      .some ⟨rfl, h⟩
    exact (ih hopened (hR h '"')).cons '"'
  | case4 p c rest hquote hends =>
    cases hrun
    rw [takeName, if_neg hquote, if_pos hends]
    exact .ok [] (c :: rest)
  | case5 p c rest hquote hends ih =>
    cases hrun
    rw [takeName, if_neg hquote, if_neg hends]
    exact (ih .none (hR h c)).cons c
  | case6 run p c rest ih =>
    cases hrun with
    | some hrun =>
      rw [takeName]
      exact (ih (hrun.after c) (hR h c)).cons c

namespace Alike

variable {lexer other : Lexer}

/-! ### Moving -/

theorem move (h : lexer.Alike R other) (text rest : List Char) :
    Alike R { lexer with rest, position := lexer.position.advanceBy text }
      { other with rest, position := other.position.advanceBy text } :=
  ⟨rfl, h.stops_eq, hR.advanceBy h.position text, h.pushed⟩

theorem skipWhile (h : lexer.Alike R other) (p : Char → Bool) :
    (lexer.skipWhile p).Alike R (other.skipWhile p) := by
  unfold Lexer.skipWhile
  rw [h.rest_eq]
  exact h.move hR _ _

theorem skipOne (h : lexer.Alike R other) : lexer.skipOne.Alike R other.skipOne := by
  unfold Lexer.skipOne
  rw [h.rest_eq]
  exact h.move hR _ _

theorem skipAll (h : lexer.Alike R other) : lexer.skipAll.Alike R other.skipAll := by
  unfold Lexer.skipAll
  rw [h.rest_eq]
  exact h.move hR _ _

theorem skipComment (h : lexer.Alike R other) : lexer.skipComment.Alike R other.skipComment := by
  unfold Lexer.skipComment
  rw [h.rest_eq]
  split
  · exact h.skipWhile hR _
  · exact h

theorem skipSeparator (h : lexer.Alike R other) :
    lexer.skipSeparator.Alike R other.skipSeparator := by
  have hone := h.skipOne hR
  unfold Lexer.skipSeparator
  dsimp only
  rw [hone.rest_eq]
  split
  · exact hone.skipOne hR
  · exact hone

/-! ### Names and numbers -/

theorem readName (h : lexer.Alike R other) : CallsAlike R lexer.readName other.readName := by
  have hcut : CutsAlike R (takeName lexer.stops none lexer.position lexer.rest)
      (takeName other.stops none other.position other.rest) := by
    rw [h.rest_eq, h.stops_eq]
    exact takeName_alike hR .none h.position lexer.rest
  have hall := h.skipAll hR
  unfold Lexer.readName
  generalize takeName lexer.stops none lexer.position lexer.rest = cut,
    takeName other.stops none other.position other.rest = cut' at hcut
  cases hcut with
  | error hopened => exact ⟨.error _ hopened, hall⟩
  | ok text rest => exact ⟨.ok ⟨rfl, rfl, h.position⟩, h.move hR text rest⟩

theorem readNumber (h : lexer.Alike R other) :
    CallsAlike R lexer.readNumber other.readNumber := by
  have hbehind := h.skipWhile hR inNumber
  unfold Lexer.readNumber
  dsimp only
  rw [h.rest_eq]
  split
  · exact ⟨.ok ⟨rfl, rfl, h.position⟩, hbehind⟩
  · exact ⟨.error _ hbehind.position, hbehind⟩

theorem readSegment (h : lexer.Alike R other) :
    CallsAlike R lexer.readSegment other.readSegment := by
  unfold Lexer.readSegment
  rw [h.rest_eq]
  split
  · exact h.readNumber hR
  · exact h.readName hR

/-! ### Calls -/

theorem read (h : lexer.Alike R other) : CallsAlike R lexer.read other.read := by
  unfold Lexer.read
  rw [h.rest_eq, h.stops_eq]
  split
  · exact ⟨.ok ⟨rfl, rfl, h.position⟩, h⟩
  · split
    · exact ⟨.ok ⟨rfl, rfl, h.position⟩, h.skipOne hR⟩
    · split
      · exact ⟨.ok ⟨rfl, rfl, h.position⟩, (h.skipOne hR).skipComment hR⟩
      · split
        · exact (h.skipSeparator hR).readSegment hR
        · split
          · exact ⟨.ok ⟨rfl, rfl, h.position⟩, h⟩
          · exact h.readName hR

/-- **Calls of lexers that have the same before them give the same.** -/
theorem next (h : lexer.Alike R other) : CallsAlike R lexer.next other.next := by
  have hpushed := h.pushed
  unfold Lexer.next
  generalize lexer.pushed = pushed, other.pushed = pushed' at hpushed
  cases hpushed with
  | some htoken => exact ⟨.ok htoken, h.rest_eq, h.stops_eq, h.position, .none⟩
  | none => exact (h.skipWhile hR isGap).read hR

theorem exists_next (h : lexer.Alike R other) {result : Except ParseError Token} {behind : Lexer}
    (hnext : lexer.next = (result, behind)) : ∃ result' behind', other.next = (result', behind') ∧
      ResultsAgree R (Token.Alike R) result result' ∧ behind.Alike R behind' := by
  obtain ⟨hresult, hbehind⟩ := h.next hR
  rw [hnext] at hresult hbehind
  exact ⟨_, _, rfl, hresult, hbehind⟩

/-- **Readings to the end give the same.** -/
theorem readAll (h : lexer.Alike R other) : lexer.readAll.Alike R other.readAll := by
  induction lexer using Lexer.readAll.induct generalizing other with
  | case1 lexer error behind hnext =>
    obtain ⟨_, _, hother, hresult, hbehind⟩ := h.exists_next hR hnext
    cases hresult with
    | error fault hposition =>
      rw [readAll_of_error hnext, readAll_of_error hother]
      exact ⟨.nil, .error fault hposition, hbehind⟩
  | case2 lexer token behind hnext hend =>
    obtain ⟨_, _, hother, hresult, hbehind⟩ := h.exists_next hR hnext
    cases hresult with
    | ok htoken =>
      rw [readAll_of_endOfFile hnext hend,
        readAll_of_endOfFile hother (htoken.kind_eq.trans hend)]
      exact ⟨.nil, .ok htoken, hbehind⟩
  | case3 lexer token behind hnext hend _ ih =>
    obtain ⟨_, _, hother, hresult, hbehind⟩ := h.exists_next hR hnext
    cases hresult with
    | ok htoken =>
      rw [readAll_of_token hnext hend, readAll_of_token hother (htoken.kind_eq.symm ▸ hend)]
      obtain ⟨htokens, hending, hlexer⟩ := ih hbehind
      exact ⟨.cons htoken htokens, hending, hlexer⟩

end Alike

end Lexer

end SymbolIndex
