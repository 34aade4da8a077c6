import SymbolIndex.Document
import SymbolIndex.Proofs.Lexer.Alike

/-!
# What a line is read from

The readers of a line hand positions on, from tokens to the line and to errors, and look at none.
Of a number they read what stands in front of its carriage returns, of any other token its text.
So lines of tokens that agree in this are read alike, whatever relation `P` their positions have:
the lines that are read agree, and so do the errors.

* `ReadersAgree`: two readers do so.
* `read_agrees`: a line is read.
* `foldlM_read_agrees`: many lines are read.
-/

namespace SymbolIndex

variable {P : Position → Position → Prop} {α β γ δ : Type}

/-! ### Tokens -/

/-- Two tokens that are read alike. -/
structure Token.Agrees (P : Position → Position → Prop) (token other : Token) : Prop where
  kind_eq : other.kind = token.kind
  position : P token.position other.position
  text_eq : token.kind ≠ .number → other.text = token.text
  digits_eq : dropEnd (· = '\r') other.text.toList = dropEnd (· = '\r') token.text.toList

theorem Token.Agrees.expect {token other : Token} (h : token.Agrees P other)
    (kinds : List TokenKind) :
    ResultsAgree P (fun t o => t.Agrees P o ∧ t.kind ∈ kinds) (token.expect kinds)
      (other.expect kinds) := by
  unfold Token.expect
  rw [h.kind_eq]
  split
  · rename_i hkind
    exact .ok ⟨h, hkind⟩
  · exact .error _ h.position

/-- Two lines of tokens that are read alike. -/
structure TokenLine.Agrees (P : Position → Position → Prop) (line other : TokenLine) : Prop where
  tokens : List.Forall₂ (Token.Agrees P) line.tokens other.tokens
  ending : ResultsAgree P (Token.Agrees P) line.ending other.ending

structure Line.Agrees (P : Position → Position → Prop) (line other : Line) : Prop where
  depth_eq : other.depth = line.depth
  content_eq : other.content = line.content
  position : P line.position other.position

namespace TokenLine

theorem split_agrees {ending ending' : Except ParseError Token} {tokens others : List Token}
    (hending : ResultsAgree P (Token.Agrees P) ending ending')
    (htokens : List.Forall₂ (Token.Agrees P) tokens others) :
    List.Forall₂ (Agrees P) (split ending tokens) (split ending' others) := by
  induction htokens with
  | nil => exact .cons ⟨.nil, hending⟩ .nil
  | @cons token other rest others htoken _ ih =>
    rw [split, split, htoken.kind_eq]
    generalize split ending rest = lines, split ending' others = lines' at ih ⊢
    split
    · exact .cons ⟨.nil, .ok htoken⟩ ih
    · cases ih with
      | nil => exact .nil
      | cons hline hlines => exact .cons ⟨.cons htoken hline.tokens, hline.ending⟩ hlines

/-! ### Readers -/

/-- Two readers that give related values for lines that agree. -/
def ReadersAgree (P : Position → Position → Prop) (R : α → β → Prop) (x : Reader α)
    (y : Reader β) : Prop :=
  ∀ line other : TokenLine, line.Agrees P other →
    ResultsAgree P (fun v w => R v.1 w.1 ∧ v.2.Agrees P w.2) (x line) (y other)

namespace ReadersAgree

variable {R : α → β → Prop} {S : γ → δ → Prop}

theorem bind {x : Reader α} {y : Reader β} {k : α → Reader γ} {l : β → Reader δ}
    (hxy : ReadersAgree P R x y) (hkl : ∀ a b, R a b → ReadersAgree P S (k a) (l b)) :
    ReadersAgree P S (x >>= k) (y >>= l) :=
  fun line other h => (hxy line other h).bind fun v w hvw =>
    hkl v.1 w.1 hvw.1 v.2 w.2 hvw.2

theorem pure {a : α} {b : β} (h : R a b) : ReadersAgree P R (pure a) (pure b) :=
  fun _ _ hline => .ok ⟨h, hline⟩

theorem lift {x : Except ParseError α} {y : Except ParseError β} (h : ResultsAgree P R x y) :
    ReadersAgree P R (liftM x) (liftM y) := by
  intro line other hline
  cases h with
  | error fault h => exact .error fault h
  | ok h => exact .ok ⟨h, hline⟩

theorem take : ReadersAgree P (Token.Agrees P) take take := by
  rintro ⟨tokens, ending⟩ ⟨others, ending'⟩ ⟨htokens, hending⟩
  cases htokens with
  | nil => exact hending.map fun _ _ h => ⟨h, .nil, hending⟩
  | cons htoken hrest => exact .ok ⟨htoken, hrest, hending⟩

theorem takeOf (kinds : List TokenKind) :
    ReadersAgree P (fun t o => t.Agrees P o ∧ t.kind ∈ kinds) (takeOf kinds) (takeOf kinds) :=
  take.bind fun _ _ h => lift (h.expect kinds)

theorem tabs {tokens others : List Token}
    (h : List.Forall₂ (Token.Agrees P) tokens others) :
    (tokens.takeWhile (·.kind = .tab)).length = (others.takeWhile (·.kind = .tab)).length ∧
      List.Forall₂ (Token.Agrees P) (tokens.dropWhile (·.kind = .tab))
        (others.dropWhile (·.kind = .tab)) := by
  induction h with
  | nil => exact ⟨rfl, .nil⟩
  | @cons token other rest others htoken hrest ih =>
    rw [List.takeWhile_cons, List.takeWhile_cons, List.dropWhile_cons, List.dropWhile_cons,
      htoken.kind_eq]
    split
    · exact ⟨congrArg (· + 1) ih.1, ih.2⟩
    · exact ⟨rfl, .cons htoken hrest⟩

theorem takeTabs : ReadersAgree P Eq takeTabs takeTabs :=
  fun _ _ h => .ok ⟨(tabs h.tokens).1, (tabs h.tokens).2, h.ending⟩

theorem numberValue {token other : Token} (h : token.Agrees P other) :
    ResultsAgree P Eq (numberValue token) (numberValue other) := by
  unfold TokenLine.numberValue
  rw [h.digits_eq]
  dsimp only
  split
  · split
    · exact .ok rfl
    · exact .error _ h.position
  · exact .error _ h.position

theorem takeNumber : ReadersAgree P Eq takeNumber takeNumber :=
  (takeOf _).bind fun _ _ h => lift (numberValue h.1)

/-- A token of the one kind that is asked for has its own text. -/
theorem unquote_eq {token other : Token} (h : token.Agrees P other) (hkind : token.kind = .name) :
    unquote token.text = unquote other.text := by
  rw [h.text_eq (by rw [hkind]; exact TokenKind.noConfusion)]

theorem takeName : ReadersAgree P Eq takeName takeName :=
  (takeOf _).bind fun _ _ h => pure (unquote_eq h.1 (List.mem_singleton.mp h.2))

theorem takeOrigin : ReadersAgree P Eq takeOrigin takeOrigin := by
  refine (takeOf _).bind fun token other h => ?_
  rw [h.1.kind_eq]
  split
  · rename_i hkind
    rw [unquote_eq h.1 hkind]
    refine takeName.bind fun path _ hpath => takeName.bind fun project _ hproject =>
      takeName.bind fun folder _ hfolder => (takeOf _).bind fun _ _ _ => pure ?_
    rw [hpath, hproject, hfolder]
  · exact pure rfl

theorem takeContent {name other : Token} (h : name.Agrees P other) (hkind : name.kind = .name) :
    ReadersAgree P Eq (takeContent name) (takeContent other) := by
  have htext := h.text_eq (by rw [hkind]; exact TokenKind.noConfusion)
  unfold TokenLine.takeContent
  rw [htext]
  refine (takeOf _).bind fun token other h => ?_
  rw [h.1.kind_eq]
  split
  · exact pure rfl
  · refine (lift (numberValue h.1)).bind fun line _ hline => takeNumber.bind fun start _ hstart =>
      takeNumber.bind fun stop _ hstop => takeOrigin.bind fun origin _ horigin => pure ?_
    rw [hline, hstart, hstop, horigin]

theorem takeLine : ReadersAgree P (Option.Rel (Line.Agrees P)) takeLine takeLine := by
  refine takeTabs.bind fun depth _ hdepth => take.bind fun token other h => ?_
  rw [h.kind_eq]
  split
  · rename_i hkind
    refine (takeContent h hkind).bind fun content _ hcontent => pure (.some ?_)
    exact ⟨hdepth.symm, hcontent.symm, h.position⟩
  · split
    · exact pure .none
    · exact (lift (h.expect _)).bind fun _ _ _ => pure .none

end ReadersAgree

/-- **Lines of tokens that agree are read as lines that agree.** -/
theorem read_agrees {line other : TokenLine} (h : line.Agrees P other) :
    ResultsAgree P (Option.Rel (Line.Agrees P)) line.read other.read :=
  (ReadersAgree.takeLine line other h).map fun _ _ hread => hread.1

end TokenLine

/-! ### Documents -/

namespace Outline

theorem read_agrees (outline : Outline) {line other : TokenLine} (h : line.Agrees P other) :
    ResultsAgree P Eq (outline.read line) (outline.read other) := by
  refine (TokenLine.read_agrees h).bind fun line? other? hline => ?_
  cases hline with
  | none => exact .ok rfl
  | @some line other hline =>
    have hadd : outline.add other = outline.add line := by
      rw [add, add, hline.depth_eq, hline.content_eq]
    show ResultsAgree P Eq ((outline.add line).mapError _) ((outline.add other).mapError _)
    rw [hadd]
    cases outline.add line with
    | error fault => exact .error fault hline.position
    | ok after => exact .ok rfl

/-- **Many lines of tokens that agree are read alike.** -/
theorem foldlM_read_agrees {lines others : List TokenLine}
    (h : List.Forall₂ (TokenLine.Agrees P) lines others) (outline : Outline) :
    ResultsAgree P Eq (lines.foldlM read outline) (others.foldlM read outline) := by
  induction h generalizing outline with
  | nil => exact .ok rfl
  | cons hline _ ih =>
    rw [List.foldlM_cons, List.foldlM_cons]
    refine (outline.read_agrees hline).bind fun after other hafter => ?_
    rw [hafter]
    exact ih other

end Outline

end SymbolIndex
