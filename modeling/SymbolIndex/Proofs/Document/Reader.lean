import SymbolIndex.Proofs.Document.Tokens

/-!
# Reading the tokens of a written line

The readers of a line are run on the tokens that its text gives, one lemma for each: what
it takes off the front, and what it makes of that.

* `ofQuoted_head`: the first name of a leaf splits into its element and its member.
* `read_tokens`: a written line reads as what it says.
-/

namespace SymbolIndex

/-! ### One reader at a time -/

namespace TokenLine

variable {α β : Type} {token newline : Token} {rest : List Token} {kinds : List TokenKind}
  {ending : Except ParseError Token}

theorem run_bind {x : Reader α} {f : α → Reader β} {line behind : TokenLine} {a : α}
    (h : x line = .ok (a, behind)) : (x >>= f) line = f a behind := by
  show Except.bind (x line) (fun v => f v.1 v.2) = _
  rw [h]
  rfl

theorem run_lift {x : Except ParseError α} {a : α} {line : TokenLine} (h : x = .ok a) :
    (liftM x : Reader α) line = .ok (a, line) := by
  rw [h]
  rfl

theorem take_cons : take ⟨token :: rest, ending⟩ = .ok (token, ⟨rest, ending⟩) := rfl

theorem take_nil : take ⟨[], .ok newline⟩ = .ok (newline, ⟨[], .ok newline⟩) := rfl

theorem takeOf_cons (h : token.kind ∈ kinds) :
    takeOf kinds ⟨token :: rest, ending⟩ = .ok (token, ⟨rest, ending⟩) := by
  rw [takeOf, run_bind take_cons, Token.expect_eq_ok_iff.mpr ⟨rfl, h⟩]
  rfl

theorem takeOf_nil (h : newline.kind ∈ kinds) :
    takeOf kinds ⟨[], .ok newline⟩ = .ok (newline, ⟨[], .ok newline⟩) := by
  rw [takeOf, run_bind take_nil, Token.expect_eq_ok_iff.mpr ⟨rfl, h⟩]
  rfl

theorem takeName_cons (h : token.kind = .name) :
    takeName ⟨token :: rest, ending⟩ = .ok (unquote token.text, ⟨rest, ending⟩) := by
  rw [takeName, run_bind (takeOf_cons (by simp [h]))]
  rfl

theorem takeNumber_cons {n : Int} (h : token.kind = .number) (hvalue : numberValue token = .ok n) :
    takeNumber ⟨token :: rest, ending⟩ = .ok (n, ⟨rest, ending⟩) := by
  rw [takeNumber, run_bind (takeOf_cons (by simp [h])), hvalue]
  rfl

theorem takeTabs_append (n : Nat) (position : Position) (h : token.kind ≠ .tab) :
    takeTabs ⟨tabTokens position n ++ token :: rest, ending⟩ = .ok (n, ⟨token :: rest, ending⟩) := by
  have htabs : ∀ t ∈ tabTokens position n, decide (t.kind = .tab) = true :=
    fun t ht => decide_eq_true (kind_of_mem_tabTokens ht)
  have hstop : ∀ t ∈ (token :: rest).head?, decide (t.kind = .tab) = false := by
    rintro _ ⟨⟩
    exact decide_eq_false h
  obtain ⟨htake, hdrop⟩ := span_append htabs hstop
  simp only [takeTabs, htake, hdrop, length_tabTokens]

end TokenLine

/-! ### Numbers -/

theorem dropEnd_eq_self {p : Char → Bool} {text : List Char} (h : ∀ c ∈ text, p c = false) :
    dropEnd p text = text := by
  have hdrop : text.reverse.dropWhile p = text.reverse := by
    cases hreverse : text.reverse with
    | nil => rfl
    | cons c rest =>
      have hmem : c ∈ text := List.mem_reverse.mp (by rw [hreverse]; exact List.mem_cons_self)
      exact List.dropWhile_cons_of_neg (by simp [h c hmem])
  rw [dropEnd, hdrop, List.reverse_reverse]

/-- A number that is written without a sign is read without one. -/
theorem Decimal.word?_toDigits (value : Word) :
    word? (Nat.toDigits 10 value.val) = some (value.val : Int) := by
  have hmin : minWord ≤ (value.val : Int) := by
    rw [minWord]
    omega
  rw [← toList_toString_natCast]
  exact word?_toString ⟨hmin, value.property⟩

theorem numberValue_token (value : Word) (position : Position) :
    TokenLine.numberValue ((Segment.number value).token position) = .ok (value.val : Int) := by
  have hdigits : ∀ c ∈ Nat.toDigits 10 value.val, c.isDigit = true :=
    fun c hc => Decimal.isDigit_of_mem_toDigits hc
  have hdrop : dropEnd (· = '\r') (Nat.toDigits 10 value.val) = Nat.toDigits 10 value.val := by
    refine dropEnd_eq_self fun c hc => decide_eq_false ?_
    rintro rfl
    exact absurd (hdigits _ hc) (by decide)
  have htext : ((Segment.number value).token position).text.toList = Nat.toDigits 10 value.val :=
    String.toList_ofList
  rw [TokenLine.numberValue, htext]
  simp only [hdrop, Decimal.word?_toDigits]
  exact if_pos (List.all_eq_true.mpr hdigits)

theorem unquote_token (doubled : Bool) (name : SpelledName .origin) (position : Position) :
    unquote ((Segment.name doubled name).token position).text = name.name :=
  name.unquote_text

/-! ### The first name of a line -/

theorem ofQuoted_head (leaf : SpelledLeaf) :
    SymbolName.ofQuoted (.ofList (SpelledContent.leaf leaf).head) = leaf.symbol := by
  rw [SpelledContent.head, SpelledLeaf.symbol]
  cases leaf.member with
  | none =>
    rw [Option.elim_none, List.append_nil]
    exact leaf.element.spells.ofQuoted_element
  | some member =>
    exact leaf.element.spells.ofQuoted_member member.known
      (fun _ => member.property.takeAccessor_text) member.property.decode_text

/-! ### The whole line -/

section Line

open TokenLine

variable {newline : Token} (hnewline : newline.kind = .newline)

include hnewline

theorem takeOrigin_tokens (trueOrigin : Option SpelledOrigin) (position : Position) :
    takeOrigin ⟨Segment.tokens position (trueOrigin.elim [] SpelledOrigin.segments),
        .ok newline⟩ =
      .ok (trueOrigin.map SpelledOrigin.origin, ⟨[], .ok newline⟩) := by
  cases trueOrigin with
  | none =>
    rw [Option.elim_none, Segment.tokens, takeOrigin, run_bind (takeOf_nil (by simp [hnewline])),
      if_neg (by simp [hnewline])]
    rfl
  | some origin =>
    have hname (doubled : Bool) (name : SpelledName .origin) (p : Position) :
        ((Segment.name doubled name).token p).kind = .name := rfl
    rw [Option.elim_some]
    simp only [SpelledOrigin.segments, Segment.tokens]
    rw [takeOrigin, run_bind (takeOf_cons (by simp [hname])), if_pos (hname ..)]
    rw [run_bind (takeName_cons (hname ..)), run_bind (takeName_cons (hname ..)),
      run_bind (takeName_cons (hname ..)), run_bind (takeOf_nil (by simp [hnewline]))]
    simp only [unquote_token]
    rfl

theorem takeContent_tokens (content : SpelledContent) (name : Token)
    (hname : name.text = .ofList content.head) (position : Position) :
    takeContent name ⟨Segment.tokens position content.segments, .ok newline⟩ =
      .ok (content.content, ⟨[], .ok newline⟩) := by
  cases content with
  | group spelled =>
    rw [SpelledContent.segments, Segment.tokens, takeContent,
      run_bind (takeOf_nil (by simp [hnewline])), if_pos hnewline, hname]
    show Except.ok (LineContent.group (unquote (.ofList spelled.text)), _) = _
    rw [spelled.unquote_text]
    rfl
  | leaf spelled =>
    have hnumber (value : Word) (p : Position) :
        ((Segment.number value).token p).kind = .number := rfl
    simp only [SpelledContent.segments, List.cons_append, List.nil_append, Segment.tokens]
    rw [takeContent, run_bind (takeOf_cons (by simp [hnumber])), if_neg (by simp [hnumber]),
      run_bind (run_lift (numberValue_token ..)),
      run_bind (takeNumber_cons (hnumber ..) (numberValue_token ..)),
      run_bind (takeNumber_cons (hnumber ..) (numberValue_token ..)),
      run_bind (takeOrigin_tokens hnewline ..), hname, ofQuoted_head]
    rfl

/-- **A written line reads as what it says.** -/
theorem read_tokens (line : SpelledLine) (position : Position) :
    TokenLine.read ⟨line.tokens position, .ok newline⟩ =
      .ok (some ⟨line.depth, line.namePosition position, line.content.content⟩) := by
  have hkind : (line.nameToken position).kind = .name := rfl
  have htabs : takeTabs ⟨line.tokens position, .ok newline⟩ = .ok (line.depth,
      ⟨line.nameToken position ::
        Segment.tokens (line.segmentsPosition position) line.content.segments, .ok newline⟩) :=
    takeTabs_append line.depth position (by simp [hkind])
  have hcontent := takeContent_tokens hnewline line.content (line.nameToken position) rfl
    (line.segmentsPosition position)
  have htake : takeLine ⟨line.tokens position, .ok newline⟩ =
      .ok (some ⟨line.depth, line.namePosition position, line.content.content⟩,
        ⟨[], .ok newline⟩) := by
    rw [takeLine, run_bind htabs, run_bind take_cons, if_pos hkind,
      run_bind hcontent]
    rfl
  show (fun v => v.1) <$> takeLine ⟨line.tokens position, .ok newline⟩ = _
  rw [htake]
  rfl

end Line

end SymbolIndex
