import SymbolIndex.Proofs.Document.Ending

/-!
# The three forms of a line

A line that is read is blank, or it names a group, or it declares a symbol.  Its tokens tell which
of the three it is: there are tabs in front, then there is nothing, or a name alone, or a name with
three numbers behind it and perhaps four names behind these.  The readers of a line are inverted
here one by one, to what they took and what that says.

* `Decimal.word?_eq_some`, `isDecimal_of_numberValue`: what a number says.
* `isWhole_of_mem_ofDocument`: how a line of a document ends, which no reader goes beyond.
* `read_cases`: all that reading a line can give.
-/

namespace SymbolIndex

/-! ### Numbers -/

/-- A word in digits has the value of these. -/
theorem Decimal.word?_eq_some {text : List Char} {n : Int} (hdigits : ∀ d ∈ text, d.isDigit = true)
    (h : word? text = some n) :
    text ≠ [] ∧ n = (Nat.ofDigitChars 10 text 0 : Nat) ∧ n ≤ maxWord := by
  have hhead (sign : Char) (hsign : sign.isDigit = false) : text.head? ≠ some sign := by
    intro heq
    rw [hdigits sign (List.mem_of_head? heq)] at hsign
    cases hsign
  rw [word?, Option.filter_eq_some_iff, integer?, if_neg (hhead '-' (by decide)), unsigned?,
    if_neg (hhead '+' (by decide)), natural?] at h
  obtain ⟨hvalue, hrange⟩ := h
  split at hvalue
  · rename_i hnatural
    cases hvalue
    simp only [Bool.and_eq_true, decide_eq_true_eq] at hrange
    exact ⟨hnatural.1, rfl, hrange.2⟩
  · cases hvalue

/-- The number is written in the token: in digits, with perhaps carriage returns behind them. -/
def Token.IsDecimal (token : Token) (n : Int) : Prop :=
  ∃ digits returns, token.text.toList = digits ++ List.replicate returns '\r' ∧ digits ≠ [] ∧
    (∀ d ∈ digits, d.isDigit = true) ∧ n = (Nat.ofDigitChars 10 digits 0 : Nat)

theorem eq_dropEnd_append (c : Char) (text : List Char) :
    ∃ count, text = dropEnd (· = c) text ++ List.replicate count c := by
  have hall : ∀ d ∈ text.reverse.takeWhile (· = c), d = c := by
    intro d hd
    exact of_decide_eq_true (List.mem_takeWhile_imp (p := fun d => decide (d = c)) hd)
  refine ⟨(text.reverse.takeWhile (· = c)).length, ?_⟩
  rw [← List.reverse_inj, List.reverse_append, List.reverse_replicate, dropEnd,
    List.reverse_reverse, ← List.eq_replicate_of_mem hall, List.takeWhile_append_dropWhile]

theorem isDecimal_of_numberValue {token : Token} {n : Int}
    (h : TokenLine.numberValue token = .ok n) : token.IsDecimal n ∧ n ≤ Decimal.maxWord := by
  unfold TokenLine.numberValue at h
  dsimp only at h
  split at h
  · rename_i hdigits
    rw [List.all_eq_true] at hdigits
    split at h
    · rename_i value hvalue
      cases h
      obtain ⟨hne, heq, hle⟩ := Decimal.word?_eq_some hdigits hvalue
      obtain ⟨returns, htext⟩ := eq_dropEnd_append '\r' token.text.toList
      exact ⟨⟨_, returns, htext, hne, hdigits, heq⟩, hle⟩
    · cases h
  · cases h

/-! ### The tokens of a line -/

/-- Does a token of this kind end a line? -/
def TokenKind.endsLine : TokenKind → Bool
  | newline | endOfFile => true
  | name | number | tab => false

/-- The names of a true origin. -/
structure OriginTokens where
  repository : Token
  path : Token
  project : Token
  folder : Token

namespace OriginTokens

def tokens (names : OriginTokens) : List Token :=
  [names.repository, names.path, names.project, names.folder]

def origin (names : OriginTokens) : Origin where
  repository := unquote names.repository.text
  path := unquote names.path.text
  project := unquote names.project.text
  folder := unquote names.folder.text

end OriginTokens

/-- The tokens of a leaf line behind its tabs. -/
structure LeafTokens where
  name : Token
  line : Token
  offsetStart : Token
  offsetEnd : Token
  origin : Option OriginTokens

namespace LeafTokens

/-- The tokens behind the name. -/
def place (leaf : LeafTokens) : List Token :=
  leaf.line :: leaf.offsetStart :: leaf.offsetEnd :: leaf.origin.elim [] OriginTokens.tokens

def symbol (leaf : LeafTokens) : SymbolName := .ofQuoted leaf.name.text

def trueOrigin (leaf : LeafTokens) : Option Origin := leaf.origin.map OriginTokens.origin

/-- The location is written in the three numbers. -/
structure Locates (leaf : LeafTokens) (location : Location) : Prop where
  line : leaf.line.IsDecimal location.line
  offsetStart : leaf.offsetStart.IsDecimal location.offsetStart
  offsetEnd : leaf.offsetEnd.IsDecimal location.offsetEnd

end LeafTokens

/-- All numbers of a location fit in a word. -/
structure Location.IsBounded (location : Location) : Prop where
  line : location.line ≤ Decimal.maxWord
  offsetStart : location.offsetStart ≤ Decimal.maxWord
  offsetEnd : location.offsetEnd ≤ Decimal.maxWord

namespace TokenLine

/-- The number of tabs in front. -/
def depth (line : TokenLine) : Nat := (line.tokens.takeWhile (·.kind = .tab)).length

/-- There are tabs alone in the line. -/
def IsBlank (line : TokenLine) : Prop := ∀ token ∈ line.tokens, token.kind = .tab

/-- The line has a name behind tabs. -/
structure IsGroup (line : TokenLine) (tabs : List Token) (name : Token) : Prop where
  tokens_eq : line.tokens = tabs ++ [name]
  tabs : ∀ tab ∈ tabs, tab.kind = .tab
  name : name.kind = .name

/-- The line has the tokens of a leaf behind tabs. -/
structure IsLeaf (line : TokenLine) (tabs : List Token) (leaf : LeafTokens) : Prop where
  tokens_eq : line.tokens = tabs ++ leaf.name :: leaf.place
  tabs : ∀ tab ∈ tabs, tab.kind = .tab
  name : leaf.name.kind = .name
  numbers : ∀ number ∈ [leaf.line, leaf.offsetStart, leaf.offsetEnd], number.kind = .number
  origin : ∀ names ∈ leaf.origin, ∀ name ∈ names.tokens, name.kind = .name

/-- Is there a number in the line? -/
def hasNumbers (line : TokenLine) : Bool := line.tokens.any (·.kind = .number)

section Forms

variable {line : TokenLine} {tabs : List Token}

theorem IsBlank.hasNumbers_eq (h : line.IsBlank) : line.hasNumbers = false := by
  rw [hasNumbers, List.any_eq_false]
  intro token hmem
  simp [h token hmem]

theorem IsBlank.not_mem {token : Token} (h : line.IsBlank) (hkind : token.kind = .name) :
    token ∉ line.tokens := by
  intro hmem
  rw [h token hmem] at hkind
  cases hkind

theorem IsBlank.not_isGroup {name : Token} (h : line.IsBlank) : ¬ line.IsGroup tabs name := by
  intro hgroup
  apply h.not_mem hgroup.name
  rw [hgroup.tokens_eq]
  simp

theorem IsBlank.not_isLeaf {leaf : LeafTokens} (h : line.IsBlank) : ¬ line.IsLeaf tabs leaf := by
  intro hleaf
  apply h.not_mem hleaf.name
  rw [hleaf.tokens_eq]
  simp

theorem IsGroup.hasNumbers_eq {name : Token} (h : line.IsGroup tabs name) :
    line.hasNumbers = false := by
  rw [hasNumbers, h.tokens_eq, List.any_eq_false]
  intro token hmem
  rcases List.mem_append.mp hmem with hmem | hmem
  · simp [h.tabs token hmem]
  · simp [List.mem_singleton.mp hmem, h.name]

theorem IsGroup.getLast?_tokens {name : Token} (h : line.IsGroup tabs name) :
    line.tokens.getLast? = some name := by
  rw [h.tokens_eq, List.getLast?_concat]

theorem IsGroup.name_eq {tabs' : List Token} {name name' : Token} (h : line.IsGroup tabs name)
    (h' : line.IsGroup tabs' name') : name = name' := by
  have hlast := h.getLast?_tokens
  rw [h'.getLast?_tokens] at hlast
  exact (Option.some.inj hlast).symm

theorem IsLeaf.hasNumbers_eq {leaf : LeafTokens} (h : line.IsLeaf tabs leaf) :
    line.hasNumbers = true := by
  rw [hasNumbers, List.any_eq_true]
  refine ⟨leaf.line, ?_, decide_eq_true (h.numbers _ List.mem_cons_self)⟩
  rw [h.tokens_eq, LeafTokens.place]
  simp

end Forms

/-! ### How a line ends -/

/-- The line is whole: the token at its end, if there is one, ends a line, and none before does. -/
structure IsWhole (line : TokenLine) : Prop where
  tokens : ∀ token ∈ line.tokens, token.kind.endsLine = false
  ending : ∀ token, line.ending = .ok token → token.kind.endsLine = true

theorem isWhole_of_mem_split {ending : Except ParseError Token} {tokens : List Token}
    (hending : ∀ token, ending = .ok token → token.kind.endsLine = true)
    (htokens : ∀ token ∈ tokens, token.kind ≠ .endOfFile) :
    ∀ line ∈ split ending tokens, line.IsWhole := by
  induction tokens with
  | nil =>
    intro line hmem
    rw [split, List.mem_singleton] at hmem
    rw [hmem]
    exact ⟨List.forall_mem_nil _, hending⟩
  | cons token tokens ih =>
    obtain ⟨htoken, htokens⟩ := List.forall_mem_cons.mp htokens
    have hlines := ih htokens
    rw [split]
    split
    · rename_i hkind
      refine List.forall_mem_cons.mpr ⟨⟨List.forall_mem_nil _, ?_⟩, hlines⟩
      rintro _ ⟨⟩
      rw [hkind]
      rfl
    · rename_i hkind
      have htoken : token.kind.endsLine = false := by
        cases hk : token.kind <;> simp_all [TokenKind.endsLine]
      generalize split ending tokens = lines at hlines ⊢
      cases lines with
      | nil => exact List.forall_mem_nil _
      | cons line lines =>
        obtain ⟨hline, hlines⟩ := List.forall_mem_cons.mp hlines
        refine List.forall_mem_cons.mpr ⟨⟨?_, hline.ending⟩, hlines⟩
        exact List.forall_mem_cons.mpr ⟨htoken, hline.tokens⟩

/-- Every line of a document is whole. -/
theorem isWhole_of_mem_ofDocument {source : String} :
    ∀ line ∈ ofDocument source, line.IsWhole := by
  rw [ofDocument_eq]
  refine isWhole_of_mem_split (fun token htoken => ?_) (Lexer.kind_ne_of_mem_readAll _)
  rw [Lexer.kind_of_ending_readAll htoken]
  rfl

/-! ### One reader at a time -/

namespace IsWhole

variable {line behind : TokenLine} {token : Token} {kinds : List TokenKind}

/-- A token is taken off the front, or the one at the end is looked at. -/
theorem take (h : line.IsWhole) (htake : TokenLine.take line = .ok (token, behind)) :
    (line.tokens = token :: behind.tokens ∧ behind.IsWhole ∧ token.kind.endsLine = false) ∨
      (line.tokens = [] ∧ behind = line ∧ token.kind.endsLine = true) := by
  obtain ⟨tokens, ending⟩ := line
  cases tokens with
  | nil =>
    obtain ⟨last, hlast, heq⟩ := map_eq_ok_iff.mp htake
    cases heq
    exact .inr ⟨rfl, rfl, h.ending _ hlast⟩
  | cons first rest =>
    cases htake
    obtain ⟨hfirst, hrest⟩ := List.forall_mem_cons.mp h.tokens
    exact .inl ⟨rfl, ⟨hrest, h.ending⟩, hfirst⟩

theorem takeOf (h : line.IsWhole) (htake : TokenLine.takeOf kinds line = .ok (token, behind)) :
    token.kind ∈ kinds ∧
      ((line.tokens = token :: behind.tokens ∧ behind.IsWhole ∧ token.kind.endsLine = false) ∨
        (line.tokens = [] ∧ behind = line ∧ token.kind.endsLine = true)) := by
  obtain ⟨taken, middle, htaken, hexpect⟩ := run_bind_eq_ok_iff.mp htake
  obtain ⟨hexpected, rfl⟩ := run_lift_eq_ok_iff.mp hexpect
  obtain ⟨rfl, hmem⟩ := Token.expect_eq_ok_iff.mp hexpected
  exact ⟨hmem, h.take htaken⟩

theorem takeTabs {count : Nat} (h : line.IsWhole)
    (htake : TokenLine.takeTabs line = .ok (count, behind)) :
    count = line.depth ∧ behind.IsWhole ∧
      ∃ tabs, line.tokens = tabs ++ behind.tokens ∧ ∀ tab ∈ tabs, tab.kind = .tab := by
  cases htake
  refine ⟨rfl, ⟨fun token hmem => ?_, h.ending⟩, line.tokens.takeWhile (·.kind = .tab), ?_, ?_⟩
  · exact h.tokens token ((List.dropWhile_suffix _).subset hmem)
  · exact List.takeWhile_append_dropWhile.symm
  · intro tab hmem
    simpa using List.mem_takeWhile_imp hmem

/-- A token of a kind that ends no line is taken off the front. -/
theorem takeOf_kind {kind : TokenKind} (h : line.IsWhole) (hkind : kind.endsLine = false)
    (htake : TokenLine.takeOf [kind] line = .ok (token, behind)) :
    line.tokens = token :: behind.tokens ∧ behind.IsWhole ∧ token.kind = kind := by
  obtain ⟨hmem, ⟨htokens, hbehind, _⟩ | ⟨_, _, hends⟩⟩ := h.takeOf htake
  · exact ⟨htokens, hbehind, List.mem_singleton.mp hmem⟩
  · rw [List.mem_singleton.mp hmem, hkind] at hends
    cases hends

theorem takeNumber {n : Int} (h : line.IsWhole)
    (htake : TokenLine.takeNumber line = .ok (n, behind)) :
    ∃ token, line.tokens = token :: behind.tokens ∧ behind.IsWhole ∧ token.kind = .number ∧
      numberValue token = .ok n := by
  obtain ⟨token, middle, htoken, hlift⟩ := run_bind_eq_ok_iff.mp htake
  obtain ⟨hvalue, rfl⟩ := run_lift_eq_ok_iff.mp hlift
  obtain ⟨htokens, hbehind, hkind⟩ := h.takeOf_kind rfl htoken
  exact ⟨token, htokens, hbehind, hkind, hvalue⟩

theorem takeName {name : String} (h : line.IsWhole)
    (htake : TokenLine.takeName line = .ok (name, behind)) :
    ∃ token, line.tokens = token :: behind.tokens ∧ behind.IsWhole ∧ token.kind = .name ∧
      name = unquote token.text := by
  obtain ⟨token, middle, htoken, hname⟩ := run_bind_eq_ok_iff.mp htake
  cases hname
  obtain ⟨htokens, hbehind, hkind⟩ := h.takeOf_kind rfl htoken
  exact ⟨token, htokens, hbehind, hkind, rfl⟩

/-- Behind the numbers there is nothing, or there are four names. -/
theorem takeOrigin {trueOrigin : Option Origin} (h : line.IsWhole)
    (htake : TokenLine.takeOrigin line = .ok (trueOrigin, behind)) :
    ∃ origin : Option OriginTokens, line.tokens = origin.elim [] OriginTokens.tokens ∧
      (∀ names ∈ origin, ∀ name ∈ names.tokens, name.kind = .name) ∧
      trueOrigin = origin.map OriginTokens.origin := by
  obtain ⟨first, line₁, hfirst, htake⟩ := run_bind_eq_ok_iff.mp htake
  obtain ⟨hmem, hcases⟩ := h.takeOf hfirst
  split at htake
  · rename_i hkind
    rcases hcases with ⟨htokens, h₁, _⟩ | ⟨_, _, hends⟩
    · obtain ⟨_, line₂, hname, htake⟩ := run_bind_eq_ok_iff.mp htake
      obtain ⟨second, htokens₁, h₂, hsecond, rfl⟩ := h₁.takeName hname
      obtain ⟨_, line₃, hname, htake⟩ := run_bind_eq_ok_iff.mp htake
      obtain ⟨third, htokens₂, h₃, hthird, rfl⟩ := h₂.takeName hname
      obtain ⟨_, line₄, hname, htake⟩ := run_bind_eq_ok_iff.mp htake
      obtain ⟨fourth, htokens₃, h₄, hfourth, rfl⟩ := h₃.takeName hname
      obtain ⟨last, line₅, hlast, htake⟩ := run_bind_eq_ok_iff.mp htake
      cases htake
      obtain ⟨hmem, ⟨_, _, hends⟩ | ⟨htokens₄, _, _⟩⟩ := h₄.takeOf hlast
      · rcases List.mem_pair.mp hmem with hkind | hkind <;> rw [hkind] at hends <;> cases hends
      · refine ⟨some ⟨first, second, third, fourth⟩, ?_, ?_, rfl⟩
        · rw [htokens, htokens₁, htokens₂, htokens₃, htokens₄]
          rfl
        · rintro _ ⟨⟩ name hname
          simp only [OriginTokens.tokens, List.mem_cons, List.not_mem_nil, or_false] at hname
          rcases hname with rfl | rfl | rfl | rfl <;> assumption
    · rw [hkind] at hends
      cases hends
  · rename_i hkind
    cases htake
    refine ⟨none, ?_, by simp, rfl⟩
    rcases hcases with ⟨_, _, hends⟩ | ⟨htokens, _, _⟩
    · simp only [List.mem_cons, List.not_mem_nil, or_false] at hmem
      rcases hmem with hname | hend | hend
      · exact absurd hname hkind
      · rw [hend] at hends
        cases hends
      · rw [hend] at hends
        cases hends
    · exact htokens

/-- Behind the name of a line there is nothing, or there is the place of a symbol. -/
theorem takeContent {name : Token} {content : LineContent} (h : line.IsWhole)
    (htake : TokenLine.takeContent name line = .ok (content, behind)) :
    (line.tokens = [] ∧ content = .group (unquote name.text)) ∨
      ∃ leaf : LeafTokens, ∃ location : Location, leaf.name = name ∧ line.tokens = leaf.place ∧
        (∀ number ∈ [leaf.line, leaf.offsetStart, leaf.offsetEnd], number.kind = .number) ∧
        (∀ names ∈ leaf.origin, ∀ name ∈ names.tokens, name.kind = .name) ∧
        leaf.Locates location ∧ location.IsBounded ∧
        content = .leaf leaf.symbol location leaf.trueOrigin := by
  obtain ⟨first, line₁, hfirst, htake⟩ := run_bind_eq_ok_iff.mp htake
  obtain ⟨hmem, hcases⟩ := h.takeOf hfirst
  split at htake
  · rename_i hkind
    cases htake
    rcases hcases with ⟨_, _, hends⟩ | ⟨htokens, _, _⟩
    · rw [hkind] at hends
      cases hends
    · exact .inl ⟨htokens, rfl⟩
  · rename_i hkind
    have hnumber : first.kind = .number := by
      rcases List.mem_pair.mp hmem with hnumber | hnewline
      · exact hnumber
      · exact absurd hnewline hkind
    rcases hcases with ⟨htokens, h₁, _⟩ | ⟨_, _, hends⟩
    · obtain ⟨lineNumber, line₂, hlift, htake⟩ := run_bind_eq_ok_iff.mp htake
      obtain ⟨hvalue₁, rfl⟩ := run_lift_eq_ok_iff.mp hlift
      obtain ⟨offsetStart, line₃, htaken, htake⟩ := run_bind_eq_ok_iff.mp htake
      obtain ⟨second, htokens₁, h₂, hsecond, hvalue₂⟩ := h₁.takeNumber htaken
      obtain ⟨offsetEnd, line₄, htaken, htake⟩ := run_bind_eq_ok_iff.mp htake
      obtain ⟨third, htokens₂, h₃, hthird, hvalue₃⟩ := h₂.takeNumber htaken
      obtain ⟨trueOrigin, line₅, htaken, htake⟩ := run_bind_eq_ok_iff.mp htake
      obtain ⟨origin, htokens₃, horigin, rfl⟩ := h₃.takeOrigin htaken
      cases htake
      obtain ⟨hdecimal₁, hle₁⟩ := isDecimal_of_numberValue hvalue₁
      obtain ⟨hdecimal₂, hle₂⟩ := isDecimal_of_numberValue hvalue₂
      obtain ⟨hdecimal₃, hle₃⟩ := isDecimal_of_numberValue hvalue₃
      refine .inr ⟨⟨name, first, second, third, origin⟩, _, rfl, ?_, ?_, horigin,
        ⟨hdecimal₁, hdecimal₂, hdecimal₃⟩, ⟨hle₁, hle₂, hle₃⟩, rfl⟩
      · rw [htokens, htokens₁, htokens₂, htokens₃]
        rfl
      · simp [hnumber, hsecond, hthird]
    · rw [hnumber] at hends
      cases hends

end IsWhole

/-! ### The whole line -/

/-- **All that reading a line can give.** -/
theorem read_cases {line : TokenLine} {line? : Option Line} (h : line.IsWhole)
    (hread : line.read = .ok line?) :
    (line.IsBlank ∧ line? = none) ∨
      (∃ tabs name, line.IsGroup tabs name ∧
        line? = some ⟨line.depth, name.position, .group (unquote name.text)⟩) ∨
      ∃ tabs leaf location, line.IsLeaf tabs leaf ∧ leaf.Locates location ∧ location.IsBounded ∧
        line? = some ⟨line.depth, leaf.name.position,
          .leaf leaf.symbol location leaf.trueOrigin⟩ := by
  obtain ⟨behind, htake⟩ := exists_takeLine_of_read hread
  obtain ⟨count, line₁, htaken, htake⟩ := run_bind_eq_ok_iff.mp htake
  obtain ⟨rfl, h₁, tabs, hline, htabs⟩ := h.takeTabs htaken
  obtain ⟨name, line₂, hname, htake⟩ := run_bind_eq_ok_iff.mp htake
  have hcases := h₁.take hname
  split at htake
  · rename_i hkind
    obtain ⟨content, line₃, hcontent, htake⟩ := run_bind_eq_ok_iff.mp htake
    cases htake
    rcases hcases with ⟨htokens, h₂, _⟩ | ⟨_, _, hends⟩
    · rw [htokens] at hline
      rcases h₂.takeContent hcontent with ⟨hbehind, rfl⟩ |
        ⟨leaf, location, rfl, hbehind, hnumbers, horigin, hlocates, hbounded, rfl⟩
      · rw [hbehind] at hline
        exact .inr (.inl ⟨tabs, name, ⟨hline, htabs, hkind⟩, rfl⟩)
      · rw [hbehind] at hline
        exact .inr (.inr ⟨tabs, leaf, location, ⟨hline, htabs, hkind, hnumbers, horigin⟩, hlocates,
          hbounded, rfl⟩)
    · rw [hkind] at hends
      cases hends
  · -- The token behind the tabs ends the line, so there is nothing else in it.
    have hends : name.kind.endsLine = true ∧ line? = none := by
      split at htake
      · rename_i hkind
        cases htake
        exact ⟨by rw [hkind]; rfl, rfl⟩
      · obtain ⟨_, _, hlift, htake⟩ := run_bind_eq_ok_iff.mp htake
        cases htake
        obtain ⟨hexpected, _⟩ := run_lift_eq_ok_iff.mp hlift
        obtain ⟨_, hmem⟩ := Token.expect_eq_ok_iff.mp hexpected
        exact ⟨by rw [List.mem_singleton.mp hmem]; rfl, rfl⟩
    rcases hcases with ⟨_, _, hgoes⟩ | ⟨htokens, _, _⟩
    · rw [hends.1] at hgoes
      cases hgoes
    · rw [htokens, List.append_nil] at hline
      exact .inl ⟨fun token hmem => htabs token (hline ▸ hmem), hends.2⟩

end TokenLine

end SymbolIndex
