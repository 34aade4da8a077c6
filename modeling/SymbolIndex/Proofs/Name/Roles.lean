import Mathlib
import SymbolIndex.Proofs.Lexer.Movement
import SymbolIndex.Proofs.Lexer.Steps
import SymbolIndex.Proofs.Bind
import SymbolIndex.SymbolName

/-!
# What is quoted in a name

The quotes of a name are read twice: by the lexer, to find where the name ends, and again when
the name is unquoted or split.  Here both of them write down what they read every character as.
Without these roles, `takeRoles` is the lexer taking the name, and the roles of the other reader
give what unquoting and splitting give.

A backslash keeps a quote from being one inside of a run only, as the lexer has it, and
everywhere, as the other reader has it.  So the two agree as long as no run opens right behind a
backslash.

* `takeName_eq_takeRoles`, `decode_eq_readRoles`, `split_eq_splitRoles`: the roles are those of
  the lexer, of unquoting and of splitting.
* `roles_agree_iff`: when both agree on a name.
* `roles_differ`: a name that is split inside of quotes.
-/

namespace SymbolIndex

/-- What a character of a name is read as. -/
inductive CharRole where
  /-- It stands for itself, outside of quotes. -/
  | bare
  /-- It stands for itself, inside of a run of quotes. -/
  | inner
  /-- A quote that opens or closes a run. -/
  | bracket
  /-- A backslash that makes the quote behind it stand for itself. -/
  | escape
  /-- A quote that stands for itself, behind such a backslash. -/
  | escaped
  deriving DecidableEq, Repr

/-- Does the character stand for itself? -/
def CharRole.isRead : CharRole → Bool
  | bare | inner | escaped => true
  | bracket | escape => false

/-- The characters that stand for themselves. -/
def readRoles (roles : List (Char × CharRole)) : List Char :=
  (roles.filter (·.2.isRead)).map (·.1)

/-! ### As the lexer reads a name -/

/-- What an open run reads the character `c` as, which stands in front of `rest`. -/
def QuotedRun.role (run : QuotedRun) (c : Char) (rest : List Char) : CharRole :=
  if c = '"' then if run.escape then .escaped else .bracket
  else if c = '\\' ∧ rest.head? = some '"' then .escape
  else .inner

theorem QuotedRun.role_ne_bare (run : QuotedRun) (c : Char) (rest : List Char) :
    run.role c rest ≠ .bare := by
  unfold role
  split
  · split <;> exact CharRole.noConfusion
  · split <;> exact CharRole.noConfusion

namespace Lexer

/-- What is taken of a name with its roles, and the rest. -/
abbrev RoleCut := Except Position (List (Char × CharRole) × List Char)

def RoleCut.cons (c : Char) (role : CharRole) (cut : RoleCut) : RoleCut :=
  cut.map fun (roles, rest) => ((c, role) :: roles, rest)

/-- Takes a name and writes down what each of its characters is read as. -/
def takeRoles (stops : List Char) : Option QuotedRun → Position → List Char → RoleCut
  | none, _, [] => .ok ([], [])
  | some run, _, [] => .error run.opened
  | none, position, c :: rest =>
    if c = '"' then
      (takeRoles stops (some ⟨position, false⟩) (position.advance c) rest).cons c .bracket
    else if endsName stops c then .ok ([], c :: rest)
    else (takeRoles stops none (position.advance c) rest).cons c .bare
  | some run, position, c :: rest =>
    (takeRoles stops (run.after c) (position.advance c) rest).cons c (run.role c rest)

/-- **Without the roles, a name is taken as it is.** -/
theorem takeName_eq_takeRoles (stops : List Char) (run : Option QuotedRun) (position : Position)
    (source : List Char) :
    takeName stops run position source =
      (takeRoles stops run position source).map fun (roles, rest) => (roles.map (·.1), rest) := by
  have hcons (c : Char) (role : CharRole) (cut : RoleCut) :
      (cut.cons c role).map (fun (roles, rest) => (roles.map (·.1), rest)) =
        NameCut.cons c (cut.map fun (roles, rest) => (roles.map (·.1), rest)) := by
    cases cut <;> rfl
  fun_induction takeRoles stops run position source with
  | case1 => rfl
  | case2 => rfl
  | case3 position rest ih => rw [takeName, if_pos rfl, ih, hcons]
  | case4 position c rest hquote hends =>
    rw [takeName, if_neg hquote, if_pos hends]
    rfl
  | case5 position c rest hquote hends ih =>
    rw [takeName, if_neg hquote, if_neg hends, ih, hcons]
  | case6 run position c rest ih => rw [takeName, ih, hcons]

theorem RoleCut.cons_eq_ok {c : Char} {role : CharRole} {cut : RoleCut}
    {roles : List (Char × CharRole)} {rest : List Char} (h : cut.cons c role = .ok (roles, rest)) :
    ∃ tail, cut = .ok (tail, rest) ∧ roles = (c, role) :: tail := by
  cases cut with
  | error => cases h
  | ok v =>
    obtain ⟨tail, r⟩ := v
    cases h
    exact ⟨tail, rfl, rfl⟩

end Lexer

/-! ### As a name is unquoted -/

/-- Reads a quoted text and writes down what each of its characters is read as. -/
def Quoted.roles (quoted : Bool) : List Char → List (Char × CharRole)
  | [] => []
  | '\\' :: '"' :: rest => ('\\', .escape) :: ('"', .escaped) :: roles quoted rest
  | '"' :: rest => ('"', .bracket) :: roles (!quoted) rest
  | c :: rest => (c, if quoted then .inner else .bare) :: roles quoted rest

theorem Quoted.roles_cons {c : Char} {rest : List Char}
    (hescape : ∀ more, c = '\\' → rest = '"' :: more → False) (hquote : c ≠ '"') (quoted : Bool) :
    roles quoted (c :: rest) = (c, if quoted then .inner else .bare) :: roles quoted rest := by
  rw [roles]
  · exact hescape
  · exact hquote

/-- **Unquoting drops the brackets, and the backslashes of escaped quotes.** -/
theorem Quoted.decode_eq_readRoles (quoted : Bool) (text : List Char) :
    decode text = readRoles (roles quoted text) := by
  fun_induction roles quoted text with
  | case1 => rfl
  | case2 quoted rest ih => rw [decode, ih]; rfl
  | case3 quoted rest ih => rw [decode, ih]; rfl
  | case4 quoted c rest hescape hquote ih =>
    rw [decode, ih]
    · cases quoted <;> rfl
    · exact hescape
    · exact hquote

namespace SymbolName

/-- Does a delimiter begin here? -/
def splitsAt (c : Char) (role : CharRole) : Bool := isMark c && role = .bare

/-- The name that has these parts. -/
def Parts.symbolName (parts : Parts) : SymbolName :=
  ⟨.ofList parts.element, .ofList parts.delimiter, .ofList parts.property⟩

/-- Splits a name at its first mark outside of quotes. -/
def splitRoles (roles : List (Char × CharRole)) : Parts :=
  let element := readRoles (roles.takeWhile fun (c, role) => !splitsAt c role)
  match roles.dropWhile fun (c, role) => !splitsAt c role with
  | [] => ⟨element, [], []⟩
  | (mark, _) :: back =>
    let accessor := (takeAccessor (back.map (·.1))).1
    ⟨element, mark :: accessor, readRoles (back.drop accessor.length)⟩

theorem splitRoles_cons {c : Char} {role : CharRole} (h : splitsAt c role = false)
    (roles : List (Char × CharRole)) :
    splitRoles ((c, role) :: roles) =
      { splitRoles roles with element := readRoles [(c, role)] ++ (splitRoles roles).element } := by
  have hkeep : (!splitsAt c role) = true := by rw [h]; rfl
  simp only [splitRoles, List.takeWhile_cons, List.dropWhile_cons, hkeep, if_true]
  have hread (back : List (Char × CharRole)) :
      readRoles ((c, role) :: back) = readRoles [(c, role)] ++ readRoles back := by
    rw [readRoles, readRoles, readRoles, ← List.map_append, ← List.filter_append]
    rfl
  split <;> rw [hread]

theorem map_fst_roles (quoted : Bool) (text : List Char) :
    (Quoted.roles quoted text).map (·.1) = text := by
  fun_induction Quoted.roles quoted text <;> simp_all

/-- The accessor mark behind a delimiter's mark does not belong to the property. -/
theorem decode_takeAccessor_eq (quoted : Bool) (rest : List Char) :
    Quoted.decode (takeAccessor rest).2 =
      readRoles ((Quoted.roles quoted rest).drop (takeAccessor rest).1.length) := by
  cases rest with
  | nil => rfl
  | cons c rest =>
    by_cases hc : isAccessor c = true
    · have hroles : (Quoted.roles quoted (c :: rest)).drop 1 = Quoted.roles quoted rest := by
        have hc : c = '<' ∨ c = '>' := by simpa [isAccessor] using hc
        rcases hc with rfl | rfl <;> rfl
      rw [takeAccessor, if_pos hc, List.length_singleton, hroles]
      exact Quoted.decode_eq_readRoles quoted rest
    · rw [takeAccessor, if_neg hc]
      exact Quoted.decode_eq_readRoles quoted (c :: rest)

/-- **Splitting splits at the first mark that it reads outside of quotes.** -/
theorem split_eq_splitRoles (quoted : Bool) (text : List Char) :
    split quoted text = splitRoles (Quoted.roles quoted text) := by
  fun_induction split quoted text with
  | case1 => rfl
  | case2 quoted rest ih =>
    rw [Quoted.roles, splitRoles_cons rfl, splitRoles_cons rfl, ih]
    rfl
  | case3 quoted rest ih =>
    rw [Quoted.roles, splitRoles_cons rfl, ih]
    rfl
  | case4 quoted c rest hescape hquote hmark =>
    obtain ⟨hc, hquoted⟩ : isMark c = true ∧ quoted = false := by simpa using hmark
    have hsplits : splitsAt c (if quoted then .inner else .bare) = true := by
      rw [splitsAt, hc, hquoted]
      rfl
    rw [Quoted.roles_cons hescape hquote, Parts.ofMark, decode_takeAccessor_eq quoted]
    simp only [splitRoles, List.takeWhile_cons, List.dropWhile_cons, hsplits, Bool.not_true,
      Bool.false_eq_true, if_false, map_fst_roles]
    rfl
  | case5 quoted c rest hescape hquote hmark ih =>
    have hsplits : splitsAt c (if quoted then .inner else .bare) = false := by
      cases quoted with
      | false => simpa [splitsAt] using hmark
      | true => simp [splitsAt]
    rw [Quoted.roles_cons hescape hquote, splitRoles_cons hsplits, ih]
    cases quoted <;> rfl

end SymbolName

/-! ### Where both agree -/

/-- A run of quotes opens right behind a backslash. -/
def OpensBehindBackslash (roles : List (Char × CharRole)) : Prop :=
  [('\\', .bare), ('"', .bracket)] <:+: roles

instance (roles : List (Char × CharRole)) : Decidable (OpensBehindBackslash roles) :=
  inferInstanceAs (Decidable (_ <:+: roles))

theorem opensBehindBackslash_cons {c : Char} {role : CharRole} {roles : List (Char × CharRole)}
    (h : (c, role) ≠ ('\\', .bare) ∨ roles.head? ≠ some ('"', .bracket)) :
    OpensBehindBackslash ((c, role) :: roles) ↔ OpensBehindBackslash roles := by
  rw [OpensBehindBackslash, List.infix_cons_iff]
  refine or_iff_right fun hprefix => ?_
  obtain ⟨hc, back, hroles⟩ := List.cons_prefix_cons.mp hprefix
  rcases h with h | h
  · exact h hc.symm
  · exact h (by rw [← hroles]; rfl)

namespace Quoted

/-- What an open run reads of a text, as a name is unquoted.  With `escape`, a backslash of the run
stands in front. -/
def rolesBehind (escape : Bool) (text : List Char) : List (Char × CharRole) :=
  if escape then (roles true ('\\' :: text)).tail else roles true text

theorem roles_backslash (quoted : Bool) {text : List Char} (h : text.head? ≠ some '"') :
    roles quoted ('\\' :: text) = ('\\', if quoted then .inner else .bare) :: roles quoted text :=
  roles_cons (fun more _ htext => h (by rw [htext]; rfl)) (by decide) quoted

theorem rolesBehind_of_head? {text : List Char} (h : text.head? ≠ some '"') (escape : Bool) :
    rolesBehind escape text = roles true text := by
  cases escape with
  | false => rfl
  | true => rw [rolesBehind, if_pos rfl, roles_backslash true h, List.tail_cons]

/-- An open run that does not end reads one more character as the lexer does. -/
theorem rolesBehind_cons (run : QuotedRun) {c : Char} (h : c ≠ '"' ∨ run.escape = true)
    (text : List Char) :
    rolesBehind run.escape (c :: text) = (c, run.role c text) :: rolesBehind (c = '\\') text := by
  by_cases hquote : c = '"'
  · subst hquote
    have hescape := h.resolve_left (fun hne => hne rfl)
    rw [hescape, QuotedRun.role, if_pos rfl, if_pos hescape]
    rfl
  rw [rolesBehind_of_head? (by simpa using hquote), QuotedRun.role, if_neg hquote]
  by_cases hbackslash : c = '\\'
  · subst hbackslash
    by_cases hhead : text.head? = some '"'
    · obtain ⟨more, rfl⟩ := List.head?_eq_some_iff.mp hhead
      rfl
    · rw [roles_backslash true hhead, if_pos rfl, if_neg fun hesc => hhead hesc.2,
        rolesBehind_of_head? hhead]
  · rw [roles_cons (fun _ hc => absurd hc hbackslash) hquote, if_pos rfl,
      if_neg fun hesc => hbackslash hesc.1, decide_eq_false hbackslash]
    rfl

end Quoted

namespace Lexer

/-- What the other reader reads of a text where the lexer is. -/
def rolesOf : Option QuotedRun → List Char → List (Char × CharRole)
  | none, text => Quoted.roles false text
  | some run, text => Quoted.rolesBehind run.escape text

/-- An open run reads one more character as the lexer does. -/
theorem rolesOf_run_cons (run : QuotedRun) (c : Char) (text : List Char) :
    rolesOf (some run) (c :: text) = (c, run.role c text) :: rolesOf (run.after c) text := by
  by_cases hcloses : c = '"' ∧ run.escape = false
  · obtain ⟨rfl, hescape⟩ := hcloses
    show Quoted.rolesBehind run.escape ('"' :: text) = _
    rw [after_quote hescape, QuotedRun.role, if_pos rfl, hescape]
    rfl
  · have hgoes : c ≠ '"' ∨ run.escape = true := by
      rw [← Bool.not_eq_false]
      exact not_and_or.mp hcloses
    have hafter : run.after c = some { run with escape := c = '\\' } := by
      refine if_neg ?_
      rw [Bool.and_eq_true, decide_eq_true_eq, Bool.not_eq_true']
      exact hcloses
    rw [hafter]
    exact Quoted.rolesBehind_cons run hgoes text

/-- A quote outside of a run opens one. -/
theorem head?_takeRoles_outside {stops source rest : List Char} {position : Position}
    {roles : List (Char × CharRole)} (h : takeRoles stops none position source = .ok (roles, rest))
    (hquote : (roles.map (·.1)).head? = some '"') : roles.head? = some ('"', .bracket) := by
  cases source with
  | nil =>
    cases h
    cases hquote
  | cons c source =>
    rw [takeRoles] at h
    split at h
    · rename_i hc
      obtain ⟨tail, _, rfl⟩ := RoleCut.cons_eq_ok h
      rw [hc]
      rfl
    · rename_i hc
      split at h
      · cases h
        cases hquote
      · obtain ⟨tail, _, rfl⟩ := RoleCut.cons_eq_ok h
        exact absurd (Option.some.inj hquote) hc

/-- A run takes the next character, whatever it is. -/
theorem head?_takeRoles_inside {stops source rest : List Char} {run : QuotedRun}
    {position : Position} {roles : List (Char × CharRole)}
    (h : takeRoles stops (some run) position source = .ok (roles, rest)) :
    source.head? = (roles.map (·.1)).head? := by
  cases source with
  | nil => cases h
  | cons c source =>
    obtain ⟨tail, _, rfl⟩ := RoleCut.cons_eq_ok h
    rfl

/-- The role of a character is told by what is taken behind it. -/
theorem role_of_takeRoles {stops source rest : List Char} {run : QuotedRun} {position : Position}
    {c : Char} {roles : List (Char × CharRole)}
    (h : takeRoles stops (run.after c) position source = .ok (roles, rest)) :
    run.role c (roles.map (·.1)) = run.role c source := by
  by_cases hc : c = '"'
  · rw [QuotedRun.role, QuotedRun.role, if_pos hc, if_pos hc]
  · rw [after_of_ne run hc] at h
    rw [QuotedRun.role, QuotedRun.role, head?_takeRoles_inside h]

/-- **Both readers agree on what is taken of a name** if no run opens right behind a backslash. -/
theorem roles_eq_iff {stops source rest : List Char} {run : Option QuotedRun} {position : Position}
    {roles : List (Char × CharRole)}
    (h : takeRoles stops run position source = .ok (roles, rest)) :
    rolesOf run (roles.map (·.1)) = roles ↔ ¬ OpensBehindBackslash roles := by
  fun_induction takeRoles stops run position source generalizing roles with
  | case1 =>
    cases h
    simp [rolesOf, Quoted.roles, OpensBehindBackslash]
  | case2 => cases h
  | case3 position r ih =>
    obtain ⟨tail, htail, rfl⟩ := RoleCut.cons_eq_ok h
    rw [opensBehindBackslash_cons (.inl (by decide)), ← ih htail]
    show ('"', CharRole.bracket) :: Quoted.roles true _ = _ ↔ _
    rw [List.cons_inj_right]
    rfl
  | case4 =>
    cases h
    simp [rolesOf, Quoted.roles, OpensBehindBackslash]
  | case5 position c r hquote hends ih =>
    obtain ⟨tail, htail, rfl⟩ := RoleCut.cons_eq_ok h
    show Quoted.roles false (c :: tail.map (·.1)) = _ ↔ _
    by_cases hopens : c = '\\' ∧ (tail.map (·.1)).head? = some '"'
    · -- The lexer opens a run here, and the other reader has an escaped quote.
      obtain ⟨rfl, hhead⟩ := hopens
      obtain ⟨tail, rfl⟩ := List.head?_eq_some_iff.mp (head?_takeRoles_outside htail hhead)
      have hbad : OpensBehindBackslash (('\\', .bare) :: ('"', .bracket) :: tail) :=
        ⟨[], tail, rfl⟩
      refine iff_of_false (fun hroles => ?_) (not_not.mpr hbad)
      cases congrArg List.head? hroles
    · have hroles : Quoted.roles false (c :: tail.map (·.1)) =
          (c, .bare) :: Quoted.roles false (tail.map (·.1)) :=
        Quoted.roles_cons (fun _ hc htail => hopens ⟨hc, by rw [htail]; rfl⟩) hquote false
      have hnext : (c, CharRole.bare) ≠ ('\\', .bare) ∨ tail.head? ≠ some ('"', .bracket) := by
        refine (not_and_or.mp hopens).imp (fun hc heq => hc (congrArg Prod.fst heq)) ?_
        intro hhead heq
        exact hhead (by rw [List.head?_map, heq]; rfl)
      rw [hroles, List.cons_inj_right, opensBehindBackslash_cons hnext]
      exact ih htail
  | case6 run position c r ih =>
    obtain ⟨tail, htail, rfl⟩ := RoleCut.cons_eq_ok h
    have hnext : (c, run.role c r) ≠ ('\\', CharRole.bare) ∨ tail.head? ≠ some ('"', .bracket) :=
      .inl fun heq => run.role_ne_bare c r (congrArg Prod.snd heq)
    rw [opensBehindBackslash_cons hnext, ← ih htail, List.map_cons, rolesOf_run_cons,
      role_of_takeRoles htail, List.cons_inj_right]

/-! ### The names that a lexer gives -/

variable {lexer behind : Lexer} {token : Token}

theorem takeName_of_readName (h : lexer.readName = (.ok token, behind)) :
    takeName lexer.stops none token.position (token.text.toList ++ behind.rest) =
      .ok (token.text.toList, behind.rest) := by
  unfold readName at h
  split at h
  · rename_i text rest hname
    cases h
    rw [String.toList_ofList]
    rwa [takeName_append hname]
  · cases h

theorem takeName_of_readSegment (h : lexer.readSegment = (.ok token, behind))
    (hkind : token.kind = .name) :
    takeName lexer.stops none token.position (token.text.toList ++ behind.rest) =
      .ok (token.text.toList, behind.rest) := by
  unfold readSegment at h
  split at h
  · unfold readNumber at h
    dsimp only at h
    split at h
    · cases h
      cases hkind
    · cases h
  · exact takeName_of_readName h

/-- A name that a lexer gives has been taken off the source, where it stands. -/
theorem takeName_of_next (hpushed : lexer.pushed = none) (h : lexer.next = (.ok token, behind))
    (hkind : token.kind = .name) :
    takeName lexer.stops none token.position (token.text.toList ++ behind.rest) =
      .ok (token.text.toList, behind.rest) := by
  rw [next_eq_read_skipWhile hpushed] at h
  show takeName (lexer.skipWhile isGap).stops none _ _ = _
  generalize lexer.skipWhile isGap = lexer at h ⊢
  unfold read at h
  split at h
  · cases h
    cases hkind
  · split at h
    · cases h
      cases hkind
    · split at h
      · cases h
        cases hkind
      · split at h
        · rw [← lexer.movesTo_skipSeparator.stops_eq]
          exact takeName_of_readSegment h hkind
        · split at h
          · cases h
            cases hkind
          · exact takeName_of_readName h

end Lexer

/-- **When the lexer and the unquoting of a name agree on what is quoted in it.**  For every name
that a lexer gives, let `roles` be what it read the characters as.  The other roles are what
unquoting drops and keeps and where splitting splits, and they are the same ones if and only if no
run opens right behind a backslash. -/
theorem roles_agree_iff {lexer behind : Lexer} {token : Token} (hpushed : lexer.pushed = none)
    (hnext : lexer.next = (.ok token, behind)) (hkind : token.kind = .name) :
    ∃ roles, Lexer.takeRoles lexer.stops none token.position (token.text.toList ++ behind.rest) =
        .ok (roles, behind.rest) ∧
      roles.map (·.1) = token.text.toList ∧
      (Quoted.roles false token.text.toList = roles ↔ ¬ OpensBehindBackslash roles) ∧
      unquote token.text = .ofList (readRoles (Quoted.roles false token.text.toList)) ∧
      SymbolName.ofQuoted token.text =
        (SymbolName.splitRoles (Quoted.roles false token.text.toList)).symbolName := by
  have htake := Lexer.takeName_of_next hpushed hnext hkind
  rw [Lexer.takeName_eq_takeRoles, map_eq_ok_iff] at htake
  obtain ⟨⟨roles, rest⟩, hroles, heq⟩ := htake
  obtain ⟨htext, rfl⟩ := Prod.mk.inj heq
  refine ⟨roles, hroles, htext, ?_, ?_, ?_⟩
  · rw [← htext]
    exact Lexer.roles_eq_iff hroles
  · rw [unquote, Quoted.decode_eq_readRoles false]
  · rw [SymbolName.ofQuoted, SymbolName.split_eq_splitRoles]
    rfl

/-- A run with an escaped quote, and a getter of what it names. -/
def escapedName : String := "\"a\\\"b\"#<c"

def escapedRoles : List (Char × CharRole) :=
  [('"', .bracket), ('a', .inner), ('\\', .escape), ('"', .escaped), ('b', .inner),
    ('"', .bracket), ('#', .bare), ('<', .bare), ('c', .bare)]

/-- No run of this name opens behind a backslash, so both agree on it. -/
theorem roles_agree_escapedName :
    ∃ token behind, (Lexer.ofString escapedName).next = (.ok token, behind) ∧
      token.kind = .name ∧ token.text = escapedName ∧
      Lexer.takeRoles [] none token.position (token.text.toList ++ behind.rest) =
        .ok (escapedRoles, behind.rest) ∧
      ¬ OpensBehindBackslash escapedRoles ∧
      Quoted.roles false token.text.toList = escapedRoles ∧
      SymbolName.ofQuoted token.text = (SymbolName.splitRoles escapedRoles).symbolName ∧
      (SymbolName.splitRoles escapedRoles).symbolName = ⟨"a\"b", "#<", "c"⟩ := by
  have hnext : (Lexer.ofString escapedName).next =
      (.ok ⟨.name, escapedName, .start⟩, ⟨[], ⟨9, 1, 10⟩, [], none⟩) := by cbv
  obtain ⟨roles, htake, htext, hagree, hread, hsplit⟩ := roles_agree_iff rfl hnext rfl
  have htaken : Lexer.takeRoles [] none .start (escapedName.toList ++ []) =
      .ok (escapedRoles, []) := by cbv
  obtain rfl : roles = escapedRoles := congrArg Prod.fst (Except.ok.inj (htake.symm.trans htaken))
  have hopens : ¬ OpensBehindBackslash escapedRoles := by decide
  have hsame := hagree.mpr hopens
  rw [hsame] at hsplit
  exact ⟨_, _, hnext, rfl, rfl, htake, hopens, hsame, hsplit, by cbv⟩

/-- A run that opens right behind a backslash, around a mark. -/
def backslashName : String := "a\\\"#b\""

/-- **A name that is split inside of quotes.**  The lexer reads a run around the mark, so the mark
splits nothing; the unquoting of the name reads an escaped quote in front of it. -/
theorem roles_differ :
    ∃ token behind, (Lexer.ofString backslashName).next = (.ok token, behind) ∧
      token.kind = .name ∧ token.text = backslashName ∧
      ∃ roles, Lexer.takeRoles [] none token.position (token.text.toList ++ behind.rest) =
          .ok (roles, behind.rest) ∧
        ('#', .inner) ∈ roles ∧ Quoted.roles false token.text.toList ≠ roles ∧
        (SymbolName.splitRoles roles).symbolName = ⟨"a\\#b", "", ""⟩ ∧
        SymbolName.ofQuoted token.text = ⟨"a\"", "#", "b"⟩ := by
  have hnext : (Lexer.ofString backslashName).next =
      (.ok ⟨.name, backslashName, .start⟩, ⟨[], ⟨6, 1, 7⟩, [], none⟩) := by cbv
  have htaken : Lexer.takeRoles [] none .start (backslashName.toList ++ []) =
      .ok ([('a', .bare), ('\\', .bare), ('"', .bracket), ('#', .inner), ('b', .inner),
        ('"', .bracket)], []) := by cbv
  exact ⟨_, _, hnext, rfl, rfl, _, htaken, by decide, by decide +kernel, by cbv, by cbv⟩

end SymbolIndex
