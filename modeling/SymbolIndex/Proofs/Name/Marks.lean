import Mathlib.Algebra.Ring.Parity
import SymbolIndex.Proofs.Name.Quoting

/-!
# The mark that splits a name

A name on a line of its own is unquoted, a name of a symbol is split and its parts are unquoted.
Both read the same characters, so the parts laid end to end are the name as it reads unquoted.
Which mark splits it can be told by counting: every double quote opens or closes a run, unless a
backslash stands in front of it, so a mark is outside of quotes if it stands behind an even number
of those.

* `delimiter_split_eq_nil_iff`: a name is not split if all its marks stand behind odd numbers.
* `ofQuoted_spec`: what the three parts of a name are.
-/

namespace SymbolIndex

/-- The number of double quotes in a text that no backslash stands in front of.  With `escaped`, a
backslash stands in front of the text. -/
def unescapedQuotes (escaped : Bool) : List Char → Nat
  | [] => 0
  | c :: rest => (if c = '"' && !escaped then 1 else 0) + unescapedQuotes (c = '\\') rest

-- A quote behind a backslash is not counted, and the backslash behind another one still escapes.
example : unescapedQuotes false "a\"b\\\"c\\\\\"\"".toList = 2 := by decide

namespace SymbolName

/-- Does every mark of a text stand behind an odd number of quotes, if `before` of them stand in
front of the text? -/
def HidesMarks (before : Nat) (escaped : Bool) (text : List Char) : Prop :=
  ∀ front mark back, text = front ++ mark :: back → isMark mark = true →
    Odd (before + unescapedQuotes escaped front)

theorem hidesMarks_nil (before : Nat) (escaped : Bool) : HidesMarks before escaped [] := by
  intro front mark back h
  simp at h

theorem hidesMarks_cons {before : Nat} {escaped : Bool} {c : Char} {rest : List Char} :
    HidesMarks before escaped (c :: rest) ↔
      (isMark c = true → Odd before) ∧
        HidesMarks (before + if c = '"' && !escaped then 1 else 0) (c = '\\') rest := by
  constructor
  · intro h
    refine ⟨fun hmark => h [] c rest rfl hmark, ?_⟩
    intro front mark back hrest hmark
    have hodd := h (c :: front) mark back (by rw [hrest]; rfl) hmark
    rwa [unescapedQuotes, ← Nat.add_assoc] at hodd
  · rintro ⟨hc, hrest⟩ front mark back htext hmark
    cases front with
    | nil =>
      obtain ⟨rfl, _⟩ := List.cons.inj htext
      exact hc hmark
    | cons d front =>
      obtain ⟨rfl, hmore⟩ := List.cons.inj htext
      have hodd := hrest front mark back hmore hmark
      rwa [unescapedQuotes, ← Nat.add_assoc]

/-- A backslash in front of a text matters to a quote at its start alone. -/
theorem hidesMarks_of_head? {before : Nat} {text : List Char} (h : text.head? ≠ some '"')
    (escaped : Bool) : HidesMarks before escaped text ↔ HidesMarks before false text := by
  cases text with
  | nil => exact iff_of_true (hidesMarks_nil _ _) (hidesMarks_nil _ _)
  | cons c rest =>
    have hc : c ≠ '"' := by simpa using h
    rw [hidesMarks_cons, hidesMarks_cons]
    simp [hc]

/-- **A text is not split if all its marks are hidden.** -/
theorem delimiter_split_eq_nil_iff {before : Nat} {quoted : Bool} (h : quoted = true ↔ Odd before)
    (text : List Char) : (split quoted text).delimiter = [] ↔ HidesMarks before false text := by
  fun_induction split quoted text generalizing before with
  | case1 => exact iff_of_true rfl (hidesMarks_nil _ _)
  | case2 quoted rest ih =>
    rw [hidesMarks_cons, hidesMarks_cons]
    simpa [Parts.cons, isMark] using ih h
  | case3 quoted rest ih =>
    have hflip : (!quoted) = true ↔ Odd (before + 1) := by
      rw [Nat.odd_add_one, ← h, Bool.not_eq_true', Bool.not_eq_true]
    rw [hidesMarks_cons]
    simpa [isMark] using ih hflip
  | case4 quoted c rest _ _ hmark =>
    obtain ⟨hc, hquoted⟩ : isMark c = true ∧ quoted = false := by simpa using hmark
    refine iff_of_false (List.cons_ne_nil _ _) fun hhides => ?_
    have hodd := h.mpr ((hidesMarks_cons.mp hhides).1 hc)
    rw [hquoted] at hodd
    cases hodd
  | case5 quoted c rest hescape hquote hmark ih =>
    have hc : isMark c = true → Odd before := by
      intro hc
      rw [← h]
      simpa [hc] using hmark
    have hrest : HidesMarks before (c = '\\') rest ↔ HidesMarks before false rest := by
      by_cases hbackslash : c = '\\'
      · refine hidesMarks_of_head? (fun hhead => ?_) _
        obtain ⟨more, hmore⟩ := List.head?_eq_some_iff.mp hhead
        exact hescape more hbackslash hmore
      · rw [decide_eq_false hbackslash]
    have hcount : (c = '"' && !false) = false := by simpa using hquote
    rw [hidesMarks_cons, hcount, if_neg (by decide), Nat.add_zero, hrest, ← ih h]
    exact (and_iff_right hc).symm

/-- **The parts of a name.**  They make up the name as it reads unquoted.  The delimiter is a mark
with perhaps an accessor mark, and without it there is no property; it is missing if and only if
every mark of the name stands behind an odd number of unescaped quotes. -/
theorem ofQuoted_spec (text : String) :
    (ofQuoted text).element ++ (ofQuoted text).delimiter ++ (ofQuoted text).property =
        unquote text ∧
      (ofQuoted text).delimiter ∈ ["", "#", "@", "#<", "#>", "@<", "@>"] ∧
      ((ofQuoted text).delimiter = "" → (ofQuoted text).property = "") ∧
      ((ofQuoted text).delimiter = "" ↔
        ∀ front mark back, text.toList = front ++ mark :: back → mark = '#' ∨ mark = '@' →
          Odd (unescapedQuotes false front)) := by
  have hwell := wellFormed_ofQuoted text
  refine ⟨display_ofQuoted text, ?_, fun hempty => ?_, ?_⟩
  · rcases hwell with ⟨hdelimiter, _⟩ | hdelimiter
    · rw [hdelimiter]
      exact List.mem_cons_self
    · exact List.mem_cons_of_mem _ hdelimiter
  · rcases hwell with ⟨_, hproperty⟩ | hdelimiter
    · exact hproperty
    · rw [hempty] at hdelimiter
      exact absurd hdelimiter (by decide)
  · have hsplit : (ofQuoted text).delimiter = "" ↔ (split false text.toList).delimiter = [] := by
      rw [ofQuoted, ← String.toList_eq_nil_iff, String.toList_ofList]
    rw [hsplit, @delimiter_split_eq_nil_iff 0 _ (by decide)]
    simp [HidesMarks, isMark]

end SymbolName

end SymbolIndex
