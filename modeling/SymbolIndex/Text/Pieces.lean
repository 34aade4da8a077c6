/-!
# Cutting a text at a character

Names and paths are cut at single characters: at the first one, at the last one,
or at all of them.

* `cutFirst_eq_some_iff`, `cutLast_eq_some_iff`: a cut gives the two parts around
  the character, which does not stand in the first part (in the last part).
* `pieces_append_cons`: two texts with the character between them have the pieces of
  the one and then the pieces of the other.
* `pieces_intercalate`: texts without the character are the pieces of what they make.
* `toList_replaceChar`: replacing a character works on each character alone.
-/

namespace SymbolIndex

/-- The parts in front of and behind the first `separator`. -/
def cutFirst (separator : Char) : List Char → Option (List Char × List Char)
  | [] => none
  | c :: rest =>
    if c = separator then some ([], rest)
    else (cutFirst separator rest).map fun (front, back) => (c :: front, back)

/-- The parts in front of and behind the last `separator`. -/
def cutLast (separator : Char) (text : List Char) : Option (List Char × List Char) :=
  (cutFirst separator text.reverse).map fun (back, front) => (front.reverse, back.reverse)

/-- The pieces between the occurrences of `separator`, at least one. -/
def pieces (separator : Char) (text : String) : List String :=
  (text.toList.splitOn separator).map .ofList

/-- The text with every `old` replaced by `new`. -/
def replaceChar (old new : Char) (text : String) : String :=
  .ofList (text.toList.map fun c => if c = old then new else c)

/-- The text without the characters at its end that satisfy `p`. -/
def dropEnd (p : Char → Bool) (text : List Char) : List Char :=
  (text.reverse.dropWhile p).reverse

/-- The text without the characters at both ends that satisfy `p`. -/
def trimBoth (p : Char → Bool) (text : List Char) : List Char :=
  dropEnd p (text.dropWhile p)

/-! ## What a cut gives -/

theorem cutFirst_eq_some_iff {separator : Char} {text front back : List Char} :
    cutFirst separator text = some (front, back) ↔
      text = front ++ separator :: back ∧ separator ∉ front := by
  induction text generalizing front with
  | nil => simp [cutFirst]
  | cons c r ih =>
    by_cases h : c = separator
    · subst h
      cases front with
      | nil => simp [cutFirst, eq_comm]
      | cons d front => simp [cutFirst]; rintro rfl _ h; exact absurd rfl h
    · cases front with
      | nil => simp [cutFirst, h]
      | cons d front =>
        simp [cutFirst, h, ih]
        constructor
        · rintro ⟨⟨hr, hf⟩, rfl⟩
          exact ⟨⟨rfl, hr⟩, Ne.symm h, hf⟩
        · rintro ⟨⟨rfl, hr⟩, -, hf⟩
          exact ⟨⟨hr, hf⟩, rfl⟩

theorem cutFirst_eq_none_iff {separator : Char} {text : List Char} :
    cutFirst separator text = none ↔ separator ∉ text := by
  induction text with
  | nil => simp [cutFirst]
  | cons c r ih =>
    by_cases h : c = separator
    · simp [cutFirst, h]
    · simp [cutFirst, h, ih, Ne.symm h]

theorem cutLast_eq_some_iff {separator : Char} {text front back : List Char} :
    cutLast separator text = some (front, back) ↔
      text = front ++ separator :: back ∧ separator ∉ back := by
  simp only [cutLast, Option.map_eq_some_iff, Prod.exists, cutFirst_eq_some_iff, Prod.mk.injEq]
  constructor
  · rintro ⟨b, f, ⟨ht, hb⟩, rfl, rfl⟩
    refine ⟨?_, by simpa using hb⟩
    simpa using congrArg List.reverse ht
  · rintro ⟨rfl, hb⟩
    exact ⟨back.reverse, front.reverse, ⟨by simp, by simpa using hb⟩, by simp, by simp⟩

theorem cutLast_eq_none_iff {separator : Char} {text : List Char} :
    cutLast separator text = none ↔ separator ∉ text := by
  rw [cutLast, Option.map_eq_none_iff, cutFirst_eq_none_iff, List.mem_reverse]

/-! ## Replacing a character -/

@[simp] theorem toList_replaceChar (old new : Char) (text : String) :
    (replaceChar old new text).toList = text.toList.map fun c => if c = old then new else c :=
  String.toList_ofList

theorem replaceChar_eq_empty_iff {old new : Char} {text : String} :
    replaceChar old new text = "" ↔ text = "" := by
  rw [← String.toList_eq_nil_iff, toList_replaceChar, List.map_eq_nil_iff, String.toList_eq_nil_iff]

theorem not_mem_replaceChar {old new c : Char} {text : String} (h : c ∉ text.toList)
    (hnew : c ≠ new) : c ∉ (replaceChar old new text).toList := by
  rw [toList_replaceChar, List.mem_map]
  rintro ⟨d, hd, heq⟩
  split at heq
  · exact hnew heq.symm
  · exact h (heq ▸ hd)

theorem not_mem_replaceChar_old {old new : Char} {text : String} (h : old ≠ new) :
    old ∉ (replaceChar old new text).toList := by
  rw [toList_replaceChar, List.mem_map]
  rintro ⟨d, _, heq⟩
  split at heq
  · exact h heq.symm
  · rename_i hd
    exact hd heq

/-! ## All pieces -/

theorem map_toList_pieces (separator : Char) (text : String) :
    (pieces separator text).map String.toList = text.toList.splitOn separator := by
  rw [pieces, List.map_map]
  simp [Function.comp_def]

theorem pieces_ne_nil (separator : Char) (text : String) : pieces separator text ≠ [] := by
  rw [pieces, ne_eq, List.map_eq_nil_iff]
  exact List.splitOn_ne_nil _ _

theorem pieces_of_not_mem {separator : Char} {text : String} (h : separator ∉ text.toList) :
    pieces separator text = [text] := by
  rw [pieces, List.splitOn_eq_singleton h, List.map_singleton, String.ofList_toList]

theorem pieces_append_cons (separator : Char) (front back : List Char) :
    pieces separator (.ofList (front ++ separator :: back)) =
      pieces separator (.ofList front) ++ pieces separator (.ofList back) := by
  simp only [pieces, String.toList_ofList, List.splitOn_append_cons_self, List.map_append]

/-- Texts without the separator are the pieces of what they make with it between them. -/
theorem pieces_intercalate {separator : Char} {parts : List String}
    (h : ∀ part ∈ parts, separator ∉ part.toList) (hne : parts ≠ []) :
    pieces separator ((String.singleton separator).intercalate parts) = parts := by
  have hlists : ∀ part ∈ parts.map String.toList, separator ∉ part := by
    intro part hpart
    obtain ⟨text, htext, rfl⟩ := List.mem_map.mp hpart
    exact h text htext
  rw [pieces, String.toList_intercalate, String.toList_singleton,
    List.splitOn_intercalate _ hlists (mt List.map_eq_nil_iff.mp hne), List.map_map]
  exact (List.map_congr_left fun part _ => String.ofList_toList).trans (List.map_id parts)

theorem length_pieces_eq_one_iff {separator : Char} {text : String} :
    (pieces separator text).length = 1 ↔ separator ∉ text.toList := by
  refine ⟨fun hlength hmem => ?_, fun h => by rw [pieces_of_not_mem h]; rfl⟩
  obtain ⟨front, back, htext⟩ := List.append_of_mem hmem
  rw [← String.ofList_toList (s := text), htext, pieces_append_cons, List.length_append] at hlength
  have hfront := List.length_pos_iff.mpr (pieces_ne_nil separator (.ofList front))
  have hback := List.length_pos_iff.mpr (pieces_ne_nil separator (.ofList back))
  omega

/-- A text is cut at a character as it is at another one put in its place. -/
theorem pieces_replaceChar {old new : Char} {text : String} (h : new ∉ text.toList) :
    pieces new (replaceChar old new text) = pieces old text := by
  rw [pieces, pieces, toList_replaceChar]
  congr 1
  revert h
  induction text.toList with
  | nil => exact fun _ => rfl
  | cons c rest ih =>
    intro h
    obtain ⟨hc, hrest⟩ := List.ne_and_not_mem_of_not_mem_cons h
    rw [List.map_cons, List.splitOn_cons_eq_if_modifyHead, List.splitOn_cons_eq_if_modifyHead,
      ih hrest]
    by_cases heq : c = old
    · simp [heq]
    · simp [heq, hc.symm]

/-- Every character but the separator is in one of the pieces. -/
theorem exists_mem_splitOn {separator c : Char} {text : List Char} (h : c ∈ text)
    (hc : c ≠ separator) : ∃ piece ∈ text.splitOn separator, c ∈ piece := by
  induction text with
  | nil => cases h
  | cons d rest ih =>
    rw [List.splitOn_cons_eq_if_modifyHead]
    obtain ⟨first, more, hpieces⟩ := List.exists_cons_of_ne_nil (List.splitOn_ne_nil separator rest)
    rw [hpieces] at ih ⊢
    rcases List.mem_cons.mp h with rfl | hrest
    · rw [if_neg fun heq => hc (beq_iff_eq.mp heq)]
      exact ⟨_, List.mem_cons_self, List.mem_cons_self⟩
    · obtain ⟨piece, hpiece, hmem⟩ := ih hrest
      split
      · exact ⟨piece, List.mem_cons_of_mem _ hpiece, hmem⟩
      · rcases List.mem_cons.mp hpiece with rfl | hmore
        · exact ⟨_, List.mem_cons_self, List.mem_cons_of_mem _ hmem⟩
        · exact ⟨piece, List.mem_cons_of_mem _ hmore, hmem⟩

theorem exists_mem_pieces {separator c : Char} {text : String} (h : c ∈ text.toList)
    (hc : c ≠ separator) : ∃ piece ∈ pieces separator text, c ∈ piece.toList := by
  obtain ⟨piece, hpiece, hmem⟩ := exists_mem_splitOn h hc
  refine ⟨.ofList piece, List.mem_map_of_mem hpiece, ?_⟩
  rw [String.toList_ofList]
  exact hmem

/-! ## Trimming -/

theorem dropWhile_of_head? {p : Char → Bool} {text : List Char}
    (h : ∀ c ∈ text.head?, p c = false) : text.dropWhile p = text := by
  cases text with
  | nil => rfl
  | cons c rest => rw [List.dropWhile_cons_of_neg (Bool.eq_false_iff.mp (h c rfl))]

theorem trimBoth_eq_self {p : Char → Bool} {text : List Char}
    (hhead : ∀ c ∈ text.head?, p c = false) (hlast : ∀ c ∈ text.getLast?, p c = false) :
    trimBoth p text = text := by
  rw [trimBoth, dropWhile_of_head? hhead, dropEnd, dropWhile_of_head?, List.reverse_reverse]
  rw [List.head?_reverse]
  exact hlast

end SymbolIndex
