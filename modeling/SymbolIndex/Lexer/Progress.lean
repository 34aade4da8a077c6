import SymbolIndex.Lexer

/-!
# Progress of the lexer

Every call of a lexer takes something off its source, or gives back the token that
was put back, until it gives the end of file.  `size` counts both, and
`size_next_lt` says that it falls.  So reading can go on until the end of file and
needs no other bound.

The cases follow the first character behind the gaps.  A tab, a line feed or a
separator is taken itself; any other character that is no stop begins a name, and
a name that begins with such a character is not empty.
-/

namespace SymbolIndex.Lexer

theorem length_skipWhile_le (lexer : Lexer) (p : Char → Bool) :
    (lexer.skipWhile p).rest.length ≤ lexer.rest.length :=
  (List.dropWhile_sublist p).length_le

theorem length_skipOne (lexer : Lexer) : lexer.skipOne.rest.length = lexer.rest.length - 1 :=
  List.length_tail

theorem length_skipComment_le (lexer : Lexer) :
    lexer.skipComment.rest.length ≤ lexer.rest.length := by
  unfold skipComment
  split
  · exact length_skipWhile_le ..
  · exact Nat.le_refl _

theorem length_skipSeparator_le (lexer : Lexer) :
    lexer.skipSeparator.rest.length ≤ lexer.rest.length - 1 := by
  unfold skipSeparator
  dsimp only
  split <;> simp only [length_skipOne] <;> omega

theorem length_readName_le (lexer : Lexer) :
    lexer.readName.2.rest.length ≤ lexer.rest.length := by
  unfold readName
  split
  · rename_i h
    have := congrArg List.length (takeName_append h)
    rw [List.length_append] at this
    dsimp only
    omega
  · exact Nat.zero_le _

theorem length_readName_lt (lexer : Lexer) {c : Char} {source : List Char}
    (hrest : lexer.rest = c :: source) (hc : c = '"' ∨ endsName lexer.stops c = false) :
    lexer.readName.2.rest.length < lexer.rest.length := by
  unfold readName
  split
  · rename_i text rest h
    have happ := congrArg List.length (takeName_append h)
    rw [hrest] at h
    have := List.length_pos_iff.2 (takeName_ne_nil hc h)
    rw [List.length_append] at happ
    dsimp only
    omega
  · simp [skipAll, hrest]

theorem length_readSegment_le (lexer : Lexer) :
    lexer.readSegment.2.rest.length ≤ lexer.rest.length := by
  unfold readSegment
  split
  · unfold readNumber
    dsimp only
    split <;> exact length_skipWhile_le ..
  · exact length_readName_le ..

theorem length_read_lt (lexer : Lexer) {c : Char} {source : List Char}
    (hrest : lexer.rest = c :: source) (hgap : isGap c = false)
    (hend : lexer.read.1 ≠ .ok lexer.endOfFile) :
    lexer.read.2.rest.length < lexer.rest.length := by
  have hpos : 0 < lexer.rest.length := by simp [hrest]
  unfold read at hend ⊢
  split
  · simp_all
  · rename_i d tail hd
    obtain ⟨rfl, rfl⟩ : c = d ∧ source = tail := by simpa [hrest] using hd
    rw [hd] at hend
    dsimp only at hend
    split
    · rw [length_skipOne]; omega
    · split
      · have := length_skipComment_le lexer.skipOne
        rw [length_skipOne] at this
        dsimp only
        omega
      · split
        · have := length_readSegment_le lexer.skipSeparator
          have := length_skipSeparator_le lexer
          omega
        · split
          · simp_all
          · refine length_readName_lt lexer hrest (.inr ?_)
            simp_all [endsName, isGap]

/-- Characters that are skipped in front of a token are no part of it. -/
theorem isGap_head_skipWhile {lexer : Lexer} {c : Char} {source : List Char}
    (h : (lexer.skipWhile isGap).rest = c :: source) : isGap c = false := by
  have := List.head?_dropWhile_not isGap lexer.rest
  simp_all [skipWhile]

theorem pushed_read (lexer : Lexer) : lexer.read.2.pushed = lexer.pushed := by
  have comment (l : Lexer) : l.skipComment.pushed = l.pushed := by
    unfold skipComment; split <;> rfl
  have name (l : Lexer) : l.readName.2.pushed = l.pushed := by
    unfold readName; split <;> rfl
  have segment : lexer.skipSeparator.readSegment.2.pushed = lexer.pushed := by
    have : lexer.skipSeparator.pushed = lexer.pushed := by
      unfold skipSeparator; dsimp only; split <;> rfl
    unfold readSegment readNumber
    dsimp only
    split
    · split <;> exact this
    · rw [name, this]
  unfold read
  split
  · rfl
  · split
    · rfl
    · split
      · exact comment _
      · split
        · exact segment
        · split
          · rfl
          · exact name _

/-- The room a lexer has left: the characters not read yet, and the token put back. -/
def size (lexer : Lexer) : Nat :=
  lexer.rest.length + lexer.pushed.toList.length

/-- Progress: a call that gives anything but the end of file leaves less to read. -/
theorem size_next_lt (lexer : Lexer)
    (h : ∀ token, lexer.next.1 = .ok token → token.kind ≠ .endOfFile) :
    lexer.next.2.size < lexer.size := by
  unfold next at h ⊢
  split
  · rename_i token hpushed
    simp [size, hpushed]
  · rename_i hpushed
    rw [hpushed] at h
    dsimp only at h
    have hle := length_skipWhile_le lexer isGap
    have hlt : (lexer.skipWhile isGap).read.2.rest.length
        < (lexer.skipWhile isGap).rest.length := by
      cases hrest : (lexer.skipWhile isGap).rest with
      | nil => exact absurd rfl (h (lexer.skipWhile isGap).endOfFile (by simp [read, hrest]))
      | cons c source =>
        rw [← hrest]
        exact length_read_lt _ hrest (isGap_head_skipWhile hrest)
          fun hend => h _ hend rfl
    have hpush : (lexer.skipWhile isGap).read.2.pushed = lexer.pushed := pushed_read _
    simp only [size, hpush]
    omega

theorem size_lt_of_next_eq_ok {lexer behind : Lexer} {token : Token}
    (h : lexer.next = (.ok token, behind)) (hend : token.kind ≠ .endOfFile) :
    behind.size < lexer.size := by
  have := lexer.size_next_lt (by rw [h]; intro t ht; cases ht; exact hend)
  rwa [h] at this

end SymbolIndex.Lexer
