import SymbolIndex.Lexer.Progress

/-!
# Reading to the end

All tokens of a source, up to the end of file or the first error.  References and
index documents are read from these.

The three equations `readAll_of_error`, `readAll_of_endOfFile` and
`readAll_of_token` say what the first call contributes.
-/

namespace SymbolIndex

/-- What a lexer gives until it stops. -/
structure Reading where
  /-- The tokens, the end of file apart. -/
  tokens : List Token
  /-- The token for the end of file, or the error found before it. -/
  ending : Except ParseError Token
  /-- The lexer where it stopped. -/
  lexer : Lexer

namespace Lexer

/-- Reads every token up to the end of file or the first error. -/
def readAll (lexer : Lexer) : Reading :=
  match h : lexer.next with
  | (.error error, behind) => ⟨[], .error error, behind⟩
  | (.ok token, behind) =>
    if hend : token.kind = .endOfFile then ⟨[], .ok token, behind⟩
    else
      have : behind.size < lexer.size := size_lt_of_next_eq_ok h hend
      let reading := behind.readAll
      { reading with tokens := token :: reading.tokens }
termination_by lexer.size

theorem readAll_of_error {lexer behind : Lexer} {error : ParseError}
    (h : lexer.next = (.error error, behind)) : lexer.readAll = ⟨[], .error error, behind⟩ := by
  rw [readAll]
  split <;> simp_all

theorem readAll_of_endOfFile {lexer behind : Lexer} {token : Token}
    (h : lexer.next = (.ok token, behind)) (hend : token.kind = .endOfFile) :
    lexer.readAll = ⟨[], .ok token, behind⟩ := by
  rw [readAll]
  split <;> simp_all

theorem readAll_of_token {lexer behind : Lexer} {token : Token}
    (h : lexer.next = (.ok token, behind)) (hend : token.kind ≠ .endOfFile) :
    lexer.readAll = { behind.readAll with tokens := token :: behind.readAll.tokens } := by
  rw [readAll]
  split <;> simp_all

end Lexer

end SymbolIndex
