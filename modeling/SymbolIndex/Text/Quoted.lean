/-!
# Quoted text

A name may be written in double quotes, so that it can hold characters that
would end it otherwise; inside, `\"` stands for a quote.  Reading is lenient: the
two characters `\"` give a quote wherever they stand, any other quote is dropped,
and a backslash in front of anything else stands for itself.

* `decode_append`: reading goes piece by piece, as long as the first piece does
  not end in a backslash.
* `decode_encode`: what is written reads back, for text that does not end in a
  backslash (such a backslash would escape the closing quote).
-/

namespace SymbolIndex.Quoted

def decode : List Char → List Char
  | [] => []
  | '\\' :: '"' :: rest => '"' :: decode rest
  | '"' :: rest => decode rest
  | c :: rest => c :: decode rest

/-- Puts a backslash in front of every quote. -/
def escape : List Char → List Char
  | [] => []
  | c :: rest => if c = '"' then '\\' :: '"' :: escape rest else c :: escape rest

/-- Writes text in double quotes. -/
def encode (text : List Char) : List Char :=
  '"' :: (escape text ++ ['"'])

/-! ## What is written reads back -/

/-- Reading goes piece by piece, unless a backslash ends the first piece. -/
theorem decode_append (s t : List Char) (h : s.getLast? ≠ some '\\') :
    decode (s ++ t) = decode s ++ decode t := by
  fun_induction decode s with
  | case1 => rfl
  | case2 rest ih =>
    rw [List.cons_append, List.cons_append, decode, ih, List.cons_append]
    cases rest <;> simp_all [List.getLast?_cons]
  | case3 rest ih =>
    rw [List.cons_append, decode, ih]
    cases rest <;> simp_all [List.getLast?_cons]
  | case4 c rest hesc hquote ih =>
    rw [List.cons_append, decode, ih, List.cons_append]
    · cases rest <;> simp_all [List.getLast?_cons]
    · intro r hc hr
      cases rest with
      | nil => simp_all
      | cons d rest => simp_all
    · exact hquote

theorem decode_escape (s : List Char) : decode (escape s) = s := by
  induction s with
  | nil => rfl
  | cons c r ih =>
    by_cases h : c = '"'
    · simp [escape, h, decode, ih]
    · rw [escape, if_neg h, decode, ih]
      · intro rest _ hr
        cases r with
        | nil => simp [escape] at hr
        | cons d r =>
          rw [escape] at hr
          split at hr <;> simp_all
      · exact h

theorem getLast?_escape (s : List Char) : (escape s).getLast? = s.getLast? := by
  induction s with
  | nil => rfl
  | cons c r ih =>
    by_cases h : c = '"' <;> simp [escape, h, List.getLast?_cons, ih]

/-- What is written reads back. -/
theorem decode_encode (s : List Char) (h : s.getLast? ≠ some '\\') : decode (encode s) = s := by
  rw [encode, decode, decode_append _ _ (by rwa [getLast?_escape]), decode_escape]
  simp [decode]

end SymbolIndex.Quoted

namespace SymbolIndex

/-- The text that `text` stands for once its quotes are read. -/
def unquote (text : String) : String :=
  .ofList (Quoted.decode text.toList)

def quote (text : String) : String :=
  .ofList (Quoted.encode text.toList)

theorem unquote_quote (text : String) (h : text.toList.getLast? ≠ some '\\') :
    unquote (quote text) = text := by
  simp [unquote, quote, Quoted.decode_encode _ h]

end SymbolIndex
