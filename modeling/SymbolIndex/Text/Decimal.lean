import SymbolIndex.Text.Pieces
import SymbolIndex.Text.Blank

/-!
# Decimal numbers

A number is written in ASCII digits, with or without a sign.  It is read exactly,
whatever its length; what is too large for a signed word of 32 bits is refused
afterwards.

* `natural?_toDigits`, `word?_toString`: what is written reads back.
-/

namespace SymbolIndex.Decimal

/-- Reads digits, at least one. -/
def natural? (text : List Char) : Option Nat :=
  if text ≠ [] ∧ text.all Char.isDigit then some (Nat.ofDigitChars 10 text 0) else none

/-- Reads digits behind at most one plus sign. -/
def unsigned? (text : List Char) : Option Nat :=
  natural? (if text.head? = some '+' then text.tail else text)

/-- Reads digits behind at most one sign. -/
def integer? (text : List Char) : Option Int :=
  if text.head? = some '-' then (natural? text.tail).map fun n => -(n : Int)
  else (unsigned? text).map fun n => (n : Int)

/-- The least value of a signed word of 32 bits. -/
def minWord : Int := -2147483648

/-- The greatest value of a signed word of 32 bits. -/
def maxWord : Int := 2147483647

/-- Reads a number that fits in a signed word of 32 bits. -/
def word? (text : List Char) : Option Int :=
  (integer? text).filter fun n => minWord ≤ n && n ≤ maxWord

theorem isDigit_of_mem_toDigits {n : Nat} {c : Char} (h : c ∈ Nat.toDigits 10 n) :
    c.isDigit = true :=
  Nat.isDigit_of_mem_toDigits (by decide : 0 < 10) (by decide) h

/-- What is written reads back. -/
theorem natural?_toDigits (n : Nat) : natural? (Nat.toDigits 10 n) = some n := by
  have hne : Nat.toDigits 10 n ≠ [] := Nat.toDigits_ne_nil
  have hall : (Nat.toDigits 10 n).all Char.isDigit = true :=
    List.all_eq_true.2 fun c hc => isDigit_of_mem_toDigits hc
  rw [natural?, if_pos ⟨hne, hall⟩, Nat.ofDigitChars_toDigits (by decide) (by decide)]

theorem toList_toString_natCast (n : Nat) : (toString (n : Int)).toList = Nat.toDigits 10 n :=
  Nat.toList_repr

theorem toList_toString_negSucc (n : Nat) :
    (toString (Int.negSucc n)).toList = '-' :: Nat.toDigits 10 (n + 1) := by
  show ("-" ++ Nat.repr (n + 1)).toList = _
  rw [String.toList_append, Nat.toList_repr]
  rfl

/-- A number is written in digits, perhaps behind a minus sign. -/
theorem isDigit_of_mem_toString {n : Int} {c : Char} (h : c ∈ (toString n).toList) :
    c.isDigit = true ∨ c = '-' := by
  cases n with
  | ofNat n =>
    rw [Int.ofNat_eq_natCast, toList_toString_natCast] at h
    exact .inl (isDigit_of_mem_toDigits h)
  | negSucc n =>
    rw [toList_toString_negSucc] at h
    rcases List.mem_cons.mp h with rfl | h
    · exact .inr rfl
    · exact .inl (isDigit_of_mem_toDigits h)

theorem integer?_toString (n : Int) : integer? (toString n).toList = some n := by
  cases n with
  | ofNat n =>
    have hhead (sign : Char) (hsign : sign.isDigit = false) :
        (Nat.toDigits 10 n).head? ≠ some sign := by
      intro h
      rw [isDigit_of_mem_toDigits (List.mem_of_mem_head? h)] at hsign
      cases hsign
    rw [Int.ofNat_eq_natCast, toList_toString_natCast, integer?, if_neg (hhead '-' (by decide)),
      unsigned?, if_neg (hhead '+' (by decide)), natural?_toDigits]
    rfl
  | negSucc n =>
    rw [toList_toString_negSucc, integer?, if_pos (by rfl), List.tail_cons, natural?_toDigits]
    rfl

/-- What is written reads back, if it fits in a word. -/
theorem word?_toString {n : Int} (h : minWord ≤ n ∧ n ≤ maxWord) :
    word? (toString n).toList = some n := by
  rw [word?, integer?_toString]
  simp [h]

end SymbolIndex.Decimal
