import Mathlib.Data.List.TakeWhile

/-!
# Texts as C reads them

`cString` is what a function that is given a pointer sees of a text, and `isSpace` is `isspace`
in the C locale.
-/

namespace MergeBot.Foundation

/-- The text behind a pointer ends at its first zero. -/
def cString (text : List Char) : List Char := text.takeWhile (· ≠ '\x00')

/-- A text without zeros is seen as a whole. -/
theorem cString_eq_self {text : List Char} (nonNul : ∀ c ∈ text, c ≠ '\x00') :
    cString text = text :=
  List.takeWhile_eq_self_iff.mpr fun c member => decide_eq_true (nonNul c member)

/-- The characters that `isspace` accepts in the C locale. -/
def isSpace (c : Char) : Bool :=
  c = ' ' || (9 ≤ c.toNat && c.toNat ≤ 13)

/-- Digits are no white space. -/
theorem not_isSpace_of_isDigit {c : Char} (digit : c.isDigit) : ¬ isSpace c := by
  intro space
  have low : 48 ≤ c.toNat := (Char.isDigit_iff_toNat.mp digit).1
  have cases_ : c = ' ' ∨ 9 ≤ c.toNat ∧ c.toNat ≤ 13 := by simpa [isSpace] using space
  rcases cases_ with rfl | ⟨-, high⟩
  · exact absurd digit (by decide)
  · omega

end MergeBot.Foundation
