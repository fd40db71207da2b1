/-
  TddyCoder.Text.Unsigned — unsigned decimals as a fixed-width `parse` reads them.

  `parseUnsigned bound` is the standard library's parse of an unsigned integer type whose
  values are below `bound`: one leading `+` is allowed, at least one ASCII digit must
  follow, nothing else may, and a value that does not fit is refused. Leading zeros are
  read. `parseUnsigned_repr`: what is printed in decimal and fits reads back.
-/

import Mathlib.Algebra.Order.Ring.Nat

namespace TddyCoder.Text

/-- The characters after an optional leading `+`. -/
def afterPlus : List Char → List Char
  | '+' :: cs => cs
  | cs => cs

def parseUnsigned (bound : Nat) (s : String) : Option Nat :=
  let digits := afterPlus s.toList
  if digits ≠ [] ∧ digits.all Char.isDigit = true ∧ Nat.ofDigitChars 10 digits 0 < bound then
    some (Nat.ofDigitChars 10 digits 0)
  else none

theorem parseUnsigned_lt {bound n : Nat} {s : String} (h : parseUnsigned bound s = some n) : n < bound := by
  dsimp only [parseUnsigned] at h
  split at h
  · next hfits =>
    cases h
    exact hfits.2.2
  · cases h

theorem afterPlus_of_isDigit {cs : List Char} (h : ∀ c ∈ cs, c.isDigit = true) : afterPlus cs = cs := by
  unfold afterPlus
  split
  · exact absurd (h '+' (by simp)) (by decide)
  · rfl

theorem parseUnsigned_repr {bound n : Nat} (h : n < bound) : parseUnsigned bound (Nat.repr n) = some n := by
  have hl : (Nat.repr n).toList = Nat.toDigits 10 n := by simp [Nat.repr]
  have hd : ∀ c ∈ Nat.toDigits 10 n, c.isDigit = true := fun c hc => Nat.isDigit_of_mem_toDigits (by omega) (by omega) hc
  have hne : Nat.toDigits 10 n ≠ [] := by
    have := Nat.length_toDigits_pos (b := 10) (n := n)
    intro he
    simp [he] at this
  simp only [parseUnsigned, hl, afterPlus_of_isDigit hd, Nat.ofDigitChars_ten_toDigits]
  rw [if_pos ⟨hne, List.all_eq_true.mpr hd, h⟩]

example : parseUnsigned (2 ^ 32) "+007" = some 7 ∧ parseUnsigned (2 ^ 32) "4294967296" = none := by decide

end TddyCoder.Text
