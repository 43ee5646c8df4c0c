/-
  Characters as bytes — the character classes of the "C" locale.

  Only ASCII characters belong to a class; a byte of a multi-byte character belongs to none.
-/
import Mathlib.Data.UInt

namespace Zapdos.Lib

/-- A character of the source. -/
def chr (c : Char) : UInt8 := UInt8.ofNat c.toNat

/-- `std::isalnum`. -/
def isAlnum (c : UInt8) : Bool :=
  (48 ≤ c.toNat && c.toNat ≤ 57) || (65 ≤ c.toNat && c.toNat ≤ 90)
    || (97 ≤ c.toNat && c.toNat ≤ 122)

/-- `std::isalpha`. -/
def isAlpha (c : UInt8) : Bool :=
  (65 ≤ c.toNat && c.toNat ≤ 90) || (97 ≤ c.toNat && c.toNat ≤ 122)

/-- `std::isspace`. -/
def isSpace (c : UInt8) : Bool := (9 ≤ c.toNat && c.toNat ≤ 13) || c.toNat = 32

/-- `std::ispunct`. -/
def isPunct (c : UInt8) : Bool := 33 ≤ c.toNat && c.toNat ≤ 126 && !isAlnum c

/-- `std::tolower`. -/
def toLower (c : UInt8) : UInt8 := if 65 ≤ c.toNat ∧ c.toNat ≤ 90 then c + 32 else c

/-- White space is no part of a word. -/
theorem isAlnum_of_isSpace {c : UInt8} (h : isSpace c = true) : isAlnum c = false := by
  simp only [isSpace, Bool.or_eq_true, Bool.and_eq_true, decide_eq_true_eq] at h
  simp only [isAlnum, Bool.or_eq_false_iff, Bool.and_eq_false_iff, decide_eq_false_iff_not]
  omega

end Zapdos.Lib
