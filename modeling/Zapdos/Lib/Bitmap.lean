/-
  Bitmaps — a set of numbers as the bits of an array of machine words.

  Number `i` is bit `i % w` of word `i / w`.  Setting and clearing one bit adds and removes one number.
-/
import Mathlib.Data.Nat.Notation
import Mathlib.Tactic.SplitIfs

namespace Zapdos.Lib

/-- An array of words of `w` bits. -/
abbrev Bitmap (w : ℕ) := List (BitVec w)

namespace Bitmap

variable {w : ℕ} {set : Bitmap w} {i j : ℕ}

/-- `n` words without a bit. -/
def blank (w n : ℕ) : Bitmap w := List.replicate n 0

/-- The word of a number. -/
def wordAt (set : Bitmap w) (i : ℕ) : BitVec w := set.getD (i / w) 0

/-- `(size_t)1 << (i % w)`. -/
def mask (w i : ℕ) : BitVec w := BitVec.twoPow w (i % w)

/-- The number is in the set. -/
def isset (set : Bitmap w) (i : ℕ) : Bool := set.wordAt i &&& mask w i != 0

/-- The number is added. -/
def setbit (set : Bitmap w) (i : ℕ) : Bitmap w := set.set (i / w) (set.wordAt i ||| mask w i)

/-- The number is removed. -/
def clrbit (set : Bitmap w) (i : ℕ) : Bitmap w := set.set (i / w) (set.wordAt i &&& ~~~ mask w i)

/-- A number is in the set when its bit of its word is set. -/
theorem isset_eq_getLsbD (hw : 0 < w) : set.isset i = (set.wordAt i).getLsbD (i % w) := by
  have hlt : i % w < w := Nat.mod_lt _ hw
  have hpos : BitVec.twoPow w (i % w) ≠ 0#w := by
    intro h
    have hbit := congrArg (BitVec.getLsbD · (i % w)) h
    simp [hlt] at hbit
  rw [isset, mask, BitVec.and_twoPow]
  split_ifs with h
  · rw [h]
    simpa using hpos
  · simp only [Bool.not_eq_true] at h
    rw [h]
    simp

/-- The mask of a number has its bit only. -/
theorem getLsbD_mask (hw : 0 < w) (i k : ℕ) : (mask w i).getLsbD k = decide (i % w = k) := by
  rw [mask, BitVec.getLsbD_twoPow]
  simp [Nat.mod_lt i hw]

/-- Two numbers share word and bit only when they are equal. -/
theorem eq_of_word_bit (hdiv : i / w = j / w) (hmod : i % w = j % w) : i = j := by
  rw [← Nat.div_add_mod i w, ← Nat.div_add_mod j w, hdiv, hmod]

/-- A write to one word leaves the other words as they are. -/
theorem wordAt_set {x : BitVec w} (hi : i / w < set.length) :
    wordAt (set.set (i / w) x) j = if i / w = j / w then x else set.wordAt j := by
  rw [wordAt, wordAt, List.getD_eq_getElem?_getD, List.getElem?_set, List.getD_eq_getElem?_getD]
  split_ifs with h <;> simp

/-- **Setting a bit** adds its number and no other. -/
theorem isset_setbit (hw : 0 < w) (hi : i / w < set.length) :
    (set.setbit i).isset j = (decide (i = j) || set.isset j) := by
  rw [isset_eq_getLsbD hw, isset_eq_getLsbD hw, setbit, wordAt_set hi]
  split_ifs with hdiv
  · rw [BitVec.getLsbD_or, getLsbD_mask hw, Bool.or_comm, wordAt, wordAt, hdiv]
    congr 1
    exact decide_eq_decide.mpr ⟨eq_of_word_bit hdiv, fun h => h ▸ rfl⟩
  · have hne : i ≠ j := fun h => hdiv (h ▸ rfl)
    simp [hne]

/-- **Clearing a bit** removes its number and no other. -/
theorem isset_clrbit (hw : 0 < w) (hi : i / w < set.length) :
    (set.clrbit i).isset j = (decide (i ≠ j) && set.isset j) := by
  rw [isset_eq_getLsbD hw, isset_eq_getLsbD hw, clrbit, wordAt_set hi]
  split_ifs with hdiv
  · have hlt : j % w < w := Nat.mod_lt _ hw
    rw [BitVec.getLsbD_and, BitVec.getLsbD_not, getLsbD_mask hw, Bool.and_comm, wordAt, wordAt, hdiv]
    congr 1
    rw [decide_eq_true hlt, Bool.true_and, ← decide_not]
    exact decide_eq_decide.mpr (not_congr ⟨eq_of_word_bit hdiv, fun h => h ▸ rfl⟩)
  · have hne : i ≠ j := fun h => hdiv (h ▸ rfl)
    simp [hne]

/-- A bit that is set adds no word. -/
@[simp] theorem length_setbit : (set.setbit i).length = set.length := List.length_set

/-- Nor does one that is cleared. -/
@[simp] theorem length_clrbit : (set.clrbit i).length = set.length := List.length_set

/-- A blank bitmap has the words it was made with. -/
@[simp] theorem length_blank (n : ℕ) : (blank w n).length = n := List.length_replicate

/-- No number is in a blank bitmap. -/
theorem isset_blank (hw : 0 < w) (n i : ℕ) : (blank w n).isset i = false := by
  have hword : (blank w n).wordAt i = 0 := by
    rw [wordAt, blank, List.getD_eq_getElem?_getD, List.getElem?_replicate]
    split_ifs <;> rfl
  rw [isset_eq_getLsbD hw, hword]
  simp

/-- Setting some bits one after the other. -/
theorem isset_foldl_setbit (hw : 0 < w) {is : List ℕ} (his : ∀ i ∈ is, i / w < set.length) :
    (is.foldl setbit set).length = set.length ∧
      ∀ j, (is.foldl setbit set).isset j = true ↔ j ∈ is ∨ set.isset j = true := by
  induction is generalizing set with
  | nil => exact ⟨rfl, fun j => by simp⟩
  | cons i is ih =>
    obtain ⟨hlen, hset⟩ := @ih (set.setbit i) fun i' hi' => by
      rw [length_setbit]
      exact his i' (List.mem_cons_of_mem i hi')
    refine ⟨hlen.trans length_setbit, fun j => ?_⟩
    rw [List.foldl_cons, hset, isset_setbit hw (his i List.mem_cons_self), Bool.or_eq_true, decide_eq_true_eq,
      List.mem_cons, or_left_comm, or_assoc, eq_comm]

/-- Enough words for the numbers below `m`. -/
theorem div_lt_words (hw : 0 < w) {m : ℕ} (hi : i < m) : i / w < (m + (w - 1)) / w := by
  rw [Nat.div_lt_iff_lt_mul hw]
  have hup : m ≤ (m + (w - 1)) / w * w := by
    have hmod := Nat.mod_lt (m + (w - 1)) hw
    have hdiv := Nat.div_add_mod' (m + (w - 1)) w
    omega
  exact Nat.lt_of_lt_of_le hi hup

end Bitmap

end Zapdos.Lib
