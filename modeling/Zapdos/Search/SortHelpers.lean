/-
  Sort keys — three numbers packed into one hexadecimal text.

  `EncodeSortKey<uint64_t, double, uint64_t>` prints weight, score and id one after another, each
  first moved to an unsigned 64-bit code.  The weight and the id are clamped to 31 bits and always
  take 16 digits; the score's code is offset only when the score is positive, and is printed without
  padding.

  Scores are exact rationals here and integer conversions wrap around, as `llround` and the casts do.

  THE LAWS THE CLIENTS USE.
    * `encodeSortKey_inj`        — two keys are equal exactly when the clamped weights, the clamped
                                   ids and the score codes are;
    * `encodeSortKey_lt_iff`     — the clamped weight decides first, then the text of score and id;
    * `codeText_lt_iff`          — scores in range that are `1/10000` apart compare like numbers,
                                   unless exactly one of them rounds below zero.
-/
import Mathlib.Algebra.Order.Floor.Ring
import Mathlib.Data.Rat.Floor
import Mathlib.Tactic.Linarith
import Zapdos.Lib.Radix
import Zapdos.Store.Types

namespace Zapdos.Search

open Zapdos.Lib Zapdos.Store

/-! ## The encoding -/

/-- `DR_BUFF_INT`. -/
def drBuffInt : ℕ := 10000

/-- `DR_BUFF_MAX`. -/
def drBuffMax : ℕ := 2147483647

/-- `std::numeric_limits<int64_t>::max()`. -/
def int64Max : ℕ := 9223372036854775807

/-- `std::llround`: to the nearest integer, halves away from zero. -/
def llround (q : ℚ) : ℤ := if 0 ≤ q then ⌊q + 1 / 2⌋ else -⌊-q + 1 / 2⌋

/-- A number printed with `std::setbase(16)`. -/
def hexOut (n : ℕ) : Bytes := Radix.numeral 16 chr n

/-- `std::setfill('0')` with `std::setw(w)`, which hold for the next output only. -/
def setwOut (w : ℕ) (s : Bytes) : Bytes := List.replicate (w - s.length) 48 ++ s

/-- What `MakeSortKey` prints for a `uint64_t`. -/
def makeSortKeyUInt64 (t : ℕ) : ℕ :=
  let t := if t > drBuffMax then drBuffMax else t
  (t * drBuffInt + int64Max) % 2 ^ 64

/-- What `MakeSortKey` prints for a `double`. -/
def makeSortKeyDouble (t : ℚ) : ℕ :=
  ((llround (t * drBuffInt) + if t > 0 then (int64Max : ℤ) else 0) % 2 ^ 64).toNat

/-- `EncodeSortKey<uint64_t, double, uint64_t>`. -/
def encodeSortKey (weight : ℕ) (score : ℚ) (id : ℕ) : Bytes :=
  setwOut 16 (hexOut (makeSortKeyUInt64 weight)) ++ hexOut (makeSortKeyDouble score)
    ++ hexOut (makeSortKeyUInt64 id)

/-! ## Rounding -/

theorem llround_of_nonneg {q : ℚ} (h : 0 ≤ q) : llround q = ⌊q + 1 / 2⌋ := if_pos h

theorem llround_of_neg {q : ℚ} (h : q < 0) : llround q = -⌊-q + 1 / 2⌋ := if_neg (not_le.mpr h)

theorem llround_nonneg {q : ℚ} (h : 0 ≤ q) : 0 ≤ llround q := by
  rw [llround_of_nonneg h]
  exact Int.floor_nonneg.mpr (by linarith)

theorem llround_nonpos {q : ℚ} (h : q ≤ 0) : llround q ≤ 0 := by
  rcases lt_or_eq_of_le h with hneg | rfl
  · rw [llround_of_neg hneg]
    have hfloor : 0 ≤ ⌊-q + 1 / 2⌋ := Int.floor_nonneg.mpr (by linarith)
    omega
  · rw [llround_of_nonneg le_rfl]
    norm_num

/-- A rational that rounds to a negative number is at most one half below zero. -/
theorem llround_neg_iff {q : ℚ} : llround q < 0 ↔ q ≤ -(1 / 2) := by
  constructor
  · intro h
    have hneg : q < 0 := by
      by_contra hq
      have := llround_nonneg (not_lt.mp hq)
      omega
    rw [llround_of_neg hneg] at h
    have hone : (1 : ℤ) ≤ ⌊-q + 1 / 2⌋ := by omega
    have := Int.le_floor.mp hone
    push_cast at this
    linarith
  · intro h
    rw [llround_of_neg (by linarith)]
    have hone : (1 : ℤ) ≤ ⌊-q + 1 / 2⌋ := Int.le_floor.mpr (by push_cast; linarith)
    omega

/-- Rationals at least one apart round to different integers, in the same order. -/
theorem llround_add_one_le {p q : ℚ} (h : p + 1 ≤ q) : llround p + 1 ≤ llround q := by
  by_cases hp : 0 ≤ p
  · rw [llround_of_nonneg hp, llround_of_nonneg (by linarith), ← Int.floor_add_one]
    exact Int.floor_le_floor (by linarith)
  · by_cases hq : 0 ≤ q
    · rw [llround_of_neg (not_le.mp hp), llround_of_nonneg hq]
      have hsum : p + 1 / 2 ≤ q - 1 / 2 := by linarith
      by_cases hhalf : p ≤ -(1 / 2)
      · have h1 : (1 : ℤ) ≤ ⌊-p + 1 / 2⌋ := Int.le_floor.mpr (by push_cast; linarith)
        have h2 : 0 ≤ ⌊q + 1 / 2⌋ := Int.floor_nonneg.mpr (by linarith)
        omega
      · have h1 : 0 ≤ ⌊-p + 1 / 2⌋ := Int.floor_nonneg.mpr (by linarith [not_le.mp hp])
        have h2 : (1 : ℤ) ≤ ⌊q + 1 / 2⌋ := Int.le_floor.mpr (by push_cast; linarith [not_le.mp hhalf])
        omega
    · rw [llround_of_neg (not_le.mp hp), llround_of_neg (not_le.mp hq)]
      have hle : ⌊-q + 1 / 2⌋ + 1 ≤ ⌊-p + 1 / 2⌋ := by
        rw [← Int.floor_add_one]
        exact Int.floor_le_floor (by linarith)
      omega

/-! ## Codes -/

theorem makeSortKeyUInt64_eq (t : ℕ) :
    makeSortKeyUInt64 t = min t drBuffMax * drBuffInt + int64Max := by
  have hmin : min t drBuffMax ≤ drBuffMax := Nat.min_le_right _ _
  have hclamp : (if t > drBuffMax then drBuffMax else t) = min t drBuffMax := by
    split_ifs <;> omega
  show ((if t > drBuffMax then drBuffMax else t) * drBuffInt + int64Max) % 2 ^ 64 = _
  rw [hclamp]
  generalize min t drBuffMax = m at hmin
  unfold drBuffMax at hmin
  unfold drBuffInt int64Max
  omega

theorem makeSortKeyUInt64_inj {t t' : ℕ} :
    makeSortKeyUInt64 t = makeSortKeyUInt64 t' ↔ min t drBuffMax = min t' drBuffMax := by
  rw [makeSortKeyUInt64_eq, makeSortKeyUInt64_eq]
  unfold drBuffInt int64Max
  omega

theorem makeSortKeyUInt64_lt {t t' : ℕ} :
    makeSortKeyUInt64 t < makeSortKeyUInt64 t' ↔ min t drBuffMax < min t' drBuffMax := by
  rw [makeSortKeyUInt64_eq, makeSortKeyUInt64_eq]
  unfold drBuffInt int64Max
  omega

theorem makeSortKeyDouble_lt (t : ℚ) : makeSortKeyDouble t < 2 ^ 64 := by
  unfold makeSortKeyDouble
  omega

/-! ## Hexadecimal texts -/

/-- The sixteen digits are in the order of their bytes. -/
theorem hexDigit_lt : ∀ d e : ℕ, d < e → e < 16 →
    chr d.digitChar < chr e.digitChar := by
  intro d e hlt he
  have hall : ∀ e < 16, ∀ d < e,
      chr d.digitChar < chr e.digitChar := by decide
  exact hall e he d hlt

theorem hexOut_inj {m n : ℕ} : hexOut m = hexOut n ↔ m = n :=
  ⟨Radix.numeral_inj hexDigit_lt (by omega), fun h => h ▸ rfl⟩

theorem hexOut_lt_iff {m n : ℕ} (h : (hexOut m).length = (hexOut n).length) :
    hexOut m < hexOut n ↔ m < n :=
  Radix.numeral_lt_iff hexDigit_lt (by omega) h

/-- A number of the top four bits takes all sixteen digits. -/
theorem length_hexOut {n : ℕ} (hlo : 2 ^ 60 ≤ n) (hhi : n < 2 ^ 64) : (hexOut n).length = 16 := by
  have hlo' : 16 ^ 15 ≤ n := by
    rw [show (16 : ℕ) ^ 15 = 2 ^ 60 by norm_num]
    exact hlo
  have hhi' : n < 16 ^ (15 + 1) := by
    rw [show (16 : ℕ) ^ (15 + 1) = 2 ^ 64 by norm_num]
    exact hhi
  exact Radix.length_numeral (by omega) hlo' hhi'

theorem length_hexOut_uint64 (t : ℕ) : (hexOut (makeSortKeyUInt64 t)).length = 16 := by
  have heq := makeSortKeyUInt64_eq t
  have hmin : min t drBuffMax ≤ drBuffMax := Nat.min_le_right _ _
  generalize makeSortKeyUInt64 t = n at heq
  generalize min t drBuffMax = m at heq hmin
  unfold drBuffInt int64Max at heq
  unfold drBuffMax at hmin
  exact length_hexOut (by omega) (by omega)

@[simp] theorem setwOut_uint64 (t : ℕ) :
    setwOut 16 (hexOut (makeSortKeyUInt64 t)) = hexOut (makeSortKeyUInt64 t) := by
  unfold setwOut
  rw [length_hexOut_uint64, Nat.sub_self, List.replicate_zero, List.nil_append]

/-! ## Comparing keys -/

theorem encodeSortKey_eq (weight : ℕ) (score : ℚ) (id : ℕ) :
    encodeSortKey weight score id = hexOut (makeSortKeyUInt64 weight)
      ++ (hexOut (makeSortKeyDouble score) ++ hexOut (makeSortKeyUInt64 id)) := by
  unfold encodeSortKey
  rw [setwOut_uint64, List.append_assoc]

/-- **What a key keeps**: the clamped weight, the score's code and the clamped id. -/
theorem encodeSortKey_inj {w w' i i' : ℕ} {s s' : ℚ} :
    encodeSortKey w s i = encodeSortKey w' s' i' ↔
      min w drBuffMax = min w' drBuffMax ∧ makeSortKeyDouble s = makeSortKeyDouble s' ∧
        min i drBuffMax = min i' drBuffMax := by
  rw [encodeSortKey_eq, encodeSortKey_eq]
  constructor
  · intro h
    obtain ⟨hw, hrest⟩ := List.append_inj h (by rw [length_hexOut_uint64, length_hexOut_uint64])
    obtain ⟨hs, hi⟩ := List.append_inj' hrest (by rw [length_hexOut_uint64, length_hexOut_uint64])
    exact ⟨makeSortKeyUInt64_inj.mp (hexOut_inj.mp hw), hexOut_inj.mp hs,
      makeSortKeyUInt64_inj.mp (hexOut_inj.mp hi)⟩
  · rintro ⟨hw, hs, hi⟩
    rw [makeSortKeyUInt64_inj.mpr hw, hs, makeSortKeyUInt64_inj.mpr hi]

/-- The text of a key after the weight. -/
def codeText (score : ℚ) (id : ℕ) : Bytes :=
  hexOut (makeSortKeyDouble score) ++ hexOut (makeSortKeyUInt64 id)

/-- **The clamped weight decides first.** -/
theorem encodeSortKey_lt_iff {w w' i i' : ℕ} {s s' : ℚ} :
    encodeSortKey w s i < encodeSortKey w' s' i' ↔
      min w drBuffMax < min w' drBuffMax ∨
        (min w drBuffMax = min w' drBuffMax ∧ codeText s i < codeText s' i') := by
  have hlen : (hexOut (makeSortKeyUInt64 w)).length = (hexOut (makeSortKeyUInt64 w')).length := by
    rw [length_hexOut_uint64, length_hexOut_uint64]
  rw [encodeSortKey_eq, encodeSortKey_eq, Radix.append_lt_append_iff hlen, hexOut_lt_iff hlen,
    hexOut_inj, makeSortKeyUInt64_lt, makeSortKeyUInt64_inj]
  rfl

/-- Score codes of sixteen digits compare like numbers. -/
theorem codeText_lt {s s' : ℚ} {i i' : ℕ} (hs : 2 ^ 60 ≤ makeSortKeyDouble s)
    (hlt : makeSortKeyDouble s < makeSortKeyDouble s') : codeText s i < codeText s' i' := by
  have hlen : (hexOut (makeSortKeyDouble s)).length = (hexOut (makeSortKeyDouble s')).length := by
    rw [length_hexOut hs (makeSortKeyDouble_lt s),
      length_hexOut (by omega) (makeSortKeyDouble_lt s')]
  exact (Radix.append_lt_append_iff hlen).mpr (Or.inl ((hexOut_lt_iff hlen).mpr hlt))

/-- The score code 0, a single digit, comes before every code of sixteen digits. -/
theorem codeText_zero_lt {s s' : ℚ} {i i' : ℕ} (hs : makeSortKeyDouble s = 0)
    (hs' : 2 ^ 60 ≤ makeSortKeyDouble s') : codeText s i < codeText s' i' := by
  have hlt := makeSortKeyDouble_lt s'
  unfold codeText
  rw [hs]
  generalize makeSortKeyDouble s' = c at hs' hlt
  have hlo : 16 ^ 15 ≤ c := by
    rw [show (16 : ℕ) ^ 15 = 2 ^ 60 by norm_num]
    exact hs'
  have hhi : c < 16 ^ (15 + 1) := by
    rw [show (16 : ℕ) ^ (15 + 1) = 2 ^ 64 by norm_num]
    exact hlt
  have hpos : 0 < c / 16 ^ 15 := Nat.div_pos hlo (by norm_num)
  have hdigit : c / 16 ^ 15 < 16 := by
    rw [Nat.div_lt_iff_lt_mul (by norm_num), ← Nat.pow_succ']
    exact hhi
  obtain ⟨rest, hrest⟩ :=
    Radix.numeral_eq_cons (f := chr) (by omega : 1 < 16) hlo hhi
  unfold hexOut
  rw [hrest, Radix.numeral_of_lt (by omega : 0 < 16), List.cons_append, List.cons_append,
    List.cons_lt_cons_iff]
  exact Or.inl (hexDigit_lt 0 (c / 16 ^ 15) hpos hdigit)

/-! ## Scores in range -/

/-- A score whose code does not wrap around on the wrong side. -/
def ScoreInRange (t : ℚ) : Prop :=
  -(2 ^ 62) ≤ llround (t * drBuffInt) ∧ llround (t * drBuffInt) ≤ 2 ^ 62

theorem code_pos {t : ℚ} (ht : 0 < t) (hr : ScoreInRange t) :
    (makeSortKeyDouble t : ℤ) = llround (t * drBuffInt) + int64Max := by
  have hnn : 0 ≤ llround (t * drBuffInt) := llround_nonneg (by positivity)
  obtain ⟨-, hhi⟩ := hr
  unfold makeSortKeyDouble
  rw [if_pos ht]
  generalize llround (t * drBuffInt) = r at hnn hhi
  unfold int64Max
  omega

theorem code_neg {t : ℚ} (ht : llround (t * drBuffInt) < 0) (hr : ScoreInRange t) :
    (makeSortKeyDouble t : ℤ) = llround (t * drBuffInt) + 2 ^ 64 := by
  have hneg : ¬ t > 0 := by
    intro hpos
    have := llround_nonneg (q := t * drBuffInt) (by positivity)
    omega
  obtain ⟨hlo, -⟩ := hr
  unfold makeSortKeyDouble
  rw [if_neg hneg]
  generalize llround (t * drBuffInt) = r at ht hlo
  omega

theorem code_zero {t : ℚ} (ht : t ≤ 0) (hr : 0 ≤ llround (t * drBuffInt)) :
    makeSortKeyDouble t = 0 := by
  have hnp : llround (t * drBuffInt) ≤ 0 :=
    llround_nonpos (mul_nonpos_of_nonpos_of_nonneg ht (by positivity))
  have heq : llround (t * drBuffInt) = 0 := by omega
  unfold makeSortKeyDouble
  rw [if_neg (not_lt.mpr ht), heq]
  rfl

/-- A score that rounds to a negative code number. -/
theorem scaled_neg_iff {t : ℚ} : llround (t * drBuffInt) < 0 ↔ t ≤ -(1 / 20000) := by
  rw [llround_neg_iff]
  unfold drBuffInt
  constructor
  · intro h
    push_cast at h
    linarith
  · intro h
    push_cast
    linarith

/-- **How two scores at least `1/10000` apart compare**: like numbers, unless one of them rounds below
    zero and the other does not. -/
theorem codeText_lt_iff {s t : ℚ} {i j : ℕ} (hs : ScoreInRange s) (ht : ScoreInRange t)
    (hgap : t + 1 / 10000 ≤ s) :
    codeText t j < codeText s i ↔ ¬ (t ≤ -(1 / 20000) ∧ -(1 / 20000) < s) := by
  have hround : llround (t * drBuffInt) + 1 ≤ llround (s * drBuffInt) := by
    apply llround_add_one_le
    unfold drBuffInt
    push_cast
    linarith
  have hsneg := not_congr (scaled_neg_iff (t := s))
  rw [not_lt, not_le] at hsneg
  rw [← scaled_neg_iff, ← hsneg]
  by_cases htn : llround (t * drBuffInt) < 0
  · have htc := code_neg htn ht
    by_cases hsn : llround (s * drBuffInt) < 0
    · -- both wrap around
      have hsc := code_neg hsn hs
      have hrange := ht.1
      refine iff_of_true (codeText_lt (by omega) (by omega)) ?_
      omega
    · -- the lower score wraps around to a large code
      refine iff_of_false ?_ (by omega)
      have hrange := ht.1
      have hrange' := hs.2
      refine not_lt_of_gt ?_
      by_cases hpos : 0 < s
      · have hsc := code_pos hpos hs
        unfold int64Max at hsc
        exact codeText_lt (by omega) (by omega)
      · exact codeText_zero_lt (code_zero (not_lt.mp hpos) (not_lt.mp hsn)) (by omega)
  · -- neither is negative, so the higher one is positive
    refine iff_of_true ?_ (by omega)
    have hpos : 0 < s := by
      by_contra hn
      have := llround_nonpos (q := s * drBuffInt)
        (mul_nonpos_of_nonpos_of_nonneg (not_lt.mp hn) (by positivity))
      omega
    have hsc := code_pos hpos hs
    unfold int64Max at hsc
    by_cases htp : 0 < t
    · have htc := code_pos htp ht
      unfold int64Max at htc
      exact codeText_lt (by omega) (by omega)
    · exact codeText_zero_lt (code_zero (not_lt.mp htp) (not_lt.mp htn)) (by omega)

end Zapdos.Search
