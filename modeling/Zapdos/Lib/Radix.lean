/-
  Positional numerals and the order of texts.

  Keys that pack numbers into a text rely on two facts: texts of one length compare like the numbers
  they spell, and a text splits again at a position that is known beforehand.  Both hold in every base
  and over every alphabet whose digits are in order.

  THE LAWS THE CLIENTS USE.
    * `append_lt_append_iff`   — the first parts decide, the second parts break ties;
    * `numeral_lt_iff`         — numerals of one length compare like their numbers;
    * `numeral_inj`            — a numeral spells one number;
    * `length_numeral`, `numeral_eq_cons` — how long a numeral is and how it starts;
    * `fixed_lt_iff`, `fixed_inj`, `padded_eq_fixed` — numerals of a fixed width.
-/
import Mathlib.Data.List.Lex
import Mathlib.Order.Basic
import Mathlib.Tactic.Ring

namespace Zapdos.Lib.Radix

variable {α : Type*}

/-! ## Texts side by side -/

/-- Two texts that start with parts of one length compare by these parts, then by what follows. -/
theorem append_lt_append_iff [LinearOrder α] {a a' b b' : List α} (h : a.length = a'.length) :
    a ++ b < a' ++ b' ↔ a < a' ∨ (a = a' ∧ b < b') := by
  induction a generalizing a' with
  | nil =>
    have ha' : a' = [] := List.length_eq_zero_iff.mp h.symm
    subst ha'
    simp
  | cons x xs ih =>
    cases a' with
    | nil => simp at h
    | cons y ys =>
      have hlen : xs.length = ys.length := by simpa using h
      rw [List.cons_append, List.cons_append, List.cons_lt_cons_iff, List.cons_lt_cons_iff, ih hlen]
      constructor
      · rintro (hlt | ⟨rfl, hlt | ⟨rfl, hb⟩⟩)
        · exact Or.inl (Or.inl hlt)
        · exact Or.inl (Or.inr ⟨rfl, hlt⟩)
        · exact Or.inr ⟨rfl, hb⟩
      · rintro ((hlt | ⟨rfl, hlt⟩) | ⟨heq, hb⟩)
        · exact Or.inl hlt
        · exact Or.inr ⟨rfl, Or.inl hlt⟩
        · obtain ⟨rfl, rfl⟩ := List.cons.inj heq
          exact Or.inr ⟨rfl, Or.inr ⟨rfl, hb⟩⟩

/-! ## Numerals -/

/-- The numeral of `n` in base `b`, most significant digit first, every digit written by `f`. -/
def numeral (b : ℕ) (f : Char → α) (n : ℕ) : List α := (Nat.toDigits b n).map f

section

variable {b : ℕ} {f : Char → α}

theorem numeral_of_lt {n : ℕ} (h : n < b) : numeral b f n = [f n.digitChar] := by
  unfold numeral
  rw [Nat.toDigits_of_lt_base h, List.map_singleton]

theorem numeral_of_le (hb : 1 < b) {n : ℕ} (h : b ≤ n) :
    numeral b f n = numeral b f (n / b) ++ [f (n % b).digitChar] := by
  unfold numeral
  rw [Nat.toDigits_of_base_le hb h, List.map_append, List.map_singleton]

theorem numeral_ne_nil (n : ℕ) : numeral b f n ≠ [] := by
  unfold numeral
  simp [Nat.toDigits_ne_nil]

/-- Dropping the last of at least two digits. -/
theorem div_bounds (hb : 1 < b) {n k : ℕ} (hlo : b ^ (k + 1) ≤ n) (hhi : n < b ^ (k + 1 + 1)) :
    b ≤ n ∧ b ^ k ≤ n / b ∧ n / b < b ^ (k + 1) := by
  have hpow : b ^ 1 ≤ b ^ (k + 1) := Nat.pow_le_pow_right (by omega) (by omega)
  rw [Nat.pow_one] at hpow
  refine ⟨by omega, ?_, ?_⟩
  · rw [Nat.le_div_iff_mul_le (by omega), ← Nat.pow_succ]
    exact hlo
  · rw [Nat.div_lt_iff_lt_mul (by omega), ← Nat.pow_succ]
    exact hhi

/-- How long a numeral is. -/
theorem length_numeral (hb : 1 < b) {n k : ℕ} (hlo : b ^ k ≤ n) (hhi : n < b ^ (k + 1)) :
    (numeral b f n).length = k + 1 := by
  induction k generalizing n with
  | zero =>
    rw [numeral_of_lt (by simpa using hhi)]
    rfl
  | succ k ih =>
    obtain ⟨hle, hlo', hhi'⟩ := div_bounds hb hlo hhi
    rw [numeral_of_le hb hle, List.length_append, ih hlo' hhi']
    rfl

/-- The leading digit of a numeral. -/
theorem numeral_eq_cons (hb : 1 < b) {n k : ℕ} (hlo : b ^ k ≤ n) (hhi : n < b ^ (k + 1)) :
    ∃ rest, numeral b f n = f (n / b ^ k).digitChar :: rest := by
  induction k generalizing n with
  | zero =>
    refine ⟨[], ?_⟩
    rw [numeral_of_lt (by simpa using hhi), Nat.pow_zero, Nat.div_one]
  | succ k ih =>
    obtain ⟨hle, hlo', hhi'⟩ := div_bounds hb hlo hhi
    obtain ⟨rest, hrest⟩ := ih hlo' hhi'
    refine ⟨rest ++ [f (n % b).digitChar], ?_⟩
    rw [numeral_of_le hb hle, hrest, Nat.div_div_eq_div_mul, ← Nat.pow_succ']
    rfl

/-- A numeral of one digit spells a number below the base. -/
theorem lt_of_length_numeral_eq_one (hb : 1 < b) {n : ℕ} (h : (numeral b f n).length = 1) :
    n < b := by
  by_contra hn
  rw [numeral_of_le hb (by omega), List.length_append] at h
  have hpos := List.length_pos_iff.mpr (numeral_ne_nil (b := b) (f := f) (n / b))
  simp only [List.length_singleton] at h
  omega

/-! ## The order of numerals -/

variable [LinearOrder α] (hf : ∀ d e : ℕ, d < e → e < b → f d.digitChar < f e.digitChar)

include hf

/-- Of two numerals of one length, the one of the smaller number comes first. -/
theorem numeral_lt (hb : 1 < b) {m n : ℕ} (h : (numeral b f m).length = (numeral b f n).length)
    (hlt : m < n) : numeral b f m < numeral b f n := by
  induction m using Nat.strong_induction_on generalizing n with
  | _ m ih =>
    by_cases hm : m < b
    · rw [numeral_of_lt hm] at h
      have hn : n < b := lt_of_length_numeral_eq_one hb h.symm
      rw [numeral_of_lt hm, numeral_of_lt hn, List.cons_lt_cons_iff]
      exact Or.inl (hf m n hlt hn)
    · rw [numeral_of_le hb (by omega), numeral_of_le hb (n := n) (by omega)] at h ⊢
      have hlen : (numeral b f (m / b)).length = (numeral b f (n / b)).length := by simpa using h
      have hdiv : m / b < m := Nat.div_lt_self (by omega) hb
      rw [append_lt_append_iff hlen]
      -- the leading digits decide, unless they agree
      rcases Nat.lt_or_eq_of_le (Nat.div_le_div_right (c := b) (Nat.le_of_lt hlt)) with hq | hq
      · exact Or.inl (ih (m / b) hdiv hlen hq)
      · right
        have hm' := Nat.div_add_mod m b
        have hn' := Nat.div_add_mod n b
        rw [hq] at hm' ⊢
        refine ⟨rfl, ?_⟩
        rw [List.cons_lt_cons_iff]
        exact Or.inl (hf _ _ (by omega) (Nat.mod_lt n (by omega)))

/-- **Numerals of one length compare like their numbers.** -/
theorem numeral_lt_iff (hb : 1 < b) {m n : ℕ}
    (h : (numeral b f m).length = (numeral b f n).length) :
    numeral b f m < numeral b f n ↔ m < n := by
  constructor
  · intro hlt
    rcases Nat.lt_trichotomy m n with hmn | rfl | hmn
    · exact hmn
    · exact absurd hlt (lt_irrefl _)
    · exact absurd hlt (lt_asymm (numeral_lt hf hb h.symm hmn))
  · exact numeral_lt hf hb h

/-- A numeral spells one number. -/
theorem numeral_inj (hb : 1 < b) {m n : ℕ} (h : numeral b f m = numeral b f n) : m = n := by
  rcases Nat.lt_trichotomy m n with hmn | rfl | hmn
  · exact absurd (h ▸ numeral_lt hf hb (congrArg List.length h) hmn) (lt_irrefl _)
  · rfl
  · exact absurd (h ▸ numeral_lt hf hb (congrArg List.length h).symm hmn) (lt_irrefl _)

end

/-! ## Fixed width -/

/-- The last `w` digits of `n`. -/
def fixed (b : ℕ) (f : Char → α) : ℕ → ℕ → List α
  | 0, _ => []
  | w + 1, n => fixed b f w (n / b) ++ [f (n % b).digitChar]

/-- A numeral padded with zeros to the width `w`. -/
def padded (b : ℕ) (f : Char → α) (w n : ℕ) : List α :=
  List.replicate (w - (numeral b f n).length) (f (Nat.digitChar 0)) ++ numeral b f n

section

variable {b : ℕ} {f : Char → α}

@[simp] theorem length_fixed (w n : ℕ) : (fixed b f w n).length = w := by
  induction w generalizing n with
  | zero => rfl
  | succ w ih => rw [fixed, List.length_append, ih, List.length_singleton]

theorem fixed_zero (hb : 0 < b) (w : ℕ) : fixed b f w 0 = List.replicate w (f (Nat.digitChar 0)) := by
  induction w with
  | zero => rfl
  | succ w ih => rw [fixed, Nat.zero_div, ih, Nat.mod_eq_of_lt hb, List.replicate_succ']

/-- A number that fits the width is padded to its last digits. -/
theorem padded_eq_fixed (hb : 1 < b) {w n : ℕ} (hn : n < b ^ (w + 1)) :
    padded b f (w + 1) n = fixed b f (w + 1) n := by
  unfold padded
  induction w generalizing n with
  | zero =>
    rw [Nat.zero_add, Nat.pow_one] at hn
    rw [numeral_of_lt hn, fixed, Nat.mod_eq_of_lt hn]
    rfl
  | succ w ih =>
    by_cases hlt : n < b
    · rw [numeral_of_lt hlt, fixed, Nat.div_eq_of_lt hlt, Nat.mod_eq_of_lt hlt,
        fixed_zero (by omega)]
      rfl
    · have hdiv : n / b < b ^ (w + 1) := by
        rw [Nat.div_lt_iff_lt_mul (by omega), ← Nat.pow_succ]
        exact hn
      rw [numeral_of_le hb (by omega), fixed, ← ih hdiv, List.length_append, List.length_singleton,
        Nat.add_sub_add_right, List.append_assoc]

variable [LinearOrder α] (hf : ∀ d e : ℕ, d < e → e < b → f d.digitChar < f e.digitChar)

include hf

theorem fixed_lt (hb : 1 < b) {w m n : ℕ} (hn : n < b ^ w) (hlt : m < n) :
    fixed b f w m < fixed b f w n := by
  induction w generalizing m n with
  | zero =>
    rw [Nat.pow_zero] at hn
    omega
  | succ w ih =>
    have hdiv : n / b < b ^ w := by
      rw [Nat.div_lt_iff_lt_mul (by omega), ← Nat.pow_succ]
      exact hn
    rw [fixed, fixed, append_lt_append_iff (by rw [length_fixed, length_fixed])]
    -- the leading digits decide, unless they agree
    rcases Nat.lt_or_eq_of_le (Nat.div_le_div_right (c := b) (Nat.le_of_lt hlt)) with hq | hq
    · exact Or.inl (ih hdiv hq)
    · right
      have hm' := Nat.div_add_mod m b
      have hn' := Nat.div_add_mod n b
      rw [hq] at hm'
      refine ⟨by rw [hq], ?_⟩
      rw [List.cons_lt_cons_iff]
      exact Or.inl (hf _ _ (by omega) (Nat.mod_lt n (by omega)))

/-- **Numerals of a fixed width compare like their numbers.** -/
theorem fixed_lt_iff (hb : 1 < b) {w m n : ℕ} (hm : m < b ^ w) (hn : n < b ^ w) :
    fixed b f w m < fixed b f w n ↔ m < n := by
  constructor
  · intro hlt
    rcases Nat.lt_trichotomy m n with hmn | rfl | hmn
    · exact hmn
    · exact absurd hlt (lt_irrefl _)
    · exact absurd hlt (lt_asymm (fixed_lt hf hb hm hmn))
  · exact fixed_lt hf hb hn

theorem fixed_inj (hb : 1 < b) {w m n : ℕ} (hm : m < b ^ w) (hn : n < b ^ w)
    (h : fixed b f w m = fixed b f w n) : m = n := by
  rcases Nat.lt_trichotomy m n with hmn | rfl | hmn
  · exact absurd (h ▸ fixed_lt hf hb hn hmn) (lt_irrefl _)
  · rfl
  · exact absurd (h ▸ fixed_lt hf hb hm hmn) (lt_irrefl _)

end

end Zapdos.Lib.Radix
