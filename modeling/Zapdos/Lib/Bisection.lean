/-
  Bisecting a rectangle — bit strings as nested boxes.

  A box is halved along its two sides in turn; a bit says which half is taken.  Decoding a bit string
  halves the box bit by bit, encoding a point takes at each step the half with the point in it, the
  lower one when the point is in the middle.  On a grid of equal cells every box is a cell, and each
  bit doubles the number of columns or of rows.

  THE LAWS THE CLIENTS USE.
    * `contains_decode_encode` — a point is in the box of its code;
    * `encode_isPrefix`        — longer codes extend shorter ones;
    * `decode_append_within`   — and their boxes lie inside;
    * `encode_decode`          — the code of a point inside a box is the bit string of the box;
    * `Cell.box_decode`        — the box of a bit string is the cell that the bits count out.
-/
import Mathlib.Algebra.Order.Field.Basic
import Mathlib.Data.Bool.Basic
import Mathlib.Data.List.Induction
import Mathlib.Tactic.FieldSimp
import Mathlib.Tactic.Linarith
import Mathlib.Tactic.Ring
import Mathlib.Tactic.SplitIfs

namespace Zapdos.Lib

/-! ## Bounds -/

/-- An interval by its ends. -/
structure Bounds (K : Type*) where
  high : K
  low : K
  deriving DecidableEq

variable {K : Type*} [Field K] [LinearOrder K]

namespace Bounds

/-- The middle. -/
def mid (i : Bounds K) : K := (i.low + i.high) / 2

/-- The upper or the lower half. -/
def half (i : Bounds K) (upper : Bool) : Bounds K :=
  if upper then ⟨i.high, i.mid⟩ else ⟨i.mid, i.low⟩

/-- `i` lies inside `j`. -/
def Within (i j : Bounds K) : Prop := j.low ≤ i.low ∧ i.high ≤ j.high

omit [Field K] in
theorem Within.refl (i : Bounds K) : i.Within i := ⟨le_refl _, le_refl _⟩

omit [Field K] in
theorem Within.trans {i j k : Bounds K} (h : i.Within j) (h' : j.Within k) : i.Within k :=
  ⟨h'.1.trans h.1, h.2.trans h'.2⟩

variable [IsStrictOrderedRing K]

theorem half_within {i : Bounds K} (h : i.low < i.high) (upper : Bool) :
    (i.half upper).Within i := by
  unfold half mid
  cases upper with
  | true => exact ⟨by simp only [if_true]; linarith, le_refl _⟩
  | false => exact ⟨le_refl _, by simp only [Bool.false_eq_true, if_false]; linarith⟩

theorem half_proper {i : Bounds K} (h : i.low < i.high) (upper : Bool) :
    (i.half upper).low < (i.half upper).high := by
  unfold half mid
  cases upper with
  | true =>
    simp only [if_true]
    linarith
  | false =>
    simp only [Bool.false_eq_true, if_false]
    linarith

end Bounds

/-! ## Boxes -/

/-- A rectangle, and whether its horizontal side is halved next. -/
structure Box (K : Type*) where
  x : Bounds K
  y : Bounds K
  xNext : Bool
  deriving DecidableEq

namespace Box

/-- Half of the box. -/
def halve (b : Box K) (bit : Bool) : Box K :=
  if b.xNext then ⟨b.x.half bit, b.y, false⟩ else ⟨b.x, b.y.half bit, true⟩

/-- The half with the point in it. -/
def bit (b : Box K) (p : K × K) : Bool :=
  if b.xNext then decide (p.1 > b.x.mid) else decide (p.2 > b.y.mid)

/-- The box of a bit string. -/
def decode (b : Box K) (bits : List Bool) : Box K := bits.foldl halve b

/-- The bit string of a point. -/
def encode (p : K × K) : Box K → ℕ → List Bool
  | _, 0 => []
  | b, n + 1 => b.bit p :: encode p (b.halve (b.bit p)) n

/-- The point is in the closed box. -/
def Contains (b : Box K) (p : K × K) : Prop :=
  (b.x.low ≤ p.1 ∧ p.1 ≤ b.x.high) ∧ (b.y.low ≤ p.2 ∧ p.2 ≤ b.y.high)

/-- The point is in the open box. -/
def Inside (b : Box K) (p : K × K) : Prop :=
  (b.x.low < p.1 ∧ p.1 < b.x.high) ∧ (b.y.low < p.2 ∧ p.2 < b.y.high)

/-- `b` lies inside `c`. -/
def Within (b c : Box K) : Prop := b.x.Within c.x ∧ b.y.Within c.y

/-- The box has an inside. -/
def Proper (b : Box K) : Prop := b.x.low < b.x.high ∧ b.y.low < b.y.high

omit [Field K] in
theorem Within.refl (b : Box K) : b.Within b := ⟨.refl _, .refl _⟩

omit [Field K] in
theorem Within.trans {b c d : Box K} (h : b.Within c) (h' : c.Within d) : b.Within d :=
  ⟨h.1.trans h'.1, h.2.trans h'.2⟩

omit [LinearOrder K] in
@[simp] theorem decode_nil (b : Box K) : b.decode [] = b := rfl

omit [LinearOrder K] in
@[simp] theorem decode_cons (b : Box K) (bit : Bool) (bits : List Bool) :
    b.decode (bit :: bits) = (b.halve bit).decode bits := rfl

omit [LinearOrder K] in
theorem decode_append (b : Box K) (l l' : List Bool) :
    b.decode (l ++ l') = (b.decode l).decode l' := List.foldl_append

/-- The code goes on from the box it has reached. -/
theorem encode_add (p : K × K) (b : Box K) (m n : ℕ) :
    encode p b (m + n) = encode p b m ++ encode p (b.decode (encode p b m)) n := by
  induction m generalizing b with
  | zero =>
    rw [Nat.zero_add]
    rfl
  | succ m ih =>
    rw [Nat.add_right_comm, encode, encode, ih]
    rfl

/-- **Longer codes extend shorter ones.** -/
theorem encode_isPrefix (p : K × K) (b : Box K) {m n : ℕ} (h : m ≤ n) :
    encode p b m <+: encode p b n := by
  obtain ⟨k, rfl⟩ := Nat.exists_eq_add_of_le h
  rw [encode_add]
  exact List.prefix_append _ _

theorem contains_halve {b : Box K} {p : K × K} (h : b.Contains p) :
    (b.halve (b.bit p)).Contains p := by
  obtain ⟨hx, hy⟩ := h
  unfold halve bit Bounds.half
  split_ifs with hnext hbit hbit
  · exact ⟨⟨(of_decide_eq_true hbit).le, hx.2⟩, hy⟩
  · exact ⟨⟨hx.1, not_lt.mp (of_decide_eq_false (by simpa using hbit))⟩, hy⟩
  · exact ⟨hx, ⟨(of_decide_eq_true hbit).le, hy.2⟩⟩
  · exact ⟨hx, ⟨hy.1, not_lt.mp (of_decide_eq_false (by simpa using hbit))⟩⟩

/-- **A point is in the box of its code.** -/
theorem contains_decode_encode {b : Box K} {p : K × K} (h : b.Contains p) (n : ℕ) :
    (b.decode (encode p b n)).Contains p := by
  induction n generalizing b with
  | zero => exact h
  | succ n ih => exact ih (contains_halve h)

section

variable [IsStrictOrderedRing K]

theorem Proper.halve {b : Box K} (h : b.Proper) (bit : Bool) : (b.halve bit).Proper := by
  unfold Box.halve
  split_ifs
  · exact ⟨Bounds.half_proper h.1 bit, h.2⟩
  · exact ⟨h.1, Bounds.half_proper h.2 bit⟩

theorem Proper.decode {b : Box K} (h : b.Proper) (bits : List Bool) : (b.decode bits).Proper := by
  induction bits generalizing b with
  | nil => exact h
  | cons bit bits ih => exact ih (h.halve bit)

theorem halve_within {b : Box K} (h : b.Proper) (bit : Bool) : (b.halve bit).Within b := by
  unfold Box.halve
  split_ifs
  · exact ⟨Bounds.half_within h.1 bit, .refl _⟩
  · exact ⟨.refl _, Bounds.half_within h.2 bit⟩

theorem decode_within {b : Box K} (h : b.Proper) (bits : List Bool) :
    (b.decode bits).Within b := by
  induction bits generalizing b with
  | nil => exact .refl b
  | cons bit bits ih => exact (ih (h.halve bit)).trans (halve_within h bit)

/-- **The box of a longer code** lies inside the box of a shorter one. -/
theorem decode_append_within {b : Box K} (h : b.Proper) (l l' : List Bool) :
    (b.decode (l ++ l')).Within (b.decode l) := by
  rw [decode_append]
  exact decode_within (h.decode l) l'

omit [IsStrictOrderedRing K] in
/-- A point inside one half is coded by the bit of that half. -/
theorem bit_of_inside {b c : Box K} {p : K × K} {bit : Bool} (hc : c.Within (b.halve bit))
    (h : c.Inside p) : b.bit p = bit := by
  obtain ⟨⟨hxl, hxh⟩, hyl, hyh⟩ := h
  obtain ⟨⟨hxl', hxh'⟩, hyl', hyh'⟩ := hc
  unfold Box.halve Bounds.half at hxl' hxh' hyl' hyh'
  unfold Box.bit
  -- the other half ends in the middle, the point is on this side of it
  cases bit with
  | true =>
    split_ifs with hnext
    · simp only [hnext, if_true] at hxl'
      exact decide_eq_true (lt_of_le_of_lt hxl' hxl)
    · simp only [hnext, if_true, if_false, Bool.false_eq_true] at hyl'
      exact decide_eq_true (lt_of_le_of_lt hyl' hyl)
  | false =>
    split_ifs with hnext
    · simp only [hnext, if_true, if_false, Bool.false_eq_true] at hxh'
      exact decide_eq_false (not_lt.mpr (hxh.le.trans hxh'))
    · simp only [hnext, if_false, Bool.false_eq_true] at hyh'
      exact decide_eq_false (not_lt.mpr (hyh.le.trans hyh'))

/-- **The code of a point inside a box** is the bit string of the box. -/
theorem encode_decode {b : Box K} (hb : b.Proper) {bits : List Bool} {p : K × K}
    (h : (b.decode bits).Inside p) : encode p b bits.length = bits := by
  induction bits generalizing b with
  | nil => rfl
  | cons bit bits ih =>
    rw [decode_cons] at h
    have hbit : b.bit p = bit := bit_of_inside (decode_within (hb.halve bit) bits) h
    rw [List.length_cons, encode, hbit, ih (hb.halve bit) h]

/-- The centre of a box is inside. -/
theorem inside_centre {b : Box K} (h : b.Proper) : b.Inside (b.x.mid, b.y.mid) := by
  obtain ⟨hx, hy⟩ := h
  unfold Inside Bounds.mid
  exact ⟨⟨by linarith, by linarith⟩, by linarith, by linarith⟩

end

end Box

/-! ## Cells of a grid -/

/-- A cell by column and row, in a grid of so many columns and rows. -/
@[ext]
structure Cell where
  col : ℕ
  cols : ℕ
  row : ℕ
  rows : ℕ
  xNext : Bool
  deriving DecidableEq, Repr

namespace Cell

/-- The grid of one cell. -/
def whole : Cell := ⟨0, 1, 0, 1, true⟩

/-- One of the two cells that take the place of a cell when the grid is refined. -/
def halve (c : Cell) (bit : Bool) : Cell :=
  if c.xNext then { c with col := 2 * c.col + bit.toNat, cols := 2 * c.cols, xNext := false }
  else { c with row := 2 * c.row + bit.toNat, rows := 2 * c.rows, xNext := true }

/-- The cell of a bit string. -/
def decode (c : Cell) (bits : List Bool) : Cell := bits.foldl halve c

theorem decode_append (c : Cell) (l l' : List Bool) :
    c.decode (l ++ l') = (c.decode l).decode l' := List.foldl_append

theorem halve_inj {c c' : Cell} {bit bit' : Bool} (h : c.halve bit = c'.halve bit') :
    c = c' ∧ bit = bit' := by
  obtain ⟨col, cols, row, rows, xNext⟩ := c
  obtain ⟨col', cols', row', rows', xNext'⟩ := c'
  have hbit := bit.toNat_lt
  have hbit' := bit'.toNat_lt
  have hinj : bit.toNat = bit'.toNat → bit = bit' := by
    intro heq
    cases bit with
    | true =>
      cases bit' with
      | true => rfl
      | false => cases heq
    | false =>
      cases bit' with
      | true => cases heq
      | false => rfl
  cases xNext with
  | true =>
    cases xNext' with
    | true =>
      simp only [halve, if_true, Cell.mk.injEq] at h
      obtain ⟨hcol, hcols, rfl, rfl, -⟩ := h
      obtain rfl : col = col' := by omega
      obtain rfl : cols = cols' := by omega
      exact ⟨rfl, hinj (by omega)⟩
    | false => simp [halve] at h
  | false =>
    cases xNext' with
    | true => simp [halve] at h
    | false =>
      simp only [halve, Bool.false_eq_true, if_false, Cell.mk.injEq] at h
      obtain ⟨rfl, rfl, hrow, hrows, -⟩ := h
      obtain rfl : row = row' := by omega
      obtain rfl : rows = rows' := by omega
      exact ⟨rfl, hinj (by omega)⟩

/-- **The bits are read off the cell.** -/
theorem decode_inj {c : Cell} {l l' : List Bool} (hlen : l.length = l'.length)
    (h : c.decode l = c.decode l') : l = l' := by
  induction l using List.reverseRecOn generalizing l' with
  | nil => exact (List.length_eq_zero_iff.mp hlen.symm).symm
  | append_singleton l bit ih =>
    obtain ⟨m, bit', rfl⟩ : ∃ m bit', l' = m ++ [bit'] := by
      rcases List.eq_nil_or_concat l' with rfl | ⟨m, bit', rfl⟩
      · simp at hlen
      · exact ⟨m, bit', List.concat_eq_append⟩
    rw [decode_append, decode_append] at h
    obtain ⟨hcell, rfl⟩ := halve_inj h
    rw [ih (by simpa using hlen) hcell]

/-- The cell is one of its grid. -/
def InGrid (c : Cell) : Prop := c.col < c.cols ∧ c.row < c.rows

theorem InGrid.halve {c : Cell} (h : c.InGrid) (bit : Bool) : (c.halve bit).InGrid := by
  obtain ⟨hcol, hrow⟩ := h
  have hbit := bit.toNat_lt
  unfold Cell.halve
  split_ifs
  · exact ⟨by show 2 * c.col + bit.toNat < 2 * c.cols; omega, hrow⟩
  · exact ⟨hcol, by show 2 * c.row + bit.toNat < 2 * c.rows; omega⟩

theorem InGrid.decode {c : Cell} (h : c.InGrid) (bits : List Bool) : (c.decode bits).InGrid := by
  induction bits generalizing c with
  | nil => exact h
  | cons bit bits ih => exact ih (h.halve bit)

/-- Two cells of one grid. -/
def SameGrid (c c' : Cell) : Prop := c.cols = c'.cols ∧ c.rows = c'.rows ∧ c.xNext = c'.xNext

/-- Bit strings of one length lead to one grid. -/
theorem SameGrid.decode {c c' : Cell} (h : SameGrid c c') {l l' : List Bool}
    (hlen : l.length = l'.length) : SameGrid (c.decode l) (c'.decode l') := by
  induction l generalizing c c' l' with
  | nil =>
    obtain rfl := List.length_eq_zero_iff.mp hlen.symm
    exact h
  | cons bit l ih =>
    cases l' with
    | nil => cases hlen
    | cons bit' l' =>
      have hstep : SameGrid (c.halve bit) (c'.halve bit') := by
        obtain ⟨hcols, hrows, hnext⟩ := h
        unfold Cell.halve
        rw [hnext]
        split_ifs
        · exact ⟨congrArg (2 * ·) hcols, hrows, rfl⟩
        · exact ⟨hcols, congrArg (2 * ·) hrows, rfl⟩
      have hrest : l.length = l'.length := by simpa using hlen
      exact ih hstep hrest

/-- `c'` lies so many columns and rows from `c`, in one grid. -/
structure Moved (dx dy : ℤ) (c c' : Cell) : Prop where
  col : (c'.col : ℤ) = c.col + dx
  row : (c'.row : ℤ) = c.row + dy
  cols : c'.cols = c.cols
  rows : c'.rows = c.rows
  xNext : c'.xNext = c.xNext

/-- There is a cell so many columns and rows away. -/
def CanMove (dx dy : ℤ) (c : Cell) : Prop :=
  (0 ≤ c.col + dx ∧ c.col + dx < c.cols) ∧ (0 ≤ c.row + dy ∧ c.row + dy < c.rows)

theorem Moved.refl (c : Cell) : Moved 0 0 c c :=
  ⟨(add_zero _).symm, (add_zero _).symm, rfl, rfl, rfl⟩

theorem Moved.trans {dx dy dx' dy' : ℤ} {c c' c'' : Cell} (h : Moved dx dy c c')
    (h' : Moved dx' dy' c' c'') : Moved (dx + dx') (dy + dy') c c'' where
  col := by rw [h'.col, h.col, add_assoc]
  row := by rw [h'.row, h.row, add_assoc]
  cols := h'.cols.trans h.cols
  rows := h'.rows.trans h.rows
  xNext := h'.xNext.trans h.xNext

/-- One cell lies so far away. -/
theorem Moved.unique {dx dy : ℤ} {c a b : Cell} (ha : Moved dx dy c a) (hb : Moved dx dy c b) :
    a = b := by
  obtain ⟨col, cols, row, rows, xNext⟩ := a
  obtain ⟨col', cols', row', rows', xNext'⟩ := b
  obtain ⟨hcol, hrow, rfl, rfl, rfl⟩ := ha
  obtain ⟨hcol', hrow', hcols, hrows, hnext⟩ := hb
  simp only at hcol hrow hcol' hrow' hcols hrows hnext
  obtain rfl : col = col' := by omega
  obtain rfl : row = row' := by omega
  rw [hcols, hrows, hnext]

theorem Moved.canMove {dx dy : ℤ} {c c' : Cell} (h : Moved dx dy c c') (hc : c'.InGrid) :
    CanMove dx dy c := by
  obtain ⟨hcol, hrow⟩ := hc
  have hx := h.col
  have hy := h.row
  have hcols := h.cols
  have hrows := h.rows
  unfold CanMove
  omega

/-- The part of a side that the place `i` of `n` takes. -/
def slice (side : Bounds K) (i n : ℕ) : Bounds K :=
  ⟨side.low + (side.high - side.low) * (i + 1) / n, side.low + (side.high - side.low) * i / n⟩

/-- The box of a cell in a rectangle. -/
def box (x y : Bounds K) (c : Cell) : Box K :=
  ⟨slice x c.col c.cols, slice y c.row c.rows, c.xNext⟩

variable [IsStrictOrderedRing K]

/-- Half of a slice is a slice of twice as many. -/
theorem half_slice (side : Bounds K) (i : ℕ) {n : ℕ} (hn : 0 < n) (bit : Bool) :
    (slice side i n).half bit = slice side (2 * i + bit.toNat) (2 * n) := by
  have hn' : (n : K) ≠ 0 := Nat.cast_ne_zero.mpr (by omega)
  unfold slice Bounds.half Bounds.mid
  cases bit with
  | true =>
    simp only [if_true, Bool.toNat_true, Bounds.mk.injEq]
    push_cast
    constructor
    · field_simp
      ring
    · field_simp
      ring
  | false =>
    simp only [Bool.false_eq_true, if_false, Bool.toNat_false, Bounds.mk.injEq]
    push_cast
    constructor
    · field_simp
      ring
    · field_simp
      ring

theorem box_halve (x y : Bounds K) {c : Cell} (h : c.InGrid) (bit : Bool) :
    (c.halve bit).box x y = (c.box x y).halve bit := by
  have hcols : 0 < c.cols := by
    have := h.1
    omega
  have hrows : 0 < c.rows := by
    have := h.2
    omega
  unfold Cell.halve Box.halve box
  split_ifs
  · simp only [half_slice x c.col hcols bit]
  · simp only [half_slice y c.row hrows bit]

/-- **The box of a bit string** is the box of its cell. -/
theorem box_decode (x y : Bounds K) {c : Cell} (h : c.InGrid) (bits : List Bool) :
    (c.decode bits).box x y = (c.box x y).decode bits := by
  induction bits generalizing c with
  | nil => rfl
  | cons bit bits ih =>
    rw [Box.decode_cons, ← box_halve x y h bit]
    exact ih (h.halve bit)

/-- **The next cell has the next box**: moved by its own width and height. -/
theorem Moved.box {dx dy : ℤ} {c c' : Cell} (h : Moved dx dy c c') (x y : Bounds K) :
    c'.box x y =
      ⟨⟨(c.box x y).x.high + dx * ((c.box x y).x.high - (c.box x y).x.low),
          (c.box x y).x.low + dx * ((c.box x y).x.high - (c.box x y).x.low)⟩,
        ⟨(c.box x y).y.high + dy * ((c.box x y).y.high - (c.box x y).y.low),
          (c.box x y).y.low + dy * ((c.box x y).y.high - (c.box x y).y.low)⟩, c.xNext⟩ := by
  have hslice : ∀ (side : Bounds K) (i i' n : ℕ) (d : ℤ), (i' : ℤ) = i + d →
      slice side i' n = ⟨(slice side i n).high + d * ((slice side i n).high - (slice side i n).low),
        (slice side i n).low + d * ((slice side i n).high - (slice side i n).low)⟩ := by
    intro side i i' n d hi
    have hcast : (i' : K) = i + d := by exact_mod_cast congrArg (Int.cast : ℤ → K) hi
    unfold slice
    rw [hcast]
    simp only [Bounds.mk.injEq]
    constructor
    · ring
    · ring
  unfold Cell.box
  rw [h.cols, h.rows, h.xNext, hslice x c.col c'.col c.cols dx h.col,
    hslice y c.row c'.row c.rows dy h.row]

end Cell

end Zapdos.Lib
