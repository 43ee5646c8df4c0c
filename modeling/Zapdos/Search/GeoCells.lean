/-
  One step with `GetOneNeighbour`.

  A geohash is a cell of a grid.  Its last character refines the cell of the characters before it by
  eight columns and four rows, or four columns and eight rows when the length is even.  The table of
  neighbours moves within that block, around its edge; the table of borders says when the step leaves
  the block, and then the characters before it are moved, too.

  THE CRUX.  The tables are the addition of one step with a carry (`table_step`).  The first character
  is never moved, so a step that leaves its cell is refused.
-/
import Zapdos.Search.GeoCode

namespace Zapdos.Search.GeoHashHelper

open Zapdos.Lib Zapdos.Store

/-! ## Cells of geohashes -/

/-- The cell of a geohash in the grid of its length. -/
def hashCell (hash : Bytes) : Cell := Cell.whole.decode (hashBits hash)

/-- The grid of one cell below a first character, which ends with a column. -/
def topCell : Cell := ⟨0, 1, 0, 1, false⟩

/-- The cell of a geohash within the cell of its first character. -/
def localCell (hash : Bytes) : Cell := topCell.decode (hashBits hash.tail)

theorem whole_inGrid : Cell.whole.InGrid := ⟨by decide, by decide⟩

theorem topCell_inGrid : topCell.InGrid := ⟨by decide, by decide⟩

theorem localCell_inGrid (hash : Bytes) : (localCell hash).InGrid := topCell_inGrid.decode _

/-- **A valid geohash is its cell**, among those of one length. -/
theorem hashCell_inj {hash hash' : Bytes} (h : Valid hash) (h' : Valid hash')
    (hlen : hash.length = hash'.length) (hcell : hashCell hash = hashCell hash') : hash = hash' := by
  refine hashBits_inj h h' (Cell.decode_inj ?_ hcell)
  rw [length_hashBits, length_hashBits, hlen]

/-- The box of a geohash is the box of its cell. -/
theorem hashBox_eq (hash : Bytes) : hashBox hash = (hashCell hash).box lonRange latRange := by
  unfold hashBox hashCell
  rw [Cell.box_decode lonRange latRange whole_inGrid]
  refine congrArg (fun b : Box ℚ => b.decode (hashBits hash)) ?_
  unfold world Cell.box Cell.whole Cell.slice
  norm_num [lonRange, latRange]

/-! ## One character -/

/-- The bits of a character that stand at even places: the first, the third and the last. -/
def evenBits (c : UInt8) : ℕ :=
  4 * ((charMap.idxOf c).testBit 4).toNat + 2 * ((charMap.idxOf c).testBit 2).toNat
    + ((charMap.idxOf c).testBit 0).toNat

/-- The second and the fourth bit. -/
def oddBits (c : UInt8) : ℕ :=
  2 * ((charMap.idxOf c).testBit 3).toNat + ((charMap.idxOf c).testBit 1).toNat

/-- The columns of a block. -/
def blockCols (colFirst : Bool) : ℕ := if colFirst then 8 else 4

/-- The rows of a block. -/
def blockRows (colFirst : Bool) : ℕ := if colFirst then 4 else 8

/-- The column that a character takes in its block. -/
def charCol (colFirst : Bool) (c : UInt8) : ℕ := if colFirst then evenBits c else oddBits c

/-- The row that a character takes in its block. -/
def charRow (colFirst : Bool) (c : UInt8) : ℕ := if colFirst then oddBits c else evenBits c

theorem decode_bitsOf (cell : Cell) (c : UInt8) :
    cell.decode (bitsOf c) =
      { col := blockCols cell.xNext * cell.col + charCol cell.xNext c
        cols := blockCols cell.xNext * cell.cols
        row := blockRows cell.xNext * cell.row + charRow cell.xNext c
        rows := blockRows cell.xNext * cell.rows
        xNext := !cell.xNext } := by
  obtain ⟨col, cols, row, rows, xNext⟩ := cell
  cases xNext with
  | true =>
    simp only [Cell.decode, bitsOf, List.map_cons, List.map_nil, List.foldl_cons, List.foldl_nil,
      Cell.halve, if_true, Bool.false_eq_true, if_false, blockCols, blockRows, charCol, charRow,
      evenBits, oddBits, Bool.not_true, Cell.mk.injEq]
    refine ⟨?_, ?_, ?_, ?_, trivial⟩ <;> omega
  | false =>
    simp only [Cell.decode, bitsOf, List.map_cons, List.map_nil, List.foldl_cons, List.foldl_nil,
      Cell.halve, if_true, Bool.false_eq_true, if_false, blockCols, blockRows, charCol, charRow,
      evenBits, oddBits, Bool.not_false, Cell.mk.injEq]
    refine ⟨?_, ?_, ?_, ?_, trivial⟩ <;> omega

theorem charCol_lt (colFirst : Bool) (c : UInt8) : charCol colFirst c < blockCols colFirst := by
  have h4 := ((charMap.idxOf c).testBit 4).toNat_lt
  have h3 := ((charMap.idxOf c).testBit 3).toNat_lt
  have h2 := ((charMap.idxOf c).testBit 2).toNat_lt
  have h1 := ((charMap.idxOf c).testBit 1).toNat_lt
  have h0 := ((charMap.idxOf c).testBit 0).toNat_lt
  cases colFirst with
  | true =>
    show evenBits c < 8
    unfold evenBits
    omega
  | false =>
    show oddBits c < 4
    unfold oddBits
    omega

theorem charRow_lt (colFirst : Bool) (c : UInt8) : charRow colFirst c < blockRows colFirst := by
  cases colFirst with
  | true => exact charCol_lt false c
  | false => exact charCol_lt true c

/-! ## The tables -/

/-- The columns of a step. -/
def dx (direction : ℕ) : ℤ := if direction = east then 1 else if direction = west then -1 else 0

/-- The rows of a step. -/
def dy (direction : ℕ) : ℤ := if direction = north then 1 else if direction = south then -1 else 0

/-- The last character after a step. -/
def nextChar (length direction : ℕ) (c : UInt8) : UInt8 :=
  charMap.getD ((neighbourOf length direction).idxOf c) 0

/-- What the tables say of one character: it is in the table of neighbours, and its place there is one
    step further, around the edge of the block when it is in the table of borders. -/
def TableStep (length direction : ℕ) (c : UInt8) : Prop :=
  (neighbourOf length direction).idxOf c < 32 ∧ nextChar length direction c ∈ charMap ∧
    (charCol (length % 2 = 1) (nextChar length direction c) : ℤ)
      = charCol (length % 2 = 1) c + dx direction
        - (if c ∈ borderOf length direction then blockCols (length % 2 = 1) * dx direction else 0) ∧
    (charRow (length % 2 = 1) (nextChar length direction c) : ℤ)
      = charRow (length % 2 = 1) c + dy direction
        - (if c ∈ borderOf length direction then blockRows (length % 2 = 1) * dy direction else 0)

instance (length direction : ℕ) (c : UInt8) : Decidable (TableStep length direction c) :=
  inferInstanceAs (Decidable (_ ∧ _ ∧ _ ∧ _))

theorem tableStep_checked : ∀ n < 32, ∀ direction < 4, ∀ length < 2,
    TableStep length direction (charMap.getD n 0) := by
  decide +kernel

/-- The tables depend on the parity of the length. -/
theorem tableStep_mod {length direction : ℕ} {c : UInt8} (h : TableStep (length % 2) direction c) :
    TableStep length direction c := by
  unfold TableStep nextChar neighbourOf borderOf at h ⊢
  rw [Nat.mod_mod] at h
  exact h

/-- **The tables are a step with a carry.** -/
theorem table_step (length : ℕ) {direction : ℕ} (hd : direction ≤ west) {c : UInt8}
    (hc : c ∈ charMap) : TableStep length direction c := by
  refine forall_charMap (P := fun c => TableStep length direction c) ?_ hc
  intro n hn
  exact tableStep_mod (tableStep_checked n hn direction (Nat.lt_succ_of_le hd) (length % 2)
    (Nat.mod_lt _ (by omega)))

/-! ## One step -/

/-- `hash'` has the length and the first character of `hash` and lies so many columns and rows away,
    whatever cell the first character is. -/
structure Shifted (dx dy : ℤ) (hash hash' : Bytes) : Prop where
  length : hash'.length = hash.length
  valid : Valid hash'
  head : hash'.head? = hash.head?
  moved : ∀ s : Cell, s.xNext = false →
    Cell.Moved dx dy (s.decode (hashBits hash.tail)) (s.decode (hashBits hash'.tail))

theorem Shifted.refl {hash : Bytes} (h : Valid hash) : Shifted 0 0 hash hash :=
  ⟨rfl, h, rfl, fun _ _ => .refl _⟩

theorem Shifted.trans {a b a' b' : ℤ} {h h' h'' : Bytes} (hh : Shifted a b h h')
    (hh' : Shifted a' b' h' h'') : Shifted (a + a') (b + b') h h'' where
  length := hh'.length.trans hh.length
  valid := hh'.valid
  head := hh'.head.trans hh.head
  moved s hs := (hh.moved s hs).trans (hh'.moved s hs)

/-- The cells lie so far apart. -/
theorem Shifted.cell {a b : ℤ} {hash hash' : Bytes} (h : Shifted a b hash hash') :
    Cell.Moved a b (hashCell hash) (hashCell hash') := by
  have hlen := h.length
  have hhead := h.head
  have hmoved := h.moved
  cases hash with
  | nil =>
    obtain rfl := List.length_eq_zero_iff.mp hlen
    obtain ⟨hcol, hrow, -, -, -⟩ := hmoved topCell rfl
    exact ⟨hcol, hrow, rfl, rfl, rfl⟩
  | cons c t =>
    cases hash' with
    | nil => cases hlen
    | cons c' t' =>
      obtain rfl := Option.some.inj hhead
      have hnext : (Cell.whole.decode (bitsOf c')).xNext = false := by
        rw [decode_bitsOf]
        rfl
      have hm := hmoved _ hnext
      unfold hashCell
      rw [hashBits_cons, hashBits_cons, Cell.decode_append, Cell.decode_append]
      exact hm

/-- Within the cell of the first character the step ends inside. -/
theorem Shifted.canMove {a b : ℤ} {hash hash' : Bytes} (h : Shifted a b hash hash') :
    Cell.CanMove a b (localCell hash) :=
  (h.moved topCell rfl).canMove (localCell_inGrid hash')

/-- One geohash lies so far away. -/
theorem Shifted.unique {a b : ℤ} {hash h₁ h₂ : Bytes} (hh : Shifted a b hash h₁)
    (hh' : Shifted a b hash h₂) : h₁ = h₂ :=
  hashCell_inj hh.valid hh'.valid (hh.length.trans hh'.length.symm) (hh.cell.unique hh'.cell)

/-- The cell of reversed characters, refined from `s`. -/
def cellRev (s : Cell) : Bytes → Cell
  | [] => s
  | c :: r => (cellRev s r).decode (bitsOf c)

theorem cellRev_eq (s : Cell) (r : Bytes) : cellRev s r = s.decode (hashBits r.reverse) := by
  induction r with
  | nil => rfl
  | cons c r ih =>
    rw [cellRev, ih, List.reverse_cons, hashBits_append, Cell.decode_append]
    rfl

/-- The turn goes with the length. -/
theorem cellRev_xNext {s : Cell} (hs : s.xNext = false) (r : Bytes) :
    (cellRev s r).xNext = decide (r.length % 2 = 1) := by
  induction r with
  | nil => exact hs
  | cons c r ih =>
    rw [cellRev, decode_bitsOf, ih, List.length_cons, ← decide_not]
    exact decide_eq_decide.mpr (by omega)

/-- **One character of the step**: the block moves by the carry, the cell by the step. -/
theorem moved_char {cell cell' : Cell} {a b : ℤ} {length direction : ℕ} {c : UInt8}
    (htable : TableStep length direction c) (hparity : cell.xNext = decide (length % 2 = 1))
    (ha : a = if c ∈ borderOf length direction then dx direction else 0)
    (hb : b = if c ∈ borderOf length direction then dy direction else 0)
    (h : Cell.Moved a b cell cell') :
    Cell.Moved (dx direction) (dy direction) (cell.decode (bitsOf c))
      (cell'.decode (bitsOf (nextChar length direction c))) := by
  obtain ⟨-, -, hcol, hrow⟩ := htable
  obtain ⟨hmcol, hmrow, hcols, hrows, hnext⟩ := h
  rw [← hparity] at hcol hrow
  rw [decode_bitsOf, decode_bitsOf, hnext, hcols, hrows]
  refine ⟨?_, ?_, rfl, rfl, rfl⟩
  · show ((blockCols cell.xNext * cell'.col + charCol cell.xNext _ : ℕ) : ℤ)
      = (blockCols cell.xNext * cell.col + charCol cell.xNext c : ℕ) + dx direction
    push_cast
    rw [hmcol, hcol, ha]
    split_ifs <;> ring
  · show ((blockRows cell.xNext * cell'.row + charRow cell.xNext _ : ℕ) : ℤ)
      = (blockRows cell.xNext * cell.row + charRow cell.xNext c : ℕ) + dy direction
    push_cast
    rw [hmrow, hrow, hb]
    split_ifs <;> ring

/-- The step on two characters or more. -/
theorem oneNeighbourRev_cons {direction : ℕ} (hd : direction ≤ west) {last : UInt8} {base : Bytes}
    (hne : base ≠ []) (hlast : last ∈ charMap) :
    oneNeighbourRev direction (last :: base) =
      match
        if last ∈ borderOf (base.length + 1) direction then oneNeighbourRev direction base
        else some base with
      | none => none
      | some base' => some (nextChar (base.length + 1) direction last :: base') := by
  cases base with
  | nil => exact absurd rfl hne
  | cons c base =>
    have hidx := (table_step ((c :: base).length + 1) hd hlast).1
    have hidx' : ¬ (neighbourOf ((c :: base).length + 1) direction).idxOf last ≥ charMap.length :=
      not_le.mpr hidx
    rw [oneNeighbourRev]
    simp only [not_lt.mpr hd, if_false, hidx']
    rfl
    exact List.cons_ne_nil _ _

/-- The turn in the last block of a hash. -/
theorem turn_eq {s : Cell} (hs : s.xNext = false) (first : UInt8) (r : Bytes) :
    (cellRev s r).xNext = decide (((r ++ [first]).length + 1) % 2 = 1) := by
  rw [cellRev_xNext hs, List.length_append, List.length_singleton]
  exact decide_eq_decide.mpr (by omega)

/-- **What a step returns**: the first character stays, the cell moves by one step. -/
theorem oneNeighbourRev_some {direction : ℕ} (hd : direction ≤ west) {first : UInt8}
    {r out : Bytes} (hvalid : Valid r) (h : oneNeighbourRev direction (r ++ [first]) = some out) :
    ∃ r', out = r' ++ [first] ∧ r'.length = r.length ∧ Valid r' ∧ ∀ s : Cell, s.xNext = false →
      Cell.Moved (dx direction) (dy direction) (cellRev s r) (cellRev s r') := by
  induction r generalizing out with
  | nil => cases h
  | cons last r ih =>
    have hlast : last ∈ charMap := hvalid last List.mem_cons_self
    have hr : Valid r := fun c hc => hvalid c (List.mem_cons_of_mem _ hc)
    have htable := table_step ((r ++ [first]).length + 1) hd hlast
    have hne : r ++ [first] ≠ [] := List.append_ne_nil_of_right_ne_nil _ (List.cons_ne_nil _ _)
    rw [List.cons_append, oneNeighbourRev_cons hd hne hlast] at h
    by_cases hborder : last ∈ borderOf ((r ++ [first]).length + 1) direction
    · -- the carry moves the characters before
      rw [if_pos hborder] at h
      cases hbase : oneNeighbourRev direction (r ++ [first]) with
      | none =>
        rw [hbase] at h
        cases h
      | some base =>
        rw [hbase] at h
        obtain ⟨r', rfl, hlen, hr', hmoved⟩ := ih hr hbase
        refine ⟨nextChar ((r ++ [first]).length + 1) direction last :: r',
          (Option.some.inj h).symm, by rw [List.length_cons, List.length_cons, hlen], ?_, ?_⟩
        · intro c hc
          rcases List.mem_cons.mp hc with rfl | hc
          · exact htable.2.1
          · exact hr' c hc
        · intro s hs
          exact moved_char htable (turn_eq hs first r) (if_pos hborder).symm (if_pos hborder).symm
            (hmoved s hs)
    · rw [if_neg hborder] at h
      refine ⟨nextChar ((r ++ [first]).length + 1) direction last :: r,
        (Option.some.inj h).symm, rfl, ?_, ?_⟩
      · intro c hc
        rcases List.mem_cons.mp hc with rfl | hc
        · exact htable.2.1
        · exact hr c hc
      · intro s hs
        exact moved_char htable (turn_eq hs first r) (if_neg hborder).symm (if_neg hborder).symm
          (.refl _)

/-- A carry leaves a block exactly when the step leaves its cell. -/
theorem canMove_char {cell : Cell} (hgrid : cell.InGrid) {length direction : ℕ} {c : UInt8}
    (htable : TableStep length direction c) (hparity : cell.xNext = decide (length % 2 = 1)) :
    Cell.CanMove (dx direction) (dy direction) (cell.decode (bitsOf c)) ↔
      (c ∈ borderOf length direction → Cell.CanMove (dx direction) (dy direction) cell) := by
  obtain ⟨-, -, hcol, hrow⟩ := htable
  rw [← hparity] at hcol hrow
  have hltcol := charCol_lt cell.xNext (nextChar length direction c)
  have hltrow := charRow_lt cell.xNext (nextChar length direction c)
  obtain ⟨hgcol, hgrow⟩ := hgrid
  rw [decode_bitsOf]
  unfold Cell.CanMove
  simp only
  generalize charCol cell.xNext (nextChar length direction c) = p' at hcol hltcol
  generalize charRow cell.xNext (nextChar length direction c) = q' at hrow hltrow
  cases hnext : cell.xNext with
  | true =>
    rw [hnext] at hcol hrow hltcol hltrow
    by_cases hborder : c ∈ borderOf length direction
    · rw [if_pos hborder] at hcol hrow
      simp only [blockCols, blockRows, if_true, hborder, true_implies] at *
      push_cast
      omega
    · rw [if_neg hborder] at hcol hrow
      simp only [blockCols, blockRows, if_true, hborder, false_implies, iff_true] at *
      push_cast
      omega
  | false =>
    rw [hnext] at hcol hrow hltcol hltrow
    by_cases hborder : c ∈ borderOf length direction
    · rw [if_pos hborder] at hcol hrow
      simp only [blockCols, blockRows, Bool.false_eq_true, if_false, hborder, true_implies] at *
      push_cast
      omega
    · rw [if_neg hborder] at hcol hrow
      simp only [blockCols, blockRows, Bool.false_eq_true, if_false, hborder, false_implies,
        iff_true] at *
      push_cast
      omega

/-- **When a step returns**: when it stays in the cell of the first character. -/
theorem oneNeighbourRev_isSome {direction : ℕ} (hd : direction ≤ west) {first : UInt8} {r : Bytes}
    (hvalid : Valid r) :
    (oneNeighbourRev direction (r ++ [first])).isSome ↔
      Cell.CanMove (dx direction) (dy direction) (cellRev topCell r) := by
  induction r with
  | nil =>
    constructor
    · intro h
      cases h
    · -- the grid of one cell has no neighbour
      intro h
      have hstep : ∀ d ≤ west, ¬ ((0 ≤ dx d ∧ dx d < 1) ∧ (0 ≤ dy d ∧ dy d < 1)) := by decide
      refine absurd ?_ (hstep direction hd)
      obtain ⟨⟨h1, h2⟩, h3, h4⟩ := h
      simp only [cellRev, topCell, Nat.cast_zero, zero_add, Nat.cast_one] at h1 h2 h3 h4
      exact ⟨⟨h1, h2⟩, h3, h4⟩
  | cons last r ih =>
    have hlast : last ∈ charMap := hvalid last List.mem_cons_self
    have hr : Valid r := fun c hc => hvalid c (List.mem_cons_of_mem _ hc)
    have htable := table_step ((r ++ [first]).length + 1) hd hlast
    have hne : r ++ [first] ≠ [] := List.append_ne_nil_of_right_ne_nil _ (List.cons_ne_nil _ _)
    have hgrid : (cellRev topCell r).InGrid := by
      rw [cellRev_eq]
      exact topCell_inGrid.decode _
    rw [cellRev, canMove_char hgrid htable (turn_eq rfl first r), ← ih hr, List.cons_append,
      oneNeighbourRev_cons hd hne hlast]
    by_cases hborder : last ∈ borderOf ((r ++ [first]).length + 1) direction
    · rw [if_pos hborder]
      simp only [hborder, true_implies]
      cases oneNeighbourRev direction (r ++ [first]) with
      | none => rfl
      | some base => rfl
    · rw [if_neg hborder]
      exact ⟨fun _ h => absurd h hborder, fun _ => rfl⟩

theorem cellRev_reverse (s : Cell) (t : Bytes) : cellRev s t.reverse = s.decode (hashBits t) := by
  rw [cellRev_eq, List.reverse_reverse]

/-- **What `GetOneNeighbour` returns** is one step away. -/
theorem getOneNeighbour_some {hash nb : Bytes} {direction : ℕ} (hvalid : Valid hash)
    (hd : direction ≤ west) (h : getOneNeighbour hash direction = some nb) :
    Shifted (dx direction) (dy direction) hash nb := by
  obtain ⟨out, hout, rfl⟩ := Option.map_eq_some_iff.mp h
  cases hash with
  | nil => cases hout
  | cons first t =>
    rw [List.reverse_cons] at hout
    have ht : Valid t.reverse := fun c hc =>
      hvalid c (List.mem_cons_of_mem _ (List.mem_reverse.mp hc))
    obtain ⟨r', rfl, hlen, hr', hmoved⟩ := oneNeighbourRev_some hd ht hout
    rw [List.reverse_append, List.reverse_singleton, List.singleton_append]
    refine ⟨?_, ?_, rfl, ?_⟩
    · rw [List.length_cons, List.length_reverse, hlen, List.length_reverse, List.length_cons]
    · intro c hc
      rcases List.mem_cons.mp hc with rfl | hc
      · exact hvalid c List.mem_cons_self
      · exact hr' c (List.mem_reverse.mp hc)
    · intro s hs
      have hm := hmoved s hs
      rw [cellRev_reverse, cellRev_eq] at hm
      exact hm

/-- **When `GetOneNeighbour` returns.** -/
theorem getOneNeighbour_isSome {hash : Bytes} {direction : ℕ} (hvalid : Valid hash)
    (hne : hash ≠ []) (hd : direction ≤ west) :
    (getOneNeighbour hash direction).isSome ↔
      Cell.CanMove (dx direction) (dy direction) (localCell hash) := by
  cases hash with
  | nil => exact absurd rfl hne
  | cons first t =>
    have ht : Valid t.reverse := fun c hc =>
      hvalid c (List.mem_cons_of_mem _ (List.mem_reverse.mp hc))
    unfold getOneNeighbour localCell
    rw [Option.isSome_map, List.reverse_cons, oneNeighbourRev_isSome hd ht, cellRev_reverse,
      List.tail_cons]

/-! ## The box of a neighbour -/

/-- The edges moved by so many widths and heights. -/
def NewsT.shift (n : NewsT) (dx dy : ℤ) : NewsT where
  north := n.north + dy * (n.north - n.south)
  east := n.east + dx * (n.east - n.west)
  south := n.south + dy * (n.north - n.south)
  west := n.west + dx * (n.east - n.west)

/-- The box of a hash that lies so far away. -/
theorem Shifted.news {a b : ℤ} {hash hash' : Bytes} (h : Shifted a b hash hash')
    (hvalid : Valid hash) (hne : hash ≠ []) :
    (decode hash').news = (decode hash).news.shift a b := by
  have hne' : hash' ≠ [] := by
    rintro rfl
    exact hne (List.length_eq_zero_iff.mp h.length.symm)
  rw [decode_eq h.valid hne', decode_eq hvalid hne, hashBox_eq, hashBox_eq,
    h.cell.box lonRange latRange]
  rfl

/-- The other way. -/
def opposite (direction : ℕ) : ℕ := (direction + 2) % 4

theorem dx_opposite {direction : ℕ} (hd : direction ≤ west) :
    dx (opposite direction) = -dx direction ∧ dy (opposite direction) = -dy direction ∧
      opposite direction ≤ west := by
  have hall : ∀ d ≤ west, dx (opposite d) = -dx d ∧ dy (opposite d) = -dy d ∧
      opposite d ≤ west := by decide
  exact hall direction hd

/-- **The single-step neighbour is the adjacent cell**, and the step back returns from it. -/
theorem neighbour_adjacent (hash nb : Bytes) (direction : ℕ) (hvalid : Valid hash)
    (hd : direction ≤ west) (h : getOneNeighbour hash direction = some nb) :
    nb.length = hash.length ∧ Valid nb ∧
      (decode nb).news = (decode hash).news.shift (dx direction) (dy direction) ∧
      ∀ back, getOneNeighbour nb (opposite direction) = some back → back = hash := by
  have hstep := getOneNeighbour_some hvalid hd h
  have hne : hash ≠ [] := by
    rintro rfl
    cases h
  refine ⟨hstep.length, hstep.valid, hstep.news hvalid hne, ?_⟩
  intro back hback
  obtain ⟨hdx, hdy, hd'⟩ := dx_opposite hd
  have hthere := hstep.trans (getOneNeighbour_some hstep.valid hd' hback)
  rw [hdx, hdy, Int.add_right_neg, Int.add_right_neg] at hthere
  exact hthere.unique (.refl hvalid)

/-- A step out of the cell of the first four characters. -/
theorem neighbour_adjacent_north :
    (str "ezs50").length = (str "ezs4b").length ∧ Valid (str "ezs50") ∧
      (decode (str "ezs50")).news = (decode (str "ezs4b")).news.shift (dx north) (dy north) ∧
      ∀ back, getOneNeighbour (str "ezs50") (opposite north) = some back → back = str "ezs4b" :=
  neighbour_adjacent (str "ezs4b") (str "ezs50") north (by decide) (by decide) (by decide)

end Zapdos.Search.GeoHashHelper
