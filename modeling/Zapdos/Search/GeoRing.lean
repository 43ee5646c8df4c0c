/-
  The ring of `GetNeighbours`.

  The walk goes up to the top of the ring and then around it, a step at a time.  `GetOneNeighbour`
  refuses to carry into the first character, so the walk comes through exactly when the ring stays in
  the cell of that character; otherwise the exception drops the whole ring, also where the neighbours
  exist.
-/
import Zapdos.Search.GeoCells
import Zapdos.Search.IndexBase

namespace Zapdos.Search.GeoHashHelper

open Zapdos.Lib Zapdos.Store

/-! ## The ring as it should be -/

/-- The Chebyshev distance of two cells. -/
def chebyshev (c c' : Cell) : ℕ :=
  max ((c'.col : ℤ) - c.col).natAbs ((c'.row : ℤ) - c.row).natAbs

/-- `l` lists the ring of the level around a geohash, each cell once. -/
structure IsRing (hash : Bytes) (level : ℕ) (l : List Bytes) : Prop where
  length : l.length = 8 * level
  nodup : l.Nodup
  mem : ∀ x, x ∈ l ↔
    Valid x ∧ x.length = hash.length ∧ chebyshev (hashCell hash) (hashCell x) = level

/-- The square around a cell stays within its grid. -/
def SquareIn (c : Cell) (level : ℕ) : Prop :=
  (level ≤ c.col ∧ c.col + level < c.cols) ∧ (level ≤ c.row ∧ c.row + level < c.rows)

instance (c : Cell) (level : ℕ) : Decidable (SquareIn c level) :=
  inferInstanceAs (Decidable ((_ ∧ _) ∧ _ ∧ _))

/-- The ring crosses neither a pole nor the antimeridian. -/
def InWorld (hash : Bytes) (level : ℕ) : Prop := SquareIn (hashCell hash) level

/-- The ring stays within the cell of the first character. -/
def InTopCell (hash : Bytes) (level : ℕ) : Prop := SquareIn (localCell hash) level

instance (hash : Bytes) (level : ℕ) : Decidable (InWorld hash level) :=
  inferInstanceAs (Decidable (SquareIn _ _))

instance (hash : Bytes) (level : ℕ) : Decidable (InTopCell hash level) :=
  inferInstanceAs (Decidable (SquareIn _ _))

/-! ## Legs of the walk -/

/-- The places of a leg, relative to the middle of the ring. -/
def leg (direction : ℕ) : ℕ → ℤ × ℤ → List (ℤ × ℤ)
  | 0, _ => []
  | count + 1, o =>
    (o.1 + dx direction, o.2 + dy direction)
      :: leg direction count (o.1 + dx direction, o.2 + dy direction)

/-- The end of a leg. -/
def legEnd (direction count : ℕ) (o : ℤ × ℤ) : ℤ × ℤ :=
  (o.1 + count * dx direction, o.2 + count * dy direction)

theorem length_leg (direction count : ℕ) (o : ℤ × ℤ) : (leg direction count o).length = count := by
  induction count generalizing o with
  | zero => rfl
  | succ count ih => rw [leg, List.length_cons, ih]

/-- The hashes lie at these places around `hash`. -/
def AtPlaces (hash : Bytes) : List (ℤ × ℤ) → List Bytes → Prop :=
  List.Forall₂ fun o x => Shifted o.1 o.2 hash x

theorem legEnd_succ (direction count : ℕ) (o : ℤ × ℤ) :
    legEnd direction count (o.1 + dx direction, o.2 + dy direction)
      = legEnd direction (count + 1) o := by
  unfold legEnd
  push_cast
  refine Prod.ext ?_ ?_
  · show o.1 + dx direction + count * dx direction = o.1 + (count + 1) * dx direction
    ring
  · show o.2 + dy direction + count * dy direction = o.2 + (count + 1) * dy direction
    ring

/-- **What a leg visits.** -/
theorem walk_some {hash : Bytes} {direction : ℕ} (hd : direction ≤ west) (count : ℕ) (o : ℤ × ℤ)
    {cur : Bytes} (hcur : Shifted o.1 o.2 hash cur) {l : List Bytes} {last : Bytes}
    (h : walk direction count cur = some (l, last)) :
    AtPlaces hash (leg direction count o) l ∧
      Shifted (legEnd direction count o).1 (legEnd direction count o).2 hash last := by
  induction count generalizing cur o l with
  | zero =>
    cases h
    refine ⟨List.Forall₂.nil, ?_⟩
    unfold legEnd
    simpa using hcur
  | succ count ih =>
    rw [walk] at h
    cases hnext : getOneNeighbour cur direction with
    | none =>
      rw [hnext] at h
      cases h
    | some next =>
      have hshift := hcur.trans (getOneNeighbour_some hcur.valid hd hnext)
      rw [hnext] at h
      cases hrest : walk direction count next with
      | none =>
        simp only [hrest] at h
        cases h
      | some rest =>
        obtain ⟨l', last'⟩ := rest
        simp only [hrest] at h
        cases h
        obtain ⟨hl, hlast⟩ := ih (o.1 + dx direction, o.2 + dy direction) hshift hrest
        rw [legEnd_succ] at hlast
        exact ⟨List.Forall₂.cons hshift hl, hlast⟩

/-- The steps of the four directions. -/
theorem step_cases {direction : ℕ} (hd : direction ≤ west) :
    (dx direction = 0 ∧ (dy direction = 1 ∨ dy direction = -1)) ∨
      (dy direction = 0 ∧ (dx direction = 1 ∨ dx direction = -1)) := by
  have hall : ∀ d ≤ west, (dx d = 0 ∧ (dy d = 1 ∨ dy d = -1)) ∨
      (dy d = 0 ∧ (dx d = 1 ∨ dx d = -1)) := by decide
  exact hall direction hd

/-- The first step of a leg stays in the grid when its end does. -/
theorem canMove_first {c : Cell} {o : ℤ × ℤ} {direction count : ℕ} (hd : direction ≤ west)
    (hstart : Cell.CanMove o.1 o.2 c)
    (hend : Cell.CanMove (legEnd direction (count + 1) o).1 (legEnd direction (count + 1) o).2 c) :
    Cell.CanMove (o.1 + dx direction) (o.2 + dy direction) c := by
  unfold Cell.CanMove legEnd at *
  simp only at hend
  push_cast at hend
  rcases step_cases hd with ⟨hx, hy | hy⟩ | ⟨hy, hx | hx⟩
  · rw [hx, hy] at hend ⊢
    omega
  · rw [hx, hy] at hend ⊢
    omega
  · rw [hx, hy] at hend ⊢
    omega
  · rw [hx, hy] at hend ⊢
    omega

/-- **A leg comes through** when it ends in the cell of the first character. -/
theorem walk_isSome {hash : Bytes} (hne : hash ≠ []) {direction : ℕ} (hd : direction ≤ west)
    (count : ℕ) (o : ℤ × ℤ) {cur : Bytes} (hcur : Shifted o.1 o.2 hash cur)
    (hend : Cell.CanMove (legEnd direction count o).1 (legEnd direction count o).2
      (localCell hash)) :
    ∃ l last, walk direction count cur = some (l, last) := by
  induction count generalizing cur o with
  | zero => exact ⟨[], cur, rfl⟩
  | succ count ih =>
    have hfirst := canMove_first hd hcur.canMove hend
    have hne' : cur ≠ [] := by
      rintro rfl
      exact hne (List.length_eq_zero_iff.mp hcur.length.symm)
    -- one step from `cur` is a step from the middle to the next place
    have hstep : Cell.CanMove (dx direction) (dy direction) (localCell cur) := by
      have hm := hcur.moved topCell rfl
      have hcol := hm.col
      have hrow := hm.row
      have hcols := hm.cols
      have hrows := hm.rows
      unfold localCell at hfirst ⊢
      unfold Cell.CanMove at hfirst ⊢
      omega
    obtain ⟨next, hnext⟩ :=
      Option.isSome_iff_exists.mp ((getOneNeighbour_isSome hcur.valid hne' hd).mpr hstep)
    have hshift := hcur.trans (getOneNeighbour_some hcur.valid hd hnext)
    rw [← legEnd_succ] at hend
    obtain ⟨l, last, hrest⟩ := ih (o.1 + dx direction, o.2 + dy direction) hshift hend
    refine ⟨next :: l, last, ?_⟩
    rw [walk, hnext]
    simp only [hrest]

/-! ## The whole walk -/

/-- The places of the ring, in the order of the walk. -/
def ringPlaces (level : ℕ) : List (ℤ × ℤ) :=
  (0, (level : ℤ)) :: (leg east level (0, level) ++ (leg south (level * 2) (level, level) ++
    (leg west (level * 2) (level, -level) ++ (leg north (level * 2) (-level, -level) ++
      leg east (level - 1) (-level, level)))))

/-- The steps of the walk. -/
theorem steps : (dx north = 0 ∧ dy north = 1) ∧ (dx east = 1 ∧ dy east = 0) ∧
    (dx south = 0 ∧ dy south = -1) ∧ (dx west = -1 ∧ dy west = 0) := by
  decide

/-- **The corners of the ring** are the ends of the legs. -/
theorem corners (k : ℕ) :
    legEnd north k (0, 0) = (0, (k : ℤ)) ∧ legEnd east k (0, k) = ((k : ℤ), (k : ℤ)) ∧
      legEnd south (k * 2) (k, k) = ((k : ℤ), -(k : ℤ)) ∧
      legEnd west (k * 2) (k, -k) = (-(k : ℤ), -(k : ℤ)) ∧
      legEnd north (k * 2) (-k, -k) = (-(k : ℤ), (k : ℤ)) ∧
      legEnd east (k - 1) (-k, k) = (-(k : ℤ) + (k - 1 : ℕ), (k : ℤ)) := by
  obtain ⟨⟨hnx, hny⟩, ⟨hex, hey⟩, ⟨hsx, hsy⟩, hwx, hwy⟩ := steps
  unfold legEnd
  simp only [hnx, hny, hex, hey, hsx, hsy, hwx, hwy, Prod.mk.injEq]
  push_cast
  omega

/-- A place of the square is in the cell of the first character. -/
theorem InTopCell.canMove {hash : Bytes} {level : ℕ} (h : InTopCell hash level) {a b : ℤ}
    (ha : -level ≤ a ∧ a ≤ level) (hb : -level ≤ b ∧ b ≤ level) :
    Cell.CanMove a b (localCell hash) := by
  obtain ⟨⟨h1, h2⟩, h3, h4⟩ := h
  unfold Cell.CanMove
  omega

/-- The walk through one leg, with the corner that it reaches. -/
theorem walk_corner {hash : Bytes} (hne : hash ≠ []) {direction : ℕ} (hd : direction ≤ west)
    {count : ℕ} {o o' : ℤ × ℤ} (hend : legEnd direction count o = o') {cur : Bytes}
    (hcur : Shifted o.1 o.2 hash cur) (hcan : Cell.CanMove o'.1 o'.2 (localCell hash)) :
    ∃ l last, walk direction count cur = some (l, last) ∧ Shifted o'.1 o'.2 hash last := by
  subst hend
  obtain ⟨l, last, hrun⟩ := walk_isSome hne hd count o hcur hcan
  exact ⟨l, last, hrun, (walk_some hd count o hcur hrun).2⟩

/-- **What the walk around visits**: the places of the ring, all in the cell of the first
    character. -/
theorem walkRing_some {hash : Bytes} (hvalid : Valid hash) {level : ℕ} {l : List Bytes}
    (h : walkRing hash level = some l) :
    AtPlaces hash (ringPlaces level) l ∧ InTopCell hash level := by
  obtain ⟨etop, ecorner, edown, eback, eup, -⟩ := corners level
  unfold walkRing at h
  simp only [Option.bind_eq_bind, Option.bind_eq_some_iff, Option.pure_def, Option.some.injEq,
    Prod.exists] at h
  obtain ⟨_, top, htop, toCorner, c₁, h₁, down, c₂, h₂, back, c₃, h₃, up, c₄, h₄, toTop, c₅, h₅,
    rfl⟩ := h
  obtain ⟨-, stop⟩ := walk_some (by decide) level (0, 0) (.refl hvalid) htop
  rw [etop] at stop
  obtain ⟨pcorner, s₁⟩ := walk_some (by decide) level (0, (level : ℤ)) stop h₁
  rw [ecorner] at s₁
  obtain ⟨pdown, s₂⟩ := walk_some (by decide) (level * 2) ((level : ℤ), (level : ℤ)) s₁ h₂
  rw [edown] at s₂
  obtain ⟨pback, s₃⟩ := walk_some (by decide) (level * 2) ((level : ℤ), -(level : ℤ)) s₂ h₃
  rw [eback] at s₃
  obtain ⟨pup, s₄⟩ := walk_some (by decide) (level * 2) (-(level : ℤ), -(level : ℤ)) s₃ h₄
  rw [eup] at s₄
  obtain ⟨ptop, -⟩ := walk_some (by decide) (level - 1) (-(level : ℤ), (level : ℤ)) s₄ h₅
  refine ⟨List.Forall₂.cons stop (List.rel_append pcorner (List.rel_append pdown
    (List.rel_append pback (List.rel_append pup ptop)))), ?_⟩
  -- two opposite corners are in the cell
  obtain ⟨⟨-, hcol⟩, -, hrow⟩ := s₁.canMove
  obtain ⟨⟨hcol', -⟩, hrow', -⟩ := s₃.canMove
  simp only at hcol hrow hcol' hrow'
  unfold InTopCell SquareIn
  omega

/-- **The walk around comes through** when the ring stays in the cell of the first character. -/
theorem walkRing_isSome {hash : Bytes} (hvalid : Valid hash) (hne : hash ≠ []) {level : ℕ}
    (htop : InTopCell hash level) : ∃ l, walkRing hash level = some l := by
  obtain ⟨etop, ecorner, edown, eback, eup, elast⟩ := corners level
  have hmid : Shifted ((0, 0) : ℤ × ℤ).1 ((0, 0) : ℤ × ℤ).2 hash hash := .refl hvalid
  obtain ⟨l₀, c₀, h₀, s₀⟩ := walk_corner hne (by decide) etop hmid
    (htop.canMove (by omega) (by omega))
  obtain ⟨l₁, c₁, h₁, s₁⟩ := walk_corner hne (by decide) ecorner s₀
    (htop.canMove (by omega) (by omega))
  obtain ⟨l₂, c₂, h₂, s₂⟩ := walk_corner hne (by decide) edown s₁
    (htop.canMove (by omega) (by omega))
  obtain ⟨l₃, c₃, h₃, s₃⟩ := walk_corner hne (by decide) eback s₂
    (htop.canMove (by omega) (by omega))
  obtain ⟨l₄, c₄, h₄, s₄⟩ := walk_corner hne (by decide) eup s₃
    (htop.canMove (by omega) (by omega))
  obtain ⟨l₅, c₅, h₅, -⟩ := walk_corner hne (by decide) elast s₄
    (htop.canMove (by omega) (by omega))
  refine ⟨c₀ :: (l₁ ++ (l₂ ++ (l₃ ++ (l₄ ++ l₅)))), ?_⟩
  unfold walkRing
  simp only [h₀, h₁, h₂, h₃, h₄, h₅, Option.bind_eq_bind, Option.bind_some, Option.pure_def]

/-! ## The places of the ring -/

theorem mem_leg {direction : ℕ} {count : ℕ} {o p : ℤ × ℤ} :
    p ∈ leg direction count o ↔
      ∃ i : ℕ, 1 ≤ i ∧ i ≤ count ∧ p = legEnd direction i o := by
  induction count generalizing o with
  | zero =>
    constructor
    · intro h
      exact absurd h List.not_mem_nil
    · rintro ⟨i, hlo, hhi, -⟩
      omega
  | succ count ih =>
    have hone : (o.1 + dx direction, o.2 + dy direction) = legEnd direction 1 o := by
      rw [← legEnd_succ]
      unfold legEnd
      simp
    rw [leg, List.mem_cons, ih]
    constructor
    · rintro (hp | ⟨i, hlo, hhi, hp⟩)
      · exact ⟨1, le_refl _, by omega, hp.trans hone⟩
      · exact ⟨i + 1, by omega, by omega, hp.trans (legEnd_succ direction i o)⟩
    · rintro ⟨i, hlo, hhi, hp⟩
      by_cases hi : i = 1
      · rw [hi] at hp
        exact Or.inl (hp.trans hone.symm)
      · obtain ⟨j, rfl⟩ := Nat.exists_eq_add_of_le' hlo
        exact Or.inr ⟨j, by omega, by omega, hp.trans (legEnd_succ direction j o).symm⟩

theorem leg_nodup {direction : ℕ} (hd : direction ≤ west) (count : ℕ) (o : ℤ × ℤ) :
    (leg direction count o).Nodup := by
  induction count generalizing o with
  | zero => exact List.nodup_nil
  | succ count ih =>
    rw [leg, List.nodup_cons]
    refine ⟨?_, ih _⟩
    intro hmem
    obtain ⟨i, hlo, -, heq⟩ := mem_leg.mp hmem
    unfold legEnd at heq
    simp only [Prod.mk.injEq] at heq
    rcases step_cases hd with ⟨hx, hy | hy⟩ | ⟨hy, hx | hx⟩
    · rw [hx, hy] at heq
      omega
    · rw [hx, hy] at heq
      omega
    · rw [hx, hy] at heq
      omega
    · rw [hx, hy] at heq
      omega

/-- The places of the four kinds of legs. -/
theorem mem_legs {count : ℕ} {a b x y : ℤ} :
    ((x, y) ∈ leg north count (a, b) ↔ x = a ∧ b < y ∧ y ≤ b + count) ∧
      ((x, y) ∈ leg east count (a, b) ↔ y = b ∧ a < x ∧ x ≤ a + count) ∧
      ((x, y) ∈ leg south count (a, b) ↔ x = a ∧ b - count ≤ y ∧ y < b) ∧
      ((x, y) ∈ leg west count (a, b) ↔ y = b ∧ a - count ≤ x ∧ x < a) := by
  obtain ⟨⟨hnx, hny⟩, ⟨hex, hey⟩, ⟨hsx, hsy⟩, hwx, hwy⟩ := steps
  simp only [mem_leg, legEnd, hnx, hny, hex, hey, hsx, hsy, hwx, hwy, Prod.mk.injEq]
  refine ⟨⟨?_, ?_⟩, ⟨?_, ?_⟩, ⟨?_, ?_⟩, ?_, ?_⟩
  · rintro ⟨i, hlo, hhi, hx, hy⟩
    omega
  · rintro ⟨hx, hlo, hhi⟩
    exact ⟨(y - b).toNat, by omega, by omega, by omega, by omega⟩
  · rintro ⟨i, hlo, hhi, hx, hy⟩
    omega
  · rintro ⟨hy, hlo, hhi⟩
    exact ⟨(x - a).toNat, by omega, by omega, by omega, by omega⟩
  · rintro ⟨i, hlo, hhi, hx, hy⟩
    omega
  · rintro ⟨hx, hlo, hhi⟩
    exact ⟨(b - y).toNat, by omega, by omega, by omega, by omega⟩
  · rintro ⟨i, hlo, hhi, hx, hy⟩
    omega
  · rintro ⟨hy, hlo, hhi⟩
    exact ⟨(a - x).toNat, by omega, by omega, by omega, by omega⟩

/-- **The places of the ring** are those at the distance of the level. -/
theorem mem_ringPlaces {level : ℕ} (hlevel : 1 ≤ level) {x y : ℤ} :
    (x, y) ∈ ringPlaces level ↔ max x.natAbs y.natAbs = level := by
  unfold ringPlaces
  simp only [List.mem_cons, List.mem_append, Prod.mk.injEq, mem_legs.1, mem_legs.2.1,
    mem_legs.2.2.1, mem_legs.2.2.2]
  push_cast
  omega

theorem length_ringPlaces {level : ℕ} (hlevel : 1 ≤ level) :
    (ringPlaces level).length = 8 * level := by
  unfold ringPlaces
  simp only [List.length_cons, List.length_append, length_leg]
  omega

/-- Two legs that share no place. -/
theorem ne_of_mem_legs {l l' : List (ℤ × ℤ)}
    (h : ∀ x y, (x, y) ∈ l → (x, y) ∈ l' → False) : ∀ a ∈ l, ∀ b ∈ l', a ≠ b := by
  rintro ⟨x, y⟩ ha _ hb rfl
  exact h x y ha hb

/-- No place is visited twice. -/
theorem ringPlaces_nodup {level : ℕ} (hlevel : 1 ≤ level) : (ringPlaces level).Nodup := by
  obtain ⟨hnorth, heast, hsouth, hwest⟩ :
      north ≤ west ∧ east ≤ west ∧ south ≤ west ∧ west ≤ west := by decide
  unfold ringPlaces
  rw [List.nodup_cons, List.nodup_append, List.nodup_append, List.nodup_append, List.nodup_append]
  refine ⟨?_, leg_nodup heast _ _, ⟨leg_nodup hsouth _ _, ⟨leg_nodup hwest _ _,
    ⟨leg_nodup hnorth _ _, leg_nodup heast _ _, ?_⟩, ?_⟩, ?_⟩, ?_⟩
  · simp only [List.mem_append, mem_legs.1, mem_legs.2.1, mem_legs.2.2.1, mem_legs.2.2.2,
      lt_self_iff_false, false_and, and_false, true_and, false_or]
    push_cast
    omega
  -- the legs meet in no corner: each ends where the next one begins, without that place
  all_goals
    refine ne_of_mem_legs ?_
    intro x y
    simp only [List.mem_append, mem_legs.1, mem_legs.2.1, mem_legs.2.2.1, mem_legs.2.2.2]
    push_cast
    omega

/-! ## What `GetNeighbours` returns -/

/-- Where a hash lies, relative to the middle of the ring. -/
def placeOf (hash x : Bytes) : ℤ × ℤ :=
  ((hashCell x).col - (hashCell hash).col, (hashCell x).row - (hashCell hash).row)

theorem Shifted.place {o : ℤ × ℤ} {hash x : Bytes} (h : Shifted o.1 o.2 hash x) :
    placeOf hash x = o := by
  have hcol := h.cell.col
  have hrow := h.cell.row
  unfold placeOf
  refine Prod.ext ?_ ?_
  · show ((hashCell x).col : ℤ) - (hashCell hash).col = o.1
    omega
  · show ((hashCell x).row : ℤ) - (hashCell hash).row = o.2
    omega

theorem AtPlaces.map_placeOf {hash : Bytes} {places : List (ℤ × ℤ)} {l : List Bytes}
    (h : AtPlaces hash places l) : l.map (placeOf hash) = places := by
  induction h with
  | nil => rfl
  | cons ho _ ih => rw [List.map_cons, ih, ho.place]

theorem AtPlaces.shifted {hash : Bytes} {places : List (ℤ × ℤ)} {l : List Bytes}
    (h : AtPlaces hash places l) :
    ∀ x ∈ l, Shifted (placeOf hash x).1 (placeOf hash x).2 hash x := by
  induction h with
  | nil => exact fun _ hx => absurd hx List.not_mem_nil
  | cons ho _ ih =>
    intro x hx
    rcases List.mem_cons.mp hx with rfl | hx
    · rw [ho.place]
      exact ho
    · exact ih x hx

/-- Geohashes of one length are cells of one grid. -/
theorem hashCell_sameGrid {x y : Bytes} (h : x.length = y.length) :
    Cell.SameGrid (hashCell x) (hashCell y) := by
  have hwhole : Cell.SameGrid Cell.whole Cell.whole := ⟨rfl, rfl, rfl⟩
  refine hwhole.decode ?_
  rw [length_hashBits, length_hashBits, h]

/-- **Hashes at the places of the ring** are the ring. -/
theorem AtPlaces.isRing {hash : Bytes} {level : ℕ} (hlevel : 1 ≤ level) {l : List Bytes}
    (h : AtPlaces hash (ringPlaces level) l) : IsRing hash level l := by
  have hmap := h.map_placeOf
  have hdist : ∀ x, chebyshev (hashCell hash) (hashCell x) = level ↔
      placeOf hash x ∈ ringPlaces level := fun x => (mem_ringPlaces hlevel).symm
  constructor
  · rw [← length_ringPlaces hlevel, ← hmap, List.length_map]
  · refine List.Nodup.of_map (placeOf hash) ?_
    rw [hmap]
    exact ringPlaces_nodup hlevel
  · intro x
    rw [hdist]
    constructor
    · intro hx
      have hshift := h.shifted x hx
      refine ⟨hshift.valid, hshift.length, ?_⟩
      rw [← hmap]
      exact List.mem_map_of_mem hx
    · rintro ⟨hvalid, hlen, hplace⟩
      rw [← hmap] at hplace
      obtain ⟨y, hy, hxy⟩ := List.mem_map.mp hplace
      have hshift := h.shifted y hy
      -- the hash that is listed for the place of `x` is `x`
      have hcell : hashCell y = hashCell x := by
        obtain ⟨hcols, hrows, hnext⟩ := hashCell_sameGrid (hshift.length.trans hlen.symm)
        obtain ⟨hcol, hrow⟩ := Prod.ext_iff.mp hxy
        unfold placeOf at hcol hrow
        simp only at hcol hrow
        refine Cell.ext ?_ hcols ?_ hrows hnext
        · omega
        · omega
      rw [← hashCell_inj hshift.valid hvalid (hshift.length.trans hlen.symm) hcell]
      exact hy

/-- A ring in the cell of the first character is listed. -/
theorem getNeighbours_isRing {hash : Bytes} {level : ℕ} (hvalid : Valid hash) (hne : hash ≠ [])
    (hlevel : 1 ≤ level) (htop : InTopCell hash level) :
    IsRing hash level (getNeighbours hash level) := by
  have hpos : ¬ level = 0 := by omega
  obtain ⟨l, hwalk⟩ := walkRing_isSome hvalid hne htop
  unfold getNeighbours
  rw [if_neg hpos, hwalk, Option.getD_some]
  exact (walkRing_some hvalid hwalk).1.isRing hlevel

/-- **The ring is complete** exactly when it stays in the cell of the first character. -/
theorem getNeighbours_isRing_iff (hash : Bytes) (level : ℕ) (hvalid : Valid hash)
    (hlen : 2 ≤ hash.length) (hlevel : 1 ≤ level) :
    IsRing hash level (getNeighbours hash level) ↔ InTopCell hash level := by
  have hne : hash ≠ [] := by
    rintro rfl
    exact absurd hlen (by decide)
  constructor
  · intro hring
    cases hwalk : walkRing hash level with
    | none =>
      have hpos : ¬ level = 0 := by omega
      have hempty := hring.length
      unfold getNeighbours at hempty
      rw [if_neg hpos, hwalk, Option.getD_none, List.length_nil] at hempty
      omega
    | some l => exact (walkRing_some hvalid hwalk).2
  · intro htop
    exact getNeighbours_isRing hvalid hne hlevel htop

/-- The cell in the south-west corner of `u`: south of it lie the cells of `s`, none of which is
    listed. -/
theorem ring_dropped :
    ¬ ∀ (hash : Bytes) (level : ℕ), Valid hash → 2 ≤ hash.length → 1 ≤ level →
      InWorld hash level → IsRing hash level (getNeighbours hash level) := by
  intro hall
  have hring := hall (str "u00") 1 (by decide) (by decide) (by decide) (by decide)
  have hnone : getNeighbours (str "u00") 1 = [] := by decide
  have hlen := hring.length
  rw [hnone] at hlen
  cases hlen

theorem ring_inside : IsRing (str "ezs42") 1 (getNeighbours (str "ezs42") 1) :=
  (getNeighbours_isRing_iff (str "ezs42") 1 (by decide) (by decide) (by decide)).mpr (by decide)

/-! ## Indexing a position -/

/-- The helper, as indexing calls it. -/
def geoHash : GeoHash where
  encode lat lon := encode lat lon 9
  neighbours := getNeighbours

theorem Valid.take {hash : Bytes} (h : Valid hash) (n : ℕ) : Valid (hash.take n) :=
  fun c hc => h c (List.mem_of_mem_take hc)

theorem InTopCell.mono {hash : Bytes} {level level' : ℕ} (h : InTopCell hash level) (hle : level' ≤ level) :
    InTopCell hash level' := by
  obtain ⟨⟨h1, h2⟩, h3, h4⟩ := h
  exact ⟨⟨by omega, by omega⟩, by omega, by omega⟩

/-- The helper lists the cells of a ring around a prefix of a hash. -/
theorem mem_getNeighbours_take {hash x : Bytes} {n level : ℕ} (hvalid : Valid hash) (hn : 1 ≤ n)
    (hlen : n ≤ hash.length) (hlevel : 1 ≤ level) (htop : InTopCell (hash.take n) level) (hx : Valid x)
    (hxlen : x.length = n) (hdist : chebyshev (hashCell (hash.take n)) (hashCell x) = level) :
    x ∈ getNeighbours (hash.take n) level := by
  have htake : (hash.take n).length = n := List.length_take_of_le hlen
  have hne : hash.take n ≠ [] := by
    intro hnil
    rw [hnil, List.length_nil] at htake
    omega
  refine ((getNeighbours_isRing (hvalid.take n) hne hlevel htop).mem x).mpr ⟨hx, ?_, hdist⟩
  rw [hxlen, htake]

/-- **`IndexGeo` posts the neighbouring cells** of a position, where the rings stay in the cell of the
    first character. -/
theorem indexGeo_neighbours {lat lon : ℚ} {hash : Bytes} (hplace : ¬ (lat = 0 ∧ lon = 0))
    (h : encode lat lon 9 = .ok hash) :
    (InTopCell (hash.take 3) 1 → ∀ x, Valid x → x.length = 3 →
        chebyshev (hashCell (hash.take 3)) (hashCell x) = 1 →
          formatPrefix x xapNbrhash3Prefix ∈ indexGeo geoHash lat lon) ∧
      (InTopCell (hash.take 5) 2 → ∀ x, Valid x → x.length = 5 →
        chebyshev (hashCell (hash.take 5)) (hashCell x) = 1 ∨
            chebyshev (hashCell (hash.take 5)) (hashCell x) = 2 →
          formatPrefix x xapNbrhash5Prefix ∈ indexGeo geoHash lat lon) := by
  obtain ⟨rfl, -⟩ := encode_eq_ok (by decide) (by decide) h
  obtain ⟨-, hvalid, hlen, -, -⟩ := encodeText_spec lat lon 9
  have hterms : indexGeo geoHash lat lon
      = (let hash := (encodeText lat lon 9).ss
        [formatPrefix (hash.take 3) xapGeohash3Prefix, formatPrefix (hash.take 5) xapGeohash5Prefix,
          formatPrefix (hash.take 7) xapGeohash7Prefix, formatPrefix (hash.take 9) xapGeohash9Prefix,
          formatPrefix (hash.take 3) xapNbrhash3Prefix]
          ++ (getNeighbours (hash.take 3) 1).map (formatPrefix · xapNbrhash3Prefix)
          ++ [formatPrefix (hash.take 5) xapNbrhash5Prefix]
          ++ (getNeighbours (hash.take 5) 1).map (formatPrefix · xapNbrhash5Prefix)
          ++ (getNeighbours (hash.take 5) 2).map (formatPrefix · xapNbrhash5Prefix)) := by
    unfold indexGeo geoHash
    simp only [hplace, if_false, h]
  rw [hterms]
  constructor
  · intro htop x hx hxlen hdist
    have hmem := List.mem_map_of_mem (f := (formatPrefix · xapNbrhash3Prefix))
      (mem_getNeighbours_take hvalid (by omega) (by omega) (by omega) htop hx hxlen hdist)
    simp only [List.mem_append]
    exact Or.inl (Or.inl (Or.inl (Or.inr hmem)))
  · intro htop x hx hxlen hdist
    simp only [List.mem_append]
    rcases hdist with hdist | hdist
    · have hmem := List.mem_map_of_mem (f := (formatPrefix · xapNbrhash5Prefix))
        (mem_getNeighbours_take hvalid (by omega) (by omega) (by omega) (htop.mono (by omega)) hx hxlen hdist)
      exact Or.inl (Or.inr hmem)
    · have hmem := List.mem_map_of_mem (f := (formatPrefix · xapNbrhash5Prefix))
        (mem_getNeighbours_take hvalid (by omega) (by omega) (by omega) htop hx hxlen hdist)
      exact Or.inr hmem

/-- The cell to the west of a place in the south of India. -/
theorem indexGeo_neighbours_tdr :
    formatPrefix (str "tdq") xapNbrhash3Prefix ∈ indexGeo geoHash (1297 / 100) (7759 / 100) := by
  have h : encode (1297 / 100) (7759 / 100) 9 = .ok (str "tdr1v957d") := by decide +kernel
  exact (indexGeo_neighbours (by norm_num) h).1 (by decide +kernel) (str "tdq") (by decide +kernel) rfl
    (by decide +kernel)

end Zapdos.Search.GeoHashHelper
