/-
  Distance slabs — the sort key of a search by distance.

  A document's distance is cut into slabs of `slab` metres, and the key puts the slab before the
  importance, clamped to `[0, 100]` and counted backwards, so that ascending keys mean nearer slabs
  first and, inside a slab, higher importance first.

  `sortable_serialise` keeps order and is undone by `sortable_unserialise`, so a serialised number is
  the number.  The metric of Xapian is a parameter; it returns metres, or nothing is known when the
  document has no position.
-/
import Mathlib.Data.Rat.Floor
import Mathlib.Order.Defs.LinearOrder
import Zapdos.Search.SortHelpers

namespace Zapdos.Search

/-- `XAP_DSLAB_MAX_IMPORTANCE`. -/
def xapDslabMaxImportance : ℕ := 100

/-- `XAP_DSLAB_MAX_DISTANCE`. -/
def xapDslabMaxDistance : ℕ := 400000

/-- `KeepInBound`. -/
def keepInBound {α : Type*} [LinearOrder α] (val min max : α) : α :=
  if val > min then (if val < max then val else max) else min

section

variable {α : Type*} [LinearOrder α]

theorem keepInBound_bounds {val min max : α} (h : min ≤ max) :
    min ≤ keepInBound val min max ∧ keepInBound val min max ≤ max := by
  unfold keepInBound
  split_ifs with h1 h2
  · exact ⟨h1.le, h2.le⟩
  · exact ⟨h, le_rfl⟩
  · exact ⟨le_rfl, h⟩

end

/-- A 64-bit number stored into an `int`. -/
def toInt32 (n : ℤ) : ℤ := n.bmod (2 ^ 32)

/-- A `double` stored into an `int`: the fraction is cut off. -/
def truncInt32 (q : ℚ) : ℤ := toInt32 (if 0 ≤ q then ⌊q⌋ else -⌊-q⌋)

/-- `DistanceSlabKeyMaker`: its constructor keeps every setting in bound. -/
structure DistanceSlabKeyMaker where
  slab : ℤ
  defdist : ℤ
  maxdist : ℤ
  slab_bounds : 1 ≤ slab ∧ slab ≤ xapDslabMaxDistance
  defdist_bounds : 0 ≤ defdist ∧ defdist ≤ xapDslabMaxDistance
  maxdist_bounds : 0 ≤ maxdist ∧ maxdist ≤ xapDslabMaxDistance

namespace DistanceSlabKeyMaker

/-- The constructor, whose last argument defaults to the maximum. -/
def new (slab dd : ℤ) (md : ℤ := xapDslabMaxDistance) : DistanceSlabKeyMaker where
  slab := keepInBound slab 1 xapDslabMaxDistance
  defdist := keepInBound dd 0 xapDslabMaxDistance
  maxdist := keepInBound md 0 xapDslabMaxDistance
  slab_bounds := keepInBound_bounds (by unfold xapDslabMaxDistance; omega)
  defdist_bounds := keepInBound_bounds (by unfold xapDslabMaxDistance; omega)
  maxdist_bounds := keepInBound_bounds (by unfold xapDslabMaxDistance; omega)

variable (km : DistanceSlabKeyMaker)

/-- The distance that counts, from what the metric says. -/
def dist : Option ℚ → ℤ
  | none => km.defdist
  | some d => keepInBound (toInt32 (llround d)) 0 km.maxdist

/-- The slab of a document. -/
def dslab (d : Option ℚ) : ℤ := 1 + km.dist d / km.slab

/-- `val_o`: the importance that counts. -/
def valO (importance : ℚ) : ℚ := keepInBound importance 0 xapDslabMaxImportance

/-- `operator()`, the serialisation left out. -/
def sortKey (d : Option ℚ) (importance : ℚ) : ℚ :=
  km.dslab d * xapDslabMaxImportance + (xapDslabMaxImportance - valO importance)

theorem valO_bounds (importance : ℚ) : 0 ≤ valO importance ∧ valO importance ≤ 100 := by
  have h := @keepInBound_bounds ℚ _ importance 0 xapDslabMaxImportance
    (by unfold xapDslabMaxImportance; norm_num)
  unfold valO
  refine ⟨h.1, h.2.trans ?_⟩
  unfold xapDslabMaxImportance
  norm_num

end DistanceSlabKeyMaker

end Zapdos.Search
