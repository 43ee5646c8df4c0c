/-
  `handypack` — how the spelling model is written to files, and how its n-grams are written as keys.

  A number is its bytes as they lie in memory, little-endian; `size_t` has eight bytes and `wchar_t`
  four.  A container is its size in four bytes and its elements; a set or a map is read back by
  inserting them one by one.  The elements of a tuple are written from the last to the first.

  A stream that ends too early leaves values undefined: the format then reads nothing.
-/
import Zapdos.Lib.Wire
import Zapdos.Store.Types

namespace Zapdos.Jamspell

open Zapdos.Lib Zapdos.Store

/-- `std::wstring`. -/
abbrev WString := List UInt32

/-! ## Numbers -/

/-- `TPodSerializer<uint8_t>`. -/
def packUint8 : Wire UInt8 := (Wire.le 1).via UInt8.toNat UInt8.ofNat
/-- `TPodSerializer<uint16_t>`. -/
def packUint16 : Wire UInt16 := (Wire.le 2).via UInt16.toNat UInt16.ofNat
/-- `TPodSerializer<uint32_t>`. -/
def packUint32 : Wire UInt32 := (Wire.le 4).via UInt32.toNat UInt32.ofNat
/-- `TPodSerializer<uint64_t>`. -/
def packUint64 : Wire UInt64 := (Wire.le 8).via UInt64.toNat UInt64.ofNat

/-- `size_t` of a value that is a number here. -/
def packSize : Wire ℕ := Wire.le 8

/-- `bool`. -/
def packBool : Wire Bool := (Wire.le 1).via Bool.toNat (fun n => decide (n ≠ 0))

/-- A byte comes back. -/
@[simp] theorem packUint8_carries (x : UInt8) : packUint8.Carries x :=
  (Wire.le_carries x.toNat_lt).via (UInt8.ofNat_toNat)

/-- Two bytes come back. -/
@[simp] theorem packUint16_carries (x : UInt16) : packUint16.Carries x :=
  (Wire.le_carries x.toNat_lt).via (UInt16.ofNat_toNat)

/-- Four bytes come back. -/
@[simp] theorem packUint32_carries (x : UInt32) : packUint32.Carries x :=
  (Wire.le_carries x.toNat_lt).via (UInt32.ofNat_toNat)

/-- Eight bytes come back. -/
@[simp] theorem packUint64_carries (x : UInt64) : packUint64.Carries x :=
  (Wire.le_carries x.toNat_lt).via (UInt64.ofNat_toNat)

/-- A size comes back if it fits into eight bytes. -/
theorem packSize_carries {n : ℕ} (h : n < 2 ^ 64) : packSize.Carries n := Wire.le_carries h

/-- A flag comes back. -/
@[simp] theorem packBool_carries (b : Bool) : packBool.Carries b :=
  (Wire.le_carries (by cases b <;> decide)).via (by cases b <;> rfl)

/-! ## Containers -/

section

variable {α β : Type}

/-- `TVectorSerializer`. -/
def packVector (w : Wire α) : Wire (List α) := Wire.list (Wire.le 4) w

/-- `TSerializer<std::wstring>`. -/
def packWString : Wire WString := packVector packUint32

/-- `TSerializer<std::pair>`. -/
def packPair (w : Wire α) (v : Wire β) : Wire (α × β) := w.pair v

/-- `object.insert(obj)` into a set. -/
def insertSet [DecidableEq α] (s : List α) (a : α) : List α := if a ∈ s then s else s ++ [a]

/-- `TSetSerializer`. -/
def packSet [DecidableEq α] (w : Wire α) : Wire (List α) :=
  (packVector w).via id (fun l => l.foldl insertSet [])

/-- `object.insert(obj)` into a map: a key that is there keeps its value. -/
def insertMap [DecidableEq α] (m : List (α × β)) (p : α × β) : List (α × β) :=
  if p.1 ∈ m.map Prod.fst then m else m ++ [p]

/-- `TMapSerializer` and `TUnorderedMapSerializer`. -/
def packMap [DecidableEq α] (w : Wire α) (v : Wire β) : Wire (List (α × β)) :=
  (packVector (packPair w v)).via id (fun l => l.foldl insertMap [])

/-- A vector comes back if its size fits into four bytes and its elements come back. -/
theorem packVector_carries {w : Wire α} {l : List α} (hlen : l.length < 2 ^ 32)
    (h : ∀ a ∈ l, w.Carries a) : (packVector w).Carries l :=
  Wire.Carries.list (Wire.le_carries hlen) h

/-- A text comes back if its size fits into four bytes. -/
theorem packWString_carries {s : WString} (hlen : s.length < 2 ^ 32) : packWString.Carries s :=
  packVector_carries hlen fun c _ => packUint32_carries c

variable [DecidableEq α]

/-- Inserting adds one element. -/
theorem mem_insertSet {s : List α} {a b : α} : b ∈ insertSet s a ↔ b ∈ s ∨ b = a := by
  rw [insertSet]
  split_ifs with ha
  · exact ⟨Or.inl, fun h => h.elim id fun h => h ▸ ha⟩
  · rw [List.mem_append, List.mem_singleton]

/-- Inserting one by one adds all of them. -/
theorem mem_foldl_insertSet {s l : List α} {b : α} : b ∈ l.foldl insertSet s ↔ b ∈ s ∨ b ∈ l := by
  induction l generalizing s with
  | nil => simp
  | cons a l ih => rw [List.foldl_cons, ih, mem_insertSet, List.mem_cons, or_assoc]

/-- Elements that are all different are inserted in their order. -/
theorem foldl_insertSet (s l : List α) (h : (s ++ l).Nodup) : l.foldl insertSet s = s ++ l := by
  induction l generalizing s with
  | nil => rw [List.foldl_nil, List.append_nil]
  | cons a l ih =>
    have ha : a ∉ s := fun hmem => List.disjoint_of_nodup_append h hmem List.mem_cons_self
    rw [List.foldl_cons, insertSet, if_neg ha, ih _ (by simpa using h), List.append_assoc,
      List.singleton_append]

/-- Inserting keeps the elements different, and adds at most one for each. -/
theorem foldl_insertSet_nodup {s : List α} (hs : s.Nodup) (l : List α) :
    (l.foldl insertSet s).Nodup ∧ (l.foldl insertSet s).length ≤ s.length + l.length := by
  induction l generalizing s with
  | nil => exact ⟨hs, Nat.le_refl _⟩
  | cons a l ih =>
    rw [List.foldl_cons, insertSet, List.length_cons]
    split_ifs with ha
    · obtain ⟨hnodup, hlen⟩ := ih hs
      exact ⟨hnodup, by omega⟩
    · obtain ⟨hnodup, hlen⟩ := ih (List.Nodup.append hs (List.nodup_singleton a) (List.disjoint_singleton.mpr ha))
      rw [List.length_append, List.length_singleton] at hlen
      exact ⟨hnodup, by omega⟩

/-- A set is read back in the order in which it was written. -/
theorem packSet_carries {w : Wire α} {s : List α} (hlen : s.length < 2 ^ 32) (hs : s.Nodup)
    (h : ∀ a ∈ s, w.Carries a) : (packSet w).Carries s :=
  (packVector_carries hlen h).via (foldl_insertSet [] s hs)

/-- Entries whose keys are all different are inserted in their order. -/
theorem foldl_insertMap (m l : List (α × β)) (h : ((m ++ l).map Prod.fst).Nodup) :
    l.foldl insertMap m = m ++ l := by
  induction l generalizing m with
  | nil => rw [List.foldl_nil, List.append_nil]
  | cons p l ih =>
    have hp : p.1 ∉ m.map Prod.fst := by
      rw [List.map_append] at h
      exact fun hmem => List.disjoint_of_nodup_append h hmem List.mem_cons_self
    rw [List.foldl_cons, insertMap, if_neg hp, ih _ (by simpa using h), List.append_assoc,
      List.singleton_append]

/-- A map is read back in the order in which it was written. -/
theorem packMap_carries {w : Wire α} {v : Wire β} {m : List (α × β)} (hlen : m.length < 2 ^ 32)
    (hm : (m.map Prod.fst).Nodup) (h : ∀ p ∈ m, w.Carries p.1 ∧ v.Carries p.2) :
    (packMap w v).Carries m :=
  (packVector_carries hlen fun p hp => (h p hp).1.pair (h p hp).2).via (foldl_insertMap [] m hm)

end

end Zapdos.Jamspell
