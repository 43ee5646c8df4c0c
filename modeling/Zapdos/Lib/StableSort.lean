/-
  Sorting through an ordered map — packed keys.

  A list is sorted by filling an ordered map, each element under a key that packs its weight and its
  place, and reading the map from the front.  When the keys are in the order of weight and then of
  place, this is a stable sort, the heaviest element first.

  THE LAWS THE CLIENTS USE.
    * `StableSort`          — a permutation, by weight descending, ties in the order of the list;
    * `StableSort.of_rows`  — the map filled under packed keys reads as a stable sort.
-/
import Zapdos.Lib.OrdMap

namespace Zapdos.Lib

variable {α κ K : Type*} [LinearOrder κ] [LinearOrder K]

/-- `sorted` is `l` by weight descending, elements of equal weight in the order of `l`. -/
structure StableSort (w : α → κ) (l sorted : List α) : Prop where
  perm : sorted.Perm l
  descending : sorted.Pairwise (fun a b => w b ≤ w a)
  stable : ∀ c, sorted.filter (fun a => w a = c) = l.filter (fun a => w a = c)

/-- The keys of the elements are in the order of weight, descending, and of place. -/
def Packs (w : α → κ) (key : α → ℕ → K) (l : List α) : Prop :=
  ∀ a i b j, (a, i) ∈ l.zipIdx → (b, j) ∈ l.zipIdx →
    (key a i < key b j ↔ w b < w a ∨ (w a = w b ∧ i < j))

/-- The places of a list are in order. -/
theorem zipIdx_pairwise (l : List α) (n : ℕ) : (l.zipIdx n).Pairwise (fun a b => a.2 < b.2) := by
  induction l generalizing n with
  | nil => exact List.Pairwise.nil
  | cons a l ih =>
    rw [List.zipIdx_cons, List.pairwise_cons]
    refine ⟨?_, ih (n + 1)⟩
    rintro ⟨b, j⟩ hb
    obtain ⟨hle, -, -⟩ := List.mem_zipIdx hb
    show n < j
    omega

variable {w : α → κ} {key : α → ℕ → K} {l : List α}

/-- The entries of one weight are in the order of their keys. -/
theorem entries_pairwise (hkey : Packs w key l) (c : κ) :
    ((l.zipIdx.map (fun e => (key e.1 e.2, e.1))).filter (fun r => w r.2 = c)).Pairwise
      (fun r s => r.1 < s.1) := by
  rw [List.filter_map, List.pairwise_map]
  refine ((zipIdx_pairwise l 0).filter _).imp_of_mem ?_
  rintro ⟨a, i⟩ ⟨b, j⟩ ha hb hij
  obtain ⟨ha, hwa⟩ := List.mem_filter.mp ha
  obtain ⟨hb, hwb⟩ := List.mem_filter.mp hb
  have hw : w a = w b := (of_decide_eq_true hwa).trans (of_decide_eq_true hwb).symm
  exact (hkey a i b j ha hb).mpr (Or.inr ⟨hw, hij⟩)

/-- **A map filled under packed keys** reads as a stable sort. -/
theorem StableSort.of_rows {m : OrdMap K α} (hkey : Packs w key l)
    (hrows : m.rows.Perm (l.zipIdx.map (fun e => (key e.1 e.2, e.1)))) :
    StableSort w l (m.rows.map Prod.snd) := by
  have hsnd : (l.zipIdx.map (fun e => (key e.1 e.2, e.1))).map Prod.snd = l := by
    rw [List.map_map]
    exact List.zipIdx_map_fst 0 l
  constructor
  · have hperm := hrows.map Prod.snd
    rw [hsnd] at hperm
    exact hperm
  · rw [List.pairwise_map]
    refine m.sorted.imp_of_mem ?_
    intro r s hr hs hlt
    obtain ⟨⟨a, i⟩, ha, rfl⟩ := List.mem_map.mp (hrows.mem_iff.mp hr)
    obtain ⟨⟨b, j⟩, hb, rfl⟩ := List.mem_map.mp (hrows.mem_iff.mp hs)
    rcases (hkey a i b j ha hb).mp hlt with hw | ⟨hw, -⟩
    · exact hw.le
    · exact hw.ge
  · intro c
    have heq : m.rows.filter (fun r => w r.2 = c)
        = (l.zipIdx.map (fun e => (key e.1 e.2, e.1))).filter (fun r => w r.2 = c) := by
      refine OrdMap.rows_eq_of_mem_iff (m.sorted.filter _) (entries_pairwise hkey c) ?_
      intro r
      rw [List.mem_filter, List.mem_filter, hrows.mem_iff]
    have hmap := congrArg (List.map Prod.snd) heq
    calc (m.rows.map Prod.snd).filter (fun a => w a = c)
        = (m.rows.filter (fun r => w r.2 = c)).map Prod.snd := by
          rw [List.filter_map]
          rfl
      _ = ((l.zipIdx.map (fun e => (key e.1 e.2, e.1))).filter
            (fun r => w r.2 = c)).map Prod.snd := hmap
      _ = ((l.zipIdx.map (fun e => (key e.1 e.2, e.1))).map Prod.snd).filter
            (fun a => w a = c) := by
          rw [List.filter_map (f := Prod.snd)]
          rfl
      _ = l.filter (fun a => w a = c) := by rw [hsnd]

end Zapdos.Lib
