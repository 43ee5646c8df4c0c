/-
  Entries in a row.

  Something numbered may have gaps: a log of which some entries are missing, a buffer of messages
  that arrived in any order.  `IsRun f pos run` says that `run` is everything that follows `pos`
  without a gap: the entries `pos + 1, pos + 2, …`, in order, and nothing under the next number.

  THE CRUX.  A run is cut anywhere into a first part and the run after it (`isRun_drop`), so readers
  that take the entries in portions of any size take all of them, once each.
-/
import Mathlib.Data.List.Basic
import Mathlib.Data.List.Nodup
import Mathlib.Data.List.Range
import Mathlib.Data.List.Perm.Subperm

namespace Zapdos.Lib

variable {A : Type*} {f : Nat → Option A}

/-- `run` is the whole run of entries after `pos`. -/
def IsRun (f : Nat → Option A) : Nat → List A → Prop
  | pos, [] => f (pos + 1) = none
  | pos, a :: run => f (pos + 1) = some a ∧ IsRun f (pos + 1) run

theorem isRun_nil {pos : Nat} : IsRun f pos [] ↔ f (pos + 1) = none := Iff.rfl

theorem isRun_cons {pos : Nat} {a : A} {run : List A} :
    IsRun f pos (a :: run) ↔ f (pos + 1) = some a ∧ IsRun f (pos + 1) run := Iff.rfl

/-- The entry under each number, and none after the last. -/
theorem IsRun.entry {pos : Nat} {run : List A} (h : IsRun f pos run) {j : Nat}
    (hj : j ≤ run.length) : f (pos + 1 + j) = run[j]? := by
  induction run generalizing pos j with
  | nil =>
    have h0 : j = 0 := Nat.le_zero.mp hj
    rw [h0]
    exact h
  | cons a run ih =>
    cases j with
    | zero => exact h.1
    | succ j =>
      rw [List.getElem?_cons_succ, ← ih h.2 (Nat.le_of_succ_le_succ hj)]
      exact congrArg f (by omega)

/-- There is one run after a position. -/
theorem IsRun.unique {pos : Nat} {run run' : List A} (h : IsRun f pos run)
    (h' : IsRun f pos run') : run = run' := by
  induction run generalizing pos run' with
  | nil =>
    cases run' with
    | nil => rfl
    | cons a run' =>
      rw [isRun_nil] at h
      rw [isRun_cons, h] at h'
      cases h'.1
  | cons a run ih =>
    cases run' with
    | nil =>
      rw [isRun_nil] at h'
      rw [isRun_cons, h'] at h
      cases h.1
    | cons b run' =>
      have hab : some a = some b := h.1.symm.trans h'.1
      rw [Option.some.inj hab, ih h.2 h'.2]

/-- **The rest of a run** is the run after the part that was taken. -/
theorem IsRun.drop {pos : Nat} {run : List A} (h : IsRun f pos run) {n : Nat}
    (hn : n ≤ run.length) : IsRun f (pos + n) (run.drop n) := by
  induction n generalizing pos run with
  | zero => exact h
  | succ n ih =>
    cases run with
    | nil => cases hn
    | cons a run =>
      have hrest := ih h.2 (Nat.le_of_succ_le_succ hn)
      rw [List.drop_succ_cons, show pos + (n + 1) = pos + 1 + n by omega]
      exact hrest

/-- If the entries end somewhere, there is a run after every position. -/
theorem exists_isRun {last : Nat} (hlast : ∀ i, last < i → f i = none) (pos : Nat) :
    ∃ run, IsRun f pos run := by
  -- by induction on the numbers left
  induction hn : last - pos generalizing pos with
  | zero => exact ⟨[], hlast (pos + 1) (by omega)⟩
  | succ n ih =>
    cases hf : f (pos + 1) with
    | none => exact ⟨[], hf⟩
    | some a =>
      obtain ⟨run, hrun⟩ := ih (pos + 1) (by omega)
      exact ⟨a :: run, hf, hrun⟩

/-- Finitely many entries have a run after every position. -/
theorem exists_isRun_of_mem {numbers : List Nat} (hnum : ∀ i, (f i).isSome = true → i ∈ numbers)
    (pos : Nat) : ∃ run, IsRun f pos run := by
  have hlast : ∃ last, ∀ i ∈ numbers, i ≤ last := by
    clear hnum
    induction numbers with
    | nil => exact ⟨0, by simp⟩
    | cons n numbers ih =>
      obtain ⟨last, hle⟩ := ih
      refine ⟨max n last, fun i hi => ?_⟩
      rcases List.mem_cons.mp hi with rfl | hi
      · exact le_max_left _ _
      · exact (hle i hi).trans (le_max_right _ _)
  obtain ⟨last, hle⟩ := hlast
  have hend : ∀ i, last < i → f i = none := by
    intro i hi
    cases hf : f i with
    | none => rfl
    | some a =>
      have hil := hle i (hnum i (by rw [hf]; rfl))
      omega
  exact exists_isRun hend pos

/-- A run is no longer than a list of numbers that holds all numbers with an entry. -/
theorem IsRun.length_le {pos : Nat} {run : List A} (h : IsRun f pos run) {numbers : List Nat}
    (hnum : ∀ i, (f i).isSome = true → i ∈ numbers) : run.length ≤ numbers.length := by
  have hsub : List.range' (pos + 1) run.length ⊆ numbers := by
    intro i hi
    obtain ⟨hlo, hhi⟩ := List.mem_range'_1.mp hi
    refine hnum i ?_
    have hent := h.entry (j := i - (pos + 1)) (by omega)
    rw [show pos + 1 + (i - (pos + 1)) = i by omega,
      List.getElem?_eq_getElem (by omega)] at hent
    rw [hent]
    rfl
  have hle := (List.subperm_of_subset List.nodup_range' hsub).length_le
  rwa [List.length_range'] at hle

end Zapdos.Lib
