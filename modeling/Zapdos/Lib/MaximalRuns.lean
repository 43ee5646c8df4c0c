/-
  Maximal runs — how a scan from left to right finds the longest stretches of positions that satisfy a
  predicate, and how their list falls into groups while it grows.

  A run is known to be maximal on the right only one position behind its end.

  THE LAWS THE CLIENTS USE.
    * `OpenRun.start`, `OpenRun.extend`, `OpenRun.close` — what one position does to the run at hand;
    * `OpenRun.unique`, `ClosedRun.before`                  — runs with one end are one run, runs in order
                                                          of their ends are apart;
    * `splitBy_concat_same`, `splitBy_concat_new`       — one more element in the last group, or in a
                                                          group of its own.
-/
import Mathlib.Data.List.SplitBy
import Mathlib.Order.Lattice

namespace Zapdos.Lib

section

variable {L : ℕ → Prop} {a b c d i : ℕ}

/-- All positions from `a` to `b` satisfy the predicate, the one before `a` does not. -/
structure OpenRun (L : ℕ → Prop) (a b : ℕ) : Prop where
  lt : a < b
  all : ∀ k, a ≤ k → k < b → L k
  left : ∀ k, k + 1 = a → ¬ L k

/-- And the one behind does not either. -/
structure ClosedRun (L : ℕ → Prop) (a b : ℕ) : Prop extends OpenRun L a b where
  right : ¬ L b

/-- A run starts behind a position that is in none. -/
theorem OpenRun.start (hleft : ∀ k, k + 1 = i → ¬ L k) (h : L i) : OpenRun L i (i + 1) := by
  refine ⟨Nat.lt_succ_self i, fun k hk hki => ?_, hleft⟩
  have hki : k = i := by omega
  exact hki ▸ h

/-- One more position that satisfies the predicate. -/
theorem OpenRun.extend (hr : OpenRun L a i) (h : L i) : OpenRun L a (i + 1) := by
  refine ⟨hr.lt.trans (Nat.lt_succ_self i), fun k hk hki => ?_, hr.left⟩
  by_cases hlt : k < i
  · exact hr.all k hk hlt
  · have hki : k = i := by omega
    exact hki ▸ h

/-- One that does not ends the run. -/
theorem OpenRun.close (hr : OpenRun L a i) (h : ¬ L i) : ClosedRun L a i := ⟨hr, h⟩

/-- Of two runs with one end, neither starts inside the other. -/
theorem OpenRun.not_lt (hr : OpenRun L a b) (hr' : OpenRun L c b) : ¬ a < c := by
  intro hlt
  have hpos : c - 1 + 1 = c := by omega
  refine hr'.left (c - 1) hpos (hr.all (c - 1) (by omega) ?_)
  have := hr'.lt
  omega

/-- **Runs with one end** are one run. -/
theorem OpenRun.unique (hr : OpenRun L a b) (hr' : OpenRun L c b) : a = c :=
  le_antisymm (Nat.le_of_not_lt (hr'.not_lt hr)) (Nat.le_of_not_lt (hr.not_lt hr'))

/-- **Runs in order** of their ends are apart. -/
theorem ClosedRun.before (hr : ClosedRun L a b) (hr' : ClosedRun L c d) (h : b < d) : b < c := by
  by_contra hle
  exact hr.right (hr'.all b (by omega) h)

/-- No run ends where nothing precedes. -/
theorem ClosedRun.last (hr : ClosedRun L a b) : ∃ k, k + 1 = b ∧ L k := by
  have := hr.lt
  exact ⟨b - 1, by omega, hr.all (b - 1) (by omega) (by omega)⟩

end

/-! ## Groups -/

section

variable {α : Type*} {r : α → α → Bool} {l g : List α} {gs : List (List α)} {x a : α}

/-- One element is one group. -/
theorem splitBy_singleton (r : α → α → Bool) (a : α) : [a].splitBy r = [[a]] := by
  rw [List.splitBy_eq_iff]
  exact ⟨rfl, by simp, fun m hm => by rw [List.mem_singleton.mp hm]; exact List.isChain_singleton a,
    List.isChain_singleton _⟩

/-- **An element in a group of its own**: it does not go with the last one. -/
theorem splitBy_concat_new (h : ∀ x ∈ l.getLast?, r x a = false) :
    (l ++ [a]).splitBy r = l.splitBy r ++ [[a]] := by
  rw [List.splitBy_append_cons [] h, splitBy_singleton]

/-- **An element in the last group**: it goes with the last one. -/
theorem splitBy_concat_same (h : l.splitBy r = gs ++ [g ++ [x]]) (hr : r x a = true) :
    (l ++ [a]).splitBy r = gs ++ [g ++ [x, a]] := by
  obtain ⟨hl, hne, hchain, hbetween⟩ := List.splitBy_eq_iff.mp h
  rw [List.splitBy_eq_iff]
  refine ⟨?_, ?_, fun m hm => ?_, ?_⟩
  · rw [hl]
    simp
  · rw [List.mem_append, not_or] at hne ⊢
    exact ⟨hne.1, by simp⟩
  · -- a group is a chain: the last one goes on by `hr`
    rcases List.mem_append.mp hm with hm | hm
    · exact hchain m (List.mem_append_left _ hm)
    · rw [List.mem_singleton.mp hm]
      have hg := hchain (g ++ [x]) (List.mem_append_right _ (List.mem_singleton_self _))
      rw [← List.singleton_append, ← List.append_assoc]
      exact List.IsChain.append hg (List.isChain_singleton a) (by simp [hr])
  · rw [List.isChain_append] at hbetween ⊢
    -- between two groups nothing has changed, the last group has the same head
    refine ⟨hbetween.1, List.isChain_singleton _, fun u hu v hv => ?_⟩
    obtain rfl : v = g ++ [x, a] := by simpa using hv.symm
    obtain ⟨hu', hne', hhead⟩ := hbetween.2.2 u hu (g ++ [x]) (by simp)
    refine ⟨hu', by simp, ?_⟩
    cases g with
    | nil => exact hhead
    | cons y g => exact hhead

end

end Zapdos.Lib
