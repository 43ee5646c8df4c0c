/-
  Greedy folds — a list is folded up from the left into values; a value takes in the elements after
  it for as long as it can, and the first element it refuses starts the next value.

  A *run* is a part of the list that folds into one value, and a *cut* divides the list into runs
  that each end where they have to.  There is exactly one cut, and its values are what the fold
  returns (`forall_greedy_iff`).
-/
import Mathlib.Data.List.Basic

namespace Zapdos.Lib

section

variable {α β : Type*} (start : α → β) (take? : β → α → Option β)

/-- The fold, with the value that is being made. -/
def greedyFrom : β → List α → List β
  | b, [] => [b]
  | b, a :: as =>
    match take? b a with
    | some b' => greedyFrom b' as
    | none => b :: greedyFrom (start a) as

/-- The greedy fold of a list. -/
def greedy : List α → List β
  | [] => []
  | a :: as => greedyFrom start take? (start a) as

/-- The elements of a run fold into one value. -/
inductive Run : List α → β → Prop
  | one (a : α) : Run [a] (start a)
  | more {g : List α} {b b' : β} {a : α} : Run g b → take? b a = some b' → Run (g ++ [a]) b'

/-- A list cut into runs, each as long as it can be. -/
inductive Cut : List α → List (List α × β) → Prop
  | nil : Cut [] []
  | cons {g rest : List α} {b : β} {gs : List (List α × β)} : Run start take? g b →
      (∀ a ∈ rest.head?, take? b a = none) → Cut rest gs → Cut (g ++ rest) ((g, b) :: gs)

variable {start take?}

theorem Run.ne_nil {g : List α} {b : β} (h : Run start take? g b) : g ≠ [] := by
  cases h with
  | one a => simp
  | more _ _ => simp

/-- A run is one element, or its first element takes in the second. -/
theorem Run.first {g : List α} {b : β} (h : Run start take? g b) :
    (∃ a, g = [a] ∧ b = start a) ∨
      ∃ a c r b', g = a :: c :: r ∧ take? (start a) c = some b' := by
  induction h with
  | one a => exact Or.inl ⟨a, rfl, rfl⟩
  | @more g b b' a _ hstep ih =>
    rcases ih with ⟨x, rfl, rfl⟩ | ⟨x, c, r, b'', rfl, h⟩
    · exact Or.inr ⟨x, a, [], b', rfl, hstep⟩
    · exact Or.inr ⟨x, c, r ++ [a], b'', rfl, h⟩

theorem greedyFrom_take {b b' : β} {a : α} (h : take? b a = some b') (as : List α) :
    greedyFrom start take? b (a :: as) = greedyFrom start take? b' as := by
  rw [greedyFrom, h]

theorem greedyFrom_stop {b : β} {a : α} (h : take? b a = none) (as : List α) :
    greedyFrom start take? b (a :: as) = b :: greedyFrom start take? (start a) as := by
  rw [greedyFrom, h]

/-- After a run the fold holds its value. -/
theorem Run.greedy_append {g : List α} {b : β} (h : Run start take? g b) (rest : List α) :
    greedy start take? (g ++ rest) = greedyFrom start take? b rest := by
  induction h generalizing rest with
  | one a => rfl
  | more _ hstep ih =>
    rw [List.append_assoc, ih]
    exact greedyFrom_take hstep rest

/-- The fold returns the values of a cut. -/
theorem Cut.greedy_eq {l : List α} {gs : List (List α × β)} (h : Cut start take? l gs) :
    greedy start take? l = gs.map Prod.snd := by
  induction h with
  | nil => rfl
  | @cons g rest b gs hrun hstop _ ih =>
    rw [hrun.greedy_append, List.map_cons, ← ih]
    cases rest with
    | nil => rfl
    | cons a as => exact greedyFrom_stop (hstop a rfl) as

theorem Run.exists_cut {g : List α} {b : β} (h : Run start take? g b) (l : List α) :
    ∃ gs, Cut start take? (g ++ l) gs := by
  induction l generalizing g b with
  | nil => exact ⟨[(g, b)], .cons h nofun .nil⟩
  | cons a as ih =>
    cases hstep : take? b a with
    | some b' =>
      have hcut := ih (h.more hstep)
      rwa [List.append_assoc] at hcut
    | none =>
      obtain ⟨gs, hgs⟩ := ih (.one a)
      refine ⟨(g, b) :: gs, .cons h ?_ hgs⟩
      rintro a' ha'
      rw [← Option.some.inj ha']
      exact hstep

/-- Every list has a cut. -/
theorem exists_cut (l : List α) : ∃ gs, Cut start take? l gs := by
  cases l with
  | nil => exact ⟨[], .nil⟩
  | cons a as => exact Run.exists_cut (.one a) as

/-- **What holds of the values of the fold** is what holds of the values of the cut. -/
theorem forall_greedy_iff {l : List α} {P : β → Prop} :
    (∀ b ∈ greedy start take? l, P b) ↔ ∀ gs, Cut start take? l gs → ∀ p ∈ gs, P p.2 := by
  constructor
  · intro h gs hgs p hp
    rw [hgs.greedy_eq] at h
    exact h p.2 (List.mem_map_of_mem hp)
  · intro h b hb
    obtain ⟨gs, hgs⟩ : ∃ gs, Cut start take? l gs := exists_cut l
    rw [hgs.greedy_eq, List.mem_map] at hb
    obtain ⟨p, hp, rfl⟩ := hb
    exact h gs hgs p hp

/-- The runs of a cut are parts of the list. -/
theorem Cut.run_of_mem {l : List α} {gs : List (List α × β)} (h : Cut start take? l gs)
    {p : List α × β} (hp : p ∈ gs) : Run start take? p.1 p.2 ∧ p.1 <:+: l := by
  induction h with
  | nil => cases hp
  | @cons g rest b gs hrun _ _ ih =>
    rcases List.mem_cons.mp hp with rfl | hp
    · exact ⟨hrun, (List.prefix_append g rest).isInfix⟩
    · obtain ⟨h1, h2⟩ := ih hp
      exact ⟨h1, h2.trans (List.suffix_append g rest).isInfix⟩

end

end Zapdos.Lib
