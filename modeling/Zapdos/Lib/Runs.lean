/-
  Runs of a state machine — invariants over everything that is reachable.

  A machine has initial states and a step function whose labels carry every choice (which party
  moves, what the environment answers, in which order); a label that is not enabled gives `none`.
  Safety is then two obligations, `init` and one step, and `ReachWhere.invariant` is the induction
  that joins them.  `ReachWhere ok` restricts attention to the runs all of whose steps satisfy `ok`,
  a condition on the state BEFORE the step and on the label.
-/
import Mathlib.Logic.Function.Basic

namespace Zapdos.Lib

/-- A state machine with labelled steps. -/
structure Machine (S L : Type*) where
  /-- where a run may start -/
  init : S → Prop
  /-- one step; `none` when the label is not enabled -/
  step : S → L → Option S

namespace Machine

variable {S L : Type*} (m : Machine S L)

/-- The states at the end of a run all of whose steps satisfy `ok`. -/
inductive ReachWhere (ok : S → L → Prop) : S → Prop
  | init {s : S} (h : m.init s) : ReachWhere ok s
  | step {s s' : S} {l : L} (h : ReachWhere ok s) (hok : ok s l) (hs : m.step s l = some s') :
      ReachWhere ok s'

/-- The states at the end of any run. -/
abbrev Reach : S → Prop := m.ReachWhere (fun _ _ => True)

/-- Run a list of labels; `none` as soon as one of them is not enabled. -/
def exec : S → List L → Option S
  | s, [] => some s
  | s, l :: ls => (m.step s l).bind (fun s' => exec s' ls)

/-- Every step of the run along `ls` from `s` satisfies `ok` in the state it starts from. -/
def StepsOk (ok : S → L → Prop) : S → List L → Prop
  | _, [] => True
  | s, l :: ls => ok s l ∧ ∀ s', m.step s l = some s' → StepsOk ok s' ls

/-- Whether the steps of a run satisfy `ok` can be computed. -/
instance decidableStepsOk {ok : S → L → Prop} [∀ s l, Decidable (ok s l)] :
    (s : S) → (ls : List L) → Decidable (m.StepsOk ok s ls)
  | _, [] => .isTrue trivial
  | s, l :: ls =>
    have : Decidable (∀ s', m.step s l = some s' → StepsOk m ok s' ls) :=
      match hs : m.step s l with
      | none => .isTrue fun s' h => by cases h
      | some s' =>
        have : Decidable (StepsOk m ok s' ls) := decidableStepsOk s' ls
        decidable_of_iff (StepsOk m ok s' ls)
          ⟨fun h s'' he => Option.some.inj he ▸ h, fun h => h s' rfl⟩
    inferInstanceAs (Decidable (ok s l ∧ ∀ s', m.step s l = some s' → StepsOk m ok s' ls))

variable {m}

/-- **The invariant rule**: initially, and preserved by every step that satisfies `ok`. -/
theorem ReachWhere.invariant {ok : S → L → Prop} {I : S → Prop} {s : S} (h : m.ReachWhere ok s)
    (h0 : ∀ s, m.init s → I s)
    (hstep : ∀ s l s', I s → ok s l → m.step s l = some s' → I s') : I s := by
  induction h with
  | init hi => exact h0 _ hi
  | step _ hok hs ih => exact hstep _ _ _ ih hok hs

theorem ReachWhere.mono {ok ok' : S → L → Prop} {s : S} (h : m.ReachWhere ok s)
    (himp : ∀ s l, ok s l → ok' s l) : m.ReachWhere ok' s := by
  induction h with
  | init hi => exact .init hi
  | step _ hok hs ih => exact .step ih (himp _ _ hok) hs

theorem exec_append (s : S) (ls ls' : List L) :
    m.exec s (ls ++ ls') = (m.exec s ls).bind (fun s' => m.exec s' ls') := by
  induction ls generalizing s with
  | nil => rfl
  | cons l ls ih =>
    rw [List.cons_append, exec, exec, Option.bind_assoc]
    exact congrArg _ (funext ih)

theorem exec_cons {s s₁ s' : S} {l : L} {ls : List L} (hs : m.step s l = some s₁)
    (he : m.exec s₁ ls = some s') : m.exec s (l :: ls) = some s' := by
  rw [exec, hs]
  exact he

/-- Running labels from a reachable state stays reachable. -/
theorem ReachWhere.exec {ok : S → L → Prop} {s s' : S} {ls : List L} (h : m.ReachWhere ok s)
    (hok : m.StepsOk ok s ls) (he : m.exec s ls = some s') : m.ReachWhere ok s' := by
  induction ls generalizing s with
  | nil => exact Option.some.inj he ▸ h
  | cons l ls ih =>
    obtain ⟨mid, hmid, hrest⟩ := Option.bind_eq_some_iff.mp he
    exact ih (.step h hok.1 hmid) (hok.2 mid hmid) hrest

theorem stepsOk_true (s : S) (ls : List L) : m.StepsOk (fun _ _ => True) s ls := by
  induction ls generalizing s with
  | nil => trivial
  | cons l ls ih => exact ⟨trivial, fun s' _ => ih s'⟩

/-- A run from an initial state, as a list of labels. -/
theorem Reach.of_exec {s s' : S} {ls : List L} (hi : m.init s) (he : m.exec s ls = some s') :
    m.Reach s' :=
  (ReachWhere.init hi).exec (stepsOk_true s ls) he

end Machine

/-! ## One of many parties moves -/

section

variable {ι α β γ : Type*} [DecidableEq ι] {f : ι → α} {g : ι → β} {i : ι} {a : α} {b : β}

/-- What holds of every party still does, if it holds of the one that has moved. -/
theorem forall_update {P : ι → α → β → Prop} (hself : P i a b)
    (hothers : ∀ j, j ≠ i → P j (f j) (g j)) (j : ι) :
    P j (Function.update f i a j) (Function.update g i b j) := by
  by_cases hj : j = i
  · subst hj
    rw [Function.update_self, Function.update_self]
    exact hself
  · rw [Function.update_of_ne hj, Function.update_of_ne hj]
    exact hothers j hj

/-- What no two parties have in common stays so, if the one that has moved shares it with none. -/
theorem disjoint_update {P : α → β → γ → Prop}
    (h : ∀ j k, j ≠ k → ∀ c, P (f j) (g j) c → ¬ P (f k) (g k) c)
    (hself : ∀ j, j ≠ i → ∀ c, P (f j) (g j) c → ¬ P a b c) (j k : ι) (hjk : j ≠ k) (c : γ) :
    P (Function.update f i a j) (Function.update g i b j) c →
      ¬ P (Function.update f i a k) (Function.update g i b k) c := by
  by_cases hj : j = i
  · have hk : k ≠ i := fun he => hjk (hj.trans he.symm)
    rw [hj, Function.update_self, Function.update_self, Function.update_of_ne hk,
      Function.update_of_ne hk]
    exact fun hc hc' => hself k hk c hc' hc
  · by_cases hk : k = i
    · rw [hk, Function.update_self, Function.update_self, Function.update_of_ne hj,
        Function.update_of_ne hj]
      exact hself j hj c
    · rw [Function.update_of_ne hj, Function.update_of_ne hj, Function.update_of_ne hk,
        Function.update_of_ne hk]
      exact h j k hjk c

end

end Zapdos.Lib
