/-
  Steps with hidden state — a memo table behind a function.

  A step reads and changes a state that its callers do not see.  When some invariant makes every step
  answer what a function answers, a whole run answers what the function answers, whatever ran before.
-/
import Mathlib.Data.Option.Basic

namespace Zapdos.Lib.Memo

variable {S A B : Type*}

/-- One step for each argument: the last state and the answers; nothing when a step gives nothing. -/
def run (step : S → A → Option (S × B)) : S → List A → Option (S × List B)
  | s, [] => some (s, [])
  | s, a :: as =>
    match step s a with
    | none => none
    | some (s', b) => (run step s' as).map (fun r => (r.1, b :: r.2))

/-- The step answers as the function does, and keeps the invariant. -/
def Computes (Inv : S → Prop) (step : S → A → Option (S × B)) (f : A → Option B) : Prop :=
  ∀ s a, Inv s → match f a with
    | none => step s a = none
    | some b => ∃ s', step s a = some (s', b) ∧ Inv s'

/-- **A run answers what the function answers.** -/
theorem Computes.run {Inv : S → Prop} {step : S → A → Option (S × B)} {f : A → Option B}
    (h : Computes Inv step f) {s : S} (hs : Inv s) (as : List A) :
    match as.mapM f with
    | none => Memo.run step s as = none
    | some bs => ∃ s', Memo.run step s as = some (s', bs) ∧ Inv s' := by
  induction as generalizing s with
  | nil => exact ⟨s, rfl, hs⟩
  | cons a as ih =>
    have ha := h s a hs
    rw [List.mapM_cons]
    -- the function fails: so does the step, and the run with it
    cases hf : f a with
    | none =>
      rw [hf] at ha
      show Memo.run step s (a :: as) = none
      rw [Memo.run, ha]
    | some b =>
      rw [hf] at ha
      obtain ⟨s₁, hstep, hs₁⟩ := ha
      have htail := ih hs₁
      -- the step answers, and what comes after decides
      cases has : as.mapM f with
      | none =>
        rw [has] at htail
        show Memo.run step s (a :: as) = none
        rw [Memo.run, hstep]
        show (Memo.run step s₁ as).map _ = none
        rw [htail, Option.map_none]
      | some bs =>
        rw [has] at htail
        obtain ⟨s₂, hrun, hs₂⟩ := htail
        refine ⟨s₂, ?_, hs₂⟩
        rw [Memo.run, hstep]
        show (Memo.run step s₁ as).map _ = _
        rw [hrun, Option.map_some]

theorem Computes.run_answers {Inv : S → Prop} {step : S → A → Option (S × B)} {f : A → Option B}
    (h : Computes Inv step f) {s : S} (hs : Inv s) (as : List A) :
    (Memo.run step s as).map Prod.snd = as.mapM f := by
  have hrun := h.run hs as
  cases has : as.mapM f with
  | none =>
    rw [has] at hrun
    rw [hrun, Option.map_none]
  | some bs =>
    rw [has] at hrun
    obtain ⟨s', hrun, -⟩ := hrun
    rw [hrun, Option.map_some]

end Zapdos.Lib.Memo
