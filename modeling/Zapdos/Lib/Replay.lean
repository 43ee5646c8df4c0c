/-
  Numbered logs and their replay.

  A log assigns at most one entry to each positive number; a store is the log's replay when it is
  the result of letting the entries act on an initial store in increasing order.  A log may have
  holes (an entry that has a number but is not written yet), so a log is a partial function and the
  replay skips the holes.

  THE CRUX for concurrent writers is `replay_insert`: entering a hole AFTER later entries have acted
  gives the replay of the completed log as long as the late entry commutes with every later one.
-/
import Mathlib.Logic.Function.Basic
import Mathlib.Order.Nat
import Mathlib.Tactic.ByContra

namespace Zapdos.Lib

/-- A log: at most one entry for each number. -/
abbrev NumLog (E : Type*) := Nat → Option E

namespace NumLog

variable {E D : Type*}

/-- The log has an entry for exactly the numbers `1 … n`. -/
def UpTo (f : NumLog E) (n : Nat) : Prop := ∀ i, (f i).isSome = true ↔ 0 < i ∧ i ≤ n

/-- No entry beyond `n`. -/
def Below (f : NumLog E) (n : Nat) : Prop := ∀ i, n < i → f i = none

/-- The two logs agree on `1 … n`. -/
def AgreeTo (f g : NumLog E) (n : Nat) : Prop := ∀ i, 0 < i → i ≤ n → f i = g i

/-- Let the entries `1 … n` act in this order, skipping holes. -/
def replay (act : D → E → D) (f : NumLog E) (d : D) : Nat → D
  | 0 => d
  | n + 1 =>
    match f (n + 1) with
    | none => replay act f d n
    | some e => act (replay act f d n) e

theorem UpTo.below {f : NumLog E} {n : Nat} (h : UpTo f n) : Below f n := by
  intro i hi
  by_contra hne
  have := ((h i).mp (Option.isSome_iff_ne_none.mpr hne)).2
  omega

theorem UpTo.zero {f : NumLog E} {n : Nat} (h : UpTo f n) : f 0 = none := by
  by_contra hne
  have := ((h 0).mp (Option.isSome_iff_ne_none.mpr hne)).1
  omega

theorem upTo_blank {f : NumLog E} (h : ∀ i, f i = none) : UpTo f 0 := by
  intro i
  rw [h i]
  simp
  omega

/-- Adding the next entry to a gapless log. -/
theorem UpTo.update {f : NumLog E} {n : Nat} (h : UpTo f n) (e : E) :
    UpTo (Function.update f (n + 1) (some e)) (n + 1) := by
  intro i
  by_cases hi : i = n + 1
  · rw [hi, Function.update_self]
    simp
  · rw [Function.update_of_ne hi, h i]
    omega

theorem AgreeTo.symm {f g : NumLog E} {n : Nat} (h : AgreeTo f g n) : AgreeTo g f n :=
  fun i hi hn => (h i hi hn).symm

theorem AgreeTo.trans {f g k : NumLog E} {n : Nat} (h : AgreeTo f g n) (h' : AgreeTo g k n) :
    AgreeTo f k n :=
  fun i hi hn => (h i hi hn).trans (h' i hi hn)

theorem AgreeTo.mono {f g : NumLog E} {m n : Nat} (h : AgreeTo f g n) (hm : m ≤ n) :
    AgreeTo f g m :=
  fun i hi hn => h i hi (hn.trans hm)

/-- Filling a hole of the longer log changes nothing where the shorter one has an entry. -/
theorem AgreeTo.update_right {f g : NumLog E} {n : Nat} (hf : UpTo f n) (h : AgreeTo f g n)
    {i : Nat} {e : Option E} (hg : g i = none) : AgreeTo f (Function.update g i e) n := by
  intro j hj hn
  by_cases hji : j = i
  · have hsome := (hf j).mpr ⟨hj, hn⟩
    rw [h j hj hn, hji, hg] at hsome
    cases hsome
  · rw [Function.update_of_ne hji]
    exact h j hj hn

/-- Extending the shorter log by the longer one's next entry. -/
theorem AgreeTo.update_left {f g : NumLog E} {n : Nat} (h : AgreeTo f g n) {e : E}
    (hg : g (n + 1) = some e) : AgreeTo (Function.update f (n + 1) (some e)) g (n + 1) := by
  intro j hj hn
  by_cases hji : j = n + 1
  · rw [hji, Function.update_self, hg]
  · rw [Function.update_of_ne hji]
    exact h j hj (by omega)

/-! ## Common entries -/

/-- Both logs have an entry under each of `1 … n`, and the same one. -/
def SharedTo (f g : NumLog E) (n : Nat) : Prop :=
  ∀ i, 0 < i → i ≤ n → ∃ e, f i = some e ∧ g i = some e

/-- `f'` has the entries of `f`, and maybe more. -/
def Extends (f f' : NumLog E) : Prop := ∀ i e, f i = some e → f' i = some e

theorem Extends.refl (f : NumLog E) : Extends f f := fun _ _ h => h

theorem extends_update {f : NumLog E} {i : Nat} (h : f i = none) (e : E) :
    Extends f (Function.update f i (some e)) := by
  intro j e' hj
  have hne : j ≠ i := by
    rintro rfl
    rw [h] at hj
    cases hj
  rw [Function.update_of_ne hne, hj]

theorem SharedTo.symm {f g : NumLog E} {n : Nat} (h : SharedTo f g n) : SharedTo g f n := by
  intro i hi hn
  obtain ⟨e, hf, hg⟩ := h i hi hn
  exact ⟨e, hg, hf⟩

theorem SharedTo.trans {f g k : NumLog E} {n : Nat} (h : SharedTo f g n) (h' : SharedTo g k n) :
    SharedTo f k n := by
  intro i hi hn
  obtain ⟨e, hf, hg⟩ := h i hi hn
  obtain ⟨e', hg', hk⟩ := h' i hi hn
  rw [hg] at hg'
  cases hg'
  exact ⟨e, hf, hk⟩

theorem SharedTo.extend {f f' g g' : NumLog E} {n : Nat} (h : SharedTo f g n)
    (hf : Extends f f') (hg : Extends g g') : SharedTo f' g' n := by
  intro i hi hn
  obtain ⟨e, hfe, hge⟩ := h i hi hn
  exact ⟨e, hf i e hfe, hg i e hge⟩

theorem sharedTo_zero (f g : NumLog E) : SharedTo f g 0 := by
  intro i hi hn
  omega

/-- One more common entry. -/
theorem SharedTo.succ {f g : NumLog E} {n : Nat} (h : SharedTo f g n) {e : E}
    (hf : f (n + 1) = some e) (hg : g (n + 1) = some e) : SharedTo f g (n + 1) := by
  intro i hi hn
  by_cases he : i = n + 1
  · subst he
    exact ⟨e, hf, hg⟩
  · exact h i hi (by omega)

/-- Whether two logs share their first entries can be computed. -/
instance [DecidableEq E] (f g : NumLog E) (n : Nat) : Decidable (SharedTo f g n) :=
  decidable_of_iff (∀ i < n, (f (i + 1)).isSome = true ∧ f (i + 1) = g (i + 1)) <| by
    constructor
    · intro h i hi hn
      obtain ⟨j, rfl⟩ : ∃ j, i = j + 1 := ⟨i - 1, by omega⟩
      obtain ⟨hsome, heq⟩ := h j (by omega)
      obtain ⟨e, he⟩ := Option.isSome_iff_exists.mp hsome
      exact ⟨e, he, heq ▸ he⟩
    · intro h i hi
      obtain ⟨e, hf, hg⟩ := h (i + 1) (by omega) (by omega)
      exact ⟨by rw [hf]; rfl, hf.trans hg.symm⟩

/-! ## Replay -/

variable (act : D → E → D)

theorem replay_congr {f g : NumLog E} {n : Nat} (h : AgreeTo f g n) (d : D) :
    replay act f d n = replay act g d n := by
  induction n with
  | zero => rfl
  | succ n ih =>
    rw [replay, replay, h (n + 1) (Nat.succ_pos n) le_rfl, ih (h.mono (Nat.le_succ n))]

/-- The replay does not look beyond its bound. -/
theorem replay_update_above {f : NumLog E} {n i : Nat} (h : n < i) (e : Option E) (d : D) :
    replay act (Function.update f i e) d n = replay act f d n := by
  refine replay_congr act (fun j _ hj => ?_) d
  rw [Function.update_of_ne (by omega)]

/-- Replaying a log with one more entry lets that entry act last. -/
theorem replay_update_succ (f : NumLog E) (n : Nat) (e : E) (d : D) :
    replay act (Function.update f (n + 1) (some e)) d (n + 1) = act (replay act f d n) e := by
  rw [replay, Function.update_self]
  simp only [replay_update_above act (Nat.lt_succ_self n)]

/-- Numbers without an entry do not change the replay. -/
theorem replay_below {f : NumLog E} {n : Nat} (h : Below f n) (d : D) :
    ∀ {m : Nat}, n ≤ m → replay act f d m = replay act f d n
  | 0, hm => by rw [Nat.le_zero.mp hm]
  | m + 1, hm => by
    rcases Nat.lt_or_eq_of_le hm with hlt | heq
    · rw [replay, h (m + 1) hlt]
      exact replay_below h d (Nat.lt_succ_iff.mp hlt)
    · rw [heq]

/-- A replay in two parts: up to `m`, and from there with the later entries only. -/
theorem replay_since (f : NumLog E) (d : D) {m n : Nat} (h : m ≤ n) :
    replay act f d n = replay act (fun i => if m < i then f i else none) (replay act f d m) n := by
  induction n with
  | zero =>
    rw [Nat.le_zero.mp h]
    rfl
  | succ n ih =>
    rcases Nat.lt_or_eq_of_le h with hlt | heq
    · rw [replay, replay, ih (Nat.lt_succ_iff.mp hlt)]
      simp only [if_pos hlt]
    · -- no entry is later
      have hnone : AgreeTo (fun i => if m < i then f i else none) (fun _ => none) (n + 1) := by
        intro i _ hi
        exact if_neg (by omega)
      rw [replay_congr act hnone, heq]
      exact (@replay_below E D act (fun _ => none) 0 (fun _ _ => rfl) _ (n + 1)
        (Nat.zero_le _)).symm

/-- **Late entries.**  If the new entry `e` commutes with the entries after its place, letting it
    act at the end is the replay of the log with `e` in its place. -/
theorem replay_insert {f : NumLog E} {i : Nat} {e : E} (hi : 0 < i) (hf : f i = none) (d : D)
    {n : Nat} (hn : i ≤ n)
    (hcomm : ∀ j e', i < j → j ≤ n → f j = some e' → ∀ x, act (act x e') e = act (act x e) e') :
    replay act (Function.update f i (some e)) d n = act (replay act f d n) e := by
  induction n with
  | zero => omega
  | succ n ih =>
    rcases Nat.lt_or_eq_of_le hn with hlt | heq
    · have ih' := ih (Nat.lt_succ_iff.mp hlt) (fun j e' hj hjn => hcomm j e' hj (by omega))
      rw [replay, Function.update_of_ne (by omega), replay]
      cases hfn : f (n + 1) with
      | none => exact ih'
      | some e' =>
        show act _ e' = act (act _ e') e
        rw [ih', hcomm (n + 1) e' hlt le_rfl hfn]
    · subst heq
      rw [replay_update_succ, replay, hf]

end NumLog

end Zapdos.Lib
