/-
  Chasing links — a walk along a partial function, with a search on the way.

  From a place the walk goes to the next one, if there is any, and looks there; it stops at the first
  find or where no link leads on.  Nothing keeps it from walking in circles.

  THE LAWS THE CLIENTS USE.
    * `chase_ends_iff`  — the walk ends exactly when it meets a find or a place without a link;
    * `ends_of_rank`    — links that go down in a rank, or to a place without a link, come to an end;
    * `no_end_of_closed` — links that lead from every place of a set into the set do not;
    * `chase_congr`     — the walk depends only on what there is to find at the places it can reach.
-/
import Mathlib.Logic.Relation

namespace Zapdos.Lib

variable {α β : Type*}

/-- Walk from a place, `fuel` links at most: `none` if that was not enough, else what was found. -/
def chase (next : α → Option α) (hit : α → Option β) : Nat → α → Option (Option β)
  | 0, _ => none
  | fuel + 1, a =>
    match next a with
    | none => some none
    | some b =>
      match hit b with
      | some v => some (some v)
      | none => chase next hit fuel b

/-- A link leads from one place to the other. -/
def Link (next : α → Option α) (a b : α) : Prop := next a = some b

section

variable {next : α → Option α} {hit hit' : α → Option β}

theorem chase_end {a : α} (h : next a = none) (fuel : Nat) :
    chase next hit (fuel + 1) a = some none := by
  rw [chase, h]

theorem chase_hit {a b : α} {v : β} (h : next a = some b) (hv : hit b = some v) (fuel : Nat) :
    chase next hit (fuel + 1) a = some (some v) := by
  rw [chase, h]
  simp only [hv]

theorem chase_link {a b : α} (h : next a = some b) (hv : hit b = none) (fuel : Nat) :
    chase next hit (fuel + 1) a = chase next hit fuel b := by
  rw [chase, h]
  simp only [hv]

/-- An end at some distance ends the walk, if not a find before it. -/
theorem chase_ends_of_end {a e : α} (hend : next e = none)
    (hlinks : Relation.ReflTransGen (Link next) a e) :
    ∃ fuel, (chase next hit fuel a).isSome = true := by
  induction hlinks using Relation.ReflTransGen.head_induction_on with
  | refl => exact ⟨1, by rw [chase_end hend]; rfl⟩
  | @head a b hlink _ ih =>
    obtain ⟨fuel, hfuel⟩ := ih
    cases hv : hit b with
    | some v => exact ⟨1, by rw [chase_hit hlink hv]; rfl⟩
    | none => exact ⟨fuel + 1, by rw [chase_link hlink hv]; exact hfuel⟩

/-- So does a find. -/
theorem chase_ends_of_hit {a f : α} (hfound : (hit f).isSome = true)
    (hlinks : Relation.TransGen (Link next) a f) :
    ∃ fuel, (chase next hit fuel a).isSome = true := by
  induction hlinks using Relation.TransGen.head_induction_on with
  | single hlink =>
    obtain ⟨v, hv⟩ := Option.isSome_iff_exists.mp hfound
    exact ⟨1, by rw [chase_hit hlink hv]; rfl⟩
  | @head a b hlink _ ih =>
    obtain ⟨fuel, hfuel⟩ := ih
    cases hv : hit b with
    | some v => exact ⟨1, by rw [chase_hit hlink hv]; rfl⟩
    | none => exact ⟨fuel + 1, by rw [chase_link hlink hv]; exact hfuel⟩

/-- **The walk ends** exactly when it meets a find or a place without a link. -/
theorem chase_ends_iff {a : α} :
    (∃ fuel, (chase next hit fuel a).isSome = true) ↔
      (∃ f, Relation.TransGen (Link next) a f ∧ (hit f).isSome = true) ∨
        ∃ e, Relation.ReflTransGen (Link next) a e ∧ next e = none := by
  constructor
  · rintro ⟨fuel, hfuel⟩
    induction fuel generalizing a with
    | zero => cases hfuel
    | succ fuel ih =>
      cases hnext : next a with
      | none => exact Or.inr ⟨a, .refl, hnext⟩
      | some b =>
        have hlink : Link next a b := hnext
        cases hv : hit b with
        | some v => exact Or.inl ⟨b, .single hlink, by rw [hv]; rfl⟩
        | none =>
          rw [chase_link hnext hv] at hfuel
          exact (ih hfuel).imp (fun ⟨f, hf, h⟩ => ⟨f, .head hlink hf, h⟩)
            (fun ⟨e, he, h⟩ => ⟨e, .head hlink he, h⟩)
  · rintro (⟨f, hlinks, hfound⟩ | ⟨e, hlinks, hend⟩)
    · exact chase_ends_of_hit hfound hlinks
    · exact chase_ends_of_end hend hlinks

/-- Links that go down in a rank, or to a place without a link, come to an end. -/
theorem ends_of_rank (rank : α → Nat)
    (h : ∀ a b, next a = some b → next b = none ∨ rank b < rank a) (a : α) :
    ∃ e, Relation.ReflTransGen (Link next) a e ∧ next e = none := by
  induction hr : rank a using Nat.strongRecOn generalizing a with
  | ind n ih =>
    cases hnext : next a with
    | none => exact ⟨a, .refl, hnext⟩
    | some b =>
      have hlink : Link next a b := hnext
      rcases h a b hnext with hend | hlt
      · exact ⟨b, .single hlink, hend⟩
      · obtain ⟨e, he, hend⟩ := ih (rank b) (hr ▸ hlt) b rfl
        exact ⟨e, .head hlink he, hend⟩

/-- Links that lead from every place of a set into the set have no end. -/
theorem no_end_of_closed {S : α → Prop} (h : ∀ a, S a → ∃ b, next a = some b ∧ S b) {a e : α}
    (ha : S a) (hlinks : Relation.ReflTransGen (Link next) a e) : next e ≠ none := by
  have hclosed : ∀ {b c}, S b → Link next b c → S c := by
    intro b c hb hlink
    obtain ⟨d, hd, hsd⟩ := h b hb
    obtain rfl : d = c := Option.some.inj (hd.symm.trans hlink)
    exact hsd
  have he : S e := by
    induction hlinks with
    | refl => exact ha
    | tail _ hlink ih => exact hclosed ih hlink
  obtain ⟨b, hb, -⟩ := h e he
  rw [hb]
  exact Option.some_ne_none b

/-- The walk depends only on the places it can reach. -/
theorem chase_congr {a : α} (h : ∀ b, Relation.TransGen (Link next) a b → hit b = hit' b)
    (fuel : Nat) : chase next hit fuel a = chase next hit' fuel a := by
  induction fuel generalizing a with
  | zero => rfl
  | succ fuel ih =>
    cases hnext : next a with
    | none => rw [chase_end hnext, chase_end hnext]
    | some b =>
      have hlink : Link next a b := hnext
      have hsame := h b (.single hlink)
      cases hv : hit b with
      | some v => rw [chase_hit hnext hv, chase_hit hnext (hsame ▸ hv)]
      | none =>
        rw [chase_link hnext hv, chase_link hnext (hsame ▸ hv)]
        exact ih fun c hc => h c (.head hlink hc)

end

end Zapdos.Lib
