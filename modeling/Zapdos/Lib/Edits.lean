/-
  Edits — a list with one letter less, and with one more.

  The lists that one deletion leads to are the sublists that are shorter by one, and an insertion goes
  back; so what some deletions and then some insertions lead to is told by a common sublist.

  THE LAWS THE CLIENTS USE.
    * `mem_erasures`, `mem_insertions` — one edit as a sublist;
    * `Sublist.exists_between`         — sublists are reached letter by letter;
    * `OneEdit`                        — one letter deleted, inserted, replaced, or two exchanged.
-/
import Mathlib.Data.List.Basic

namespace Zapdos.Lib

variable {α : Type*} {A u w v : List α}

/-- The list without one of its letters, at each position. -/
def erasures (w : List α) : List (List α) := (List.range w.length).map (fun i => w.take i ++ w.drop (i + 1))

/-- The list with one letter of `A` more, at each position. -/
def insertions (A u : List α) : List (List α) :=
  (List.range (u.length + 1)).flatMap (fun i => A.map (fun a => u.take i ++ a :: u.drop i))

/-- A word that lacks one character lacks it at some place. -/
theorem exists_erase (h : u.Sublist w) (hlen : w.length = u.length + 1) :
    ∃ i < w.length, u = w.take i ++ w.drop (i + 1) := by
  induction h with
  | slnil => cases hlen
  | @cons u w a h _ =>
    have heq : u = w := h.eq_of_length (by rw [List.length_cons] at hlen; omega)
    exact ⟨0, Nat.succ_pos _, heq⟩
  | @cons_cons u w a h ih =>
    obtain ⟨i, hi, heq⟩ := ih (by rw [List.length_cons, List.length_cons] at hlen; omega)
    refine ⟨i + 1, Nat.succ_lt_succ hi, ?_⟩
    rw [List.take_succ_cons, List.drop_succ_cons, List.cons_append, ← heq]

/-- **The erasures** are the words that lack one character. -/
theorem mem_erasures : u ∈ erasures w ↔ u.Sublist w ∧ w.length = u.length + 1 := by
  rw [erasures, List.mem_map]
  constructor
  · rintro ⟨i, hi, rfl⟩
    rw [List.mem_range] at hi
    refine ⟨List.eraseIdx_eq_take_drop_succ w i ▸ List.eraseIdx_sublist w i, ?_⟩
    rw [List.length_append, List.length_take, List.length_drop]
    omega
  · rintro ⟨h, hlen⟩
    obtain ⟨i, hi, heq⟩ := exists_erase h hlen
    exact ⟨i, List.mem_range.mpr hi, heq.symm⟩

/-- An insertion has one character more. -/
theorem sublist_of_mem_insertions (h : v ∈ insertions A u) : u.Sublist v ∧ v.length = u.length + 1 := by
  obtain ⟨i, -, hmem⟩ := List.mem_flatMap.mp h
  obtain ⟨a, -, rfl⟩ := List.mem_map.mp hmem
  constructor
  · conv_lhs => rw [← List.take_append_drop i u]
    exact List.Sublist.append_left (List.sublist_cons_self _ _) _
  · rw [List.length_append, List.length_cons, ← Nat.add_assoc, ← List.length_append, List.take_append_drop]

/-- Insertions undo deletions, as far as there are letters. -/
theorem mem_insertions (hc : ∀ a ∈ v, a ∈ A) : v ∈ insertions A u ↔ u.Sublist v ∧ v.length = u.length + 1 := by
  refine ⟨sublist_of_mem_insertions, fun ⟨h, hlen⟩ => ?_⟩
  obtain ⟨i, hi, heq⟩ := exists_erase h hlen
  have hget : v.drop i = v[i] :: v.drop (i + 1) := List.drop_eq_getElem_cons hi
  have htake : (v.take i).length = i := by rw [List.length_take]; omega
  rw [insertions, List.mem_flatMap]
  refine ⟨i, List.mem_range.mpr (by omega), List.mem_map.mpr ⟨v[i], hc _ (List.getElem_mem hi), ?_⟩⟩
  rw [heq, List.take_left' htake, List.drop_left' htake, ← hget, List.take_append_drop]

/-- A shorter sublist has a sublist with one letter more between. -/
theorem Sublist.exists_between (h : u.Sublist v) (hlen : u.length < v.length) :
    ∃ s : List α, u.Sublist s ∧ s.Sublist v ∧ s.length = u.length + 1 := by
  induction h with
  | slnil => cases hlen
  | @cons u v a h ih =>
    exact ⟨a :: u, List.sublist_cons_self a u, h.cons_cons a, rfl⟩
  | @cons_cons u v a h ih =>
    obtain ⟨s, hus, hsc, hs⟩ := ih (Nat.lt_of_succ_lt_succ hlen)
    exact ⟨a :: s, hus.cons_cons a, hsc.cons_cons a, congrArg Nat.succ hs⟩

/-- One letter is deleted, inserted or replaced, or two neighbours change places. -/
inductive OneEdit : List α → List α → Prop
  | delete (p s : List α) (a : α) : OneEdit (p ++ a :: s) (p ++ s)
  | insert (p s : List α) (a : α) : OneEdit (p ++ s) (p ++ a :: s)
  | replace (p s : List α) (a b : α) : OneEdit (p ++ a :: s) (p ++ b :: s)
  | transpose (p s : List α) (a b : α) : OneEdit (p ++ a :: b :: s) (p ++ b :: a :: s)

/-- A word around one of its characters. -/
theorem eq_take_cons_drop {i : ℕ} (hi : i < w.length) : w = w.take i ++ w[i] :: w.drop (i + 1) := by
  rw [← List.drop_eq_getElem_cons hi, List.take_append_drop]

/-- A word around two neighbours. -/
theorem exists_two {i : ℕ} (hi : i + 1 < w.length) :
    ∃ p s a b, w = p ++ a :: b :: s ∧ p.length = i := by
  refine ⟨w.take i, w.drop (i + 2), w[i], w[i + 1], ?_, ?_⟩
  · rw [← List.drop_eq_getElem_cons hi]
    exact eq_take_cons_drop (Nat.lt_of_succ_lt hi)
  · rw [List.length_take]
    omega

end Zapdos.Lib
