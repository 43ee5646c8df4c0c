/-
  C strings — a text and its terminator at the start of a piece of memory.

  A change behind a known first part leaves that part alone, so a text is edited piece by piece.  A
  separator does for a text inside another one what the terminator does at the end.
-/
import Mathlib.Data.List.TakeWhile

namespace Zapdos.Lib.CString

variable {α : Type*} [Zero α] [DecidableEq α]

/-- The text up to the terminator. -/
def cstr (mem : List α) : List α := mem.takeWhile (· ≠ 0)

@[simp] theorem cstr_zero (t : List α) : cstr (0 :: t) = [] := by simp [cstr]

/-- A character other than the end belongs to the text. -/
theorem cstr_cons {c : α} (hc : c ≠ 0) (t : List α) : cstr (c :: t) = c :: cstr t := by
  simp [cstr, hc]

/-- A text without a terminator in it is read whole. -/
theorem cstr_append {u : List α} (hu : ∀ c ∈ u, c ≠ 0) (t : List α) :
    cstr (u ++ t) = u ++ cstr t := by
  induction u with
  | nil => rfl
  | cons c u ih =>
    rw [List.cons_append, cstr_cons (hu c List.mem_cons_self),
      ih fun b hb => hu b (List.mem_cons_of_mem _ hb), List.cons_append]

/-- **What is written up to the end is read back.** -/
theorem cstr_text {u : List α} (hu : ∀ c ∈ u, c ≠ 0) (t : List α) : cstr (u ++ 0 :: t) = u := by
  rw [cstr_append hu, cstr_zero, List.append_nil]

omit [Zero α] [DecidableEq α] in
/-- A write behind the first part. -/
theorem set_behind (u t : List α) (i : ℕ) (c : α) :
    (u ++ t).set (u.length + i) c = u ++ t.set i c := by
  rw [List.set_append_right _ _ (by omega), Nat.add_sub_cancel_left]

omit [Zero α] [DecidableEq α] in
/-- **A text without the separator** ends at the first one. -/
theorem append_sep_inj {sep : α} {s s' t t' : List α} (hs : sep ∉ s) (hs' : sep ∉ s')
    (h : s ++ sep :: t = s' ++ sep :: t') : s = s' ∧ t = t' := by
  induction s generalizing s' with
  | nil =>
    cases s' with
    | nil => exact ⟨rfl, (List.cons.inj h).2⟩
    | cons c s' =>
      obtain ⟨rfl, -⟩ := List.cons.inj h
      exact absurd List.mem_cons_self hs'
  | cons c s ih =>
    cases s' with
    | nil =>
      obtain ⟨rfl, -⟩ := List.cons.inj h
      exact absurd List.mem_cons_self hs
    | cons c' s' =>
      obtain ⟨rfl, htail⟩ := List.cons.inj h
      obtain ⟨rfl, rfl⟩ := ih (fun hm => hs (List.mem_cons_of_mem _ hm))
        (fun hm => hs' (List.mem_cons_of_mem _ hm)) htail
      exact ⟨rfl, rfl⟩

end Zapdos.Lib.CString
