/-
  Ordered unions of keyed lists.

  A list is extended by the elements of another one whose keys are new.  The keys that are there stand
  in a set beside the list; an element may be skipped, or checked before and after the set is asked.
  The loop also says whether it appended anything.

  THE LAWS THE CLIENTS USE.
    * `OrderedUnion`            — what such a union is, merged into a list or started afresh;
    * `unionInto_orderedUnion`  — the loop computes it, whatever the checks.
-/
import Zapdos.Lib.Merge

namespace Zapdos.Lib

variable {α κ ε : Type*} [DecidableEq κ]

section

variable (key : α → κ) (skip : α → Bool) (before after : α → Except ε Unit)

/-- The loop over the new elements, with the keys that are there and whether anything was added. -/
def unionLoop : List α → List κ → List α → Bool → Except ε (List α × Bool)
  | [], _, odata, change => .ok (odata, change)
  | var :: idata, kmap, odata, change =>
    match before var with
    | .error e => .error e
    | .ok () =>
      if skip var || decide (key var ∈ kmap) then unionLoop idata kmap odata change
      else
        match after var with
        | .error e => .error e
        | .ok () => unionLoop idata (key var :: kmap) (odata ++ [var]) true

/-- The union, merged into the old list or started afresh. -/
def unionInto (idata odata : List α) (merge : Bool) : Except ε (List α × Bool) :=
  if merge then unionLoop key skip before after idata (odata.map key) odata false
  else unionLoop key skip before after idata [] [] false

end

/-- `run` is the ordered union by `key` of lists whose `empty` elements do not count. -/
structure OrderedUnion (key : α → κ) (empty : α → Bool)
    (run : List α → List α → Bool → Except ε (List α × Bool)) : Prop where
  /-- merged: the old list, then the first new element of every new key -/
  merged : ∀ idata odata out change, run idata odata true = .ok (out, change) →
    out = odata ++ firsts key (odata.map key) (idata.filter fun a => !empty a)
  /-- a change is reported exactly when something was appended -/
  changed : ∀ idata odata out change, run idata odata true = .ok (out, change) →
    (change = true ↔ out ≠ odata)
  /-- the same elements once more change nothing -/
  again : ∀ idata odata out change, run idata odata true = .ok (out, change) →
    run idata out true = .ok (out, false)
  /-- afresh: the old list does not matter -/
  fresh : ∀ idata odata odata', run idata odata false = run idata odata' false
  /-- afresh: no key twice -/
  nodup : ∀ idata odata out change, run idata odata false = .ok (out, change) →
    (out.map key).Nodup

variable {key : α → κ} {skip : α → Bool} {before after : α → Except ε Unit}

/-- Every element has passed the first check when the loop does not fail. -/
theorem before_ok {idata : List α} {kmap : List κ} {odata out : List α} {change c : Bool}
    (h : unionLoop key skip before after idata kmap odata change = .ok (out, c)) :
    ∀ a ∈ idata, before a = .ok () := by
  induction idata generalizing kmap odata change with
  | nil => exact fun _ ha => absurd ha List.not_mem_nil
  | cons var idata ih =>
    rw [unionLoop] at h
    intro a ha
    split at h
    · cases h
    · rename_i hbefore
      rcases List.mem_cons.mp ha with rfl | ha
      · exact hbefore
      · split_ifs at h
        · exact ih h a ha
        · split at h
          · cases h
          · exact ih h a ha

/-- **What the loop appends**: the first element of every key that is not there. -/
theorem unionLoop_spec {idata : List α} {kmap : List κ} {odata out : List α} {change c : Bool}
    (h : unionLoop key skip before after idata kmap odata change = .ok (out, c)) :
    out = odata ++ firsts key kmap (idata.filter fun a => !skip a) ∧
      (c = true ↔ change = true ∨ firsts key kmap (idata.filter fun a => !skip a) ≠ []) := by
  induction idata generalizing kmap odata change with
  | nil =>
    cases h
    simp [firsts]
  | cons var idata ih =>
    rw [unionLoop] at h
    split at h
    · cases h
    · split_ifs at h with hold
      · rw [Bool.or_eq_true, decide_eq_true_eq] at hold
        by_cases hskip : skip var = true
        · rw [List.filter_cons_of_neg (by simp [hskip])]
          exact ih h
        · rw [List.filter_cons_of_pos (by simp [hskip]), firsts, if_pos (hold.resolve_left hskip)]
          exact ih h
      · rw [Bool.or_eq_true, decide_eq_true_eq, not_or] at hold
        obtain ⟨hskip, hnew⟩ := hold
        split at h
        · cases h
        · obtain ⟨hout, hc⟩ := ih h
          rw [List.filter_cons_of_pos (by simp [hskip]), firsts, if_neg hnew]
          constructor
          · rw [hout, List.append_assoc, List.singleton_append]
          · simp [hc]

/-- Nothing is appended when all keys are there. -/
theorem unionLoop_seen {idata : List α} {kmap : List κ} (odata : List α) (change : Bool)
    (hbefore : ∀ a ∈ idata, before a = .ok ())
    (hseen : ∀ a ∈ idata, skip a = false → key a ∈ kmap) :
    unionLoop key skip before after idata kmap odata change = .ok (odata, change) := by
  induction idata with
  | nil => rfl
  | cons var idata ih =>
    have hold : (skip var || decide (key var ∈ kmap)) = true := by
      rw [Bool.or_eq_true, decide_eq_true_eq]
      by_cases hskip : skip var = true
      · exact Or.inl hskip
      · exact Or.inr (hseen var List.mem_cons_self (by simpa using hskip))
    rw [unionLoop, hbefore var List.mem_cons_self]
    simp only [hold, if_true]
    exact ih (fun a ha => hbefore a (List.mem_cons_of_mem _ ha))
      (fun a ha => hseen a (List.mem_cons_of_mem _ ha))

/-- **The loop is an ordered union**, whatever its checks; an element that passes the first one is
    skipped when it is empty. -/
theorem unionInto_orderedUnion {empty : α → Bool}
    (hskip : ∀ a, before a = .ok () → skip a = empty a) :
    OrderedUnion key empty (unionInto key skip before after) := by
  have hfilter : ∀ {idata : List α} {kmap : List κ} {odata out : List α} {c : Bool},
      unionLoop key skip before after idata kmap odata false = .ok (out, c) →
        idata.filter (fun a => !skip a) = idata.filter (fun a => !empty a) := by
    intro idata kmap odata out c h
    refine List.filter_congr ?_
    intro a ha
    rw [hskip a (before_ok h a ha)]
  constructor
  · intro idata odata out change h
    obtain ⟨hout, -⟩ := unionLoop_spec h
    rw [hout, hfilter h]
  · intro idata odata out change h
    obtain ⟨hout, hc⟩ := unionLoop_spec h
    rw [hc, hout]
    simp
  · intro idata odata out change h
    obtain ⟨hout, -⟩ := unionLoop_spec h
    refine unionLoop_seen out false (before_ok h) ?_
    intro a ha ha'
    rw [hout, List.map_append, List.mem_append]
    -- an element that is not skipped was there or stands for its key among the appended ones
    by_cases hold : key a ∈ odata.map key
    · exact Or.inl hold
    · have hmem : a ∈ idata.filter fun a => !skip a := List.mem_filter.mpr ⟨ha, by simp [ha']⟩
      obtain ⟨b, hb, hba⟩ := exists_mem_firsts (f := key) hmem hold
      exact Or.inr (List.mem_map.mpr ⟨b, hb, hba⟩)
  · intro idata odata odata'
    rfl
  · intro idata odata out change h
    obtain ⟨hout, -⟩ := unionLoop_spec h
    rw [hout, List.nil_append]
    exact firsts_nodup _ _

end Zapdos.Lib
