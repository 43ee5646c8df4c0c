/-
  Ordered maps with batched writes — the data structure behind a sorted key-value store.

  A store keeps its rows sorted by key, answers point lookups, hands out an iterator positioned by
  `Seek`, and applies a batch of puts and deletes in one write.  `OrdMap K V` is that structure over
  an arbitrary linearly ordered key type: the sortedness of the rows is a field, so an unsorted map
  cannot be built.

  THE LAWS THE CLIENTS USE.
    * `get_put`, `get_delete`, `ext`                — a map IS its lookup function;
    * `get_write`                                   — a batch changes exactly the keys it names, and
                                                      on each of them the last operation wins;
    * `write_comm`                                  — batches on disjoint keys commute;
    * `seek_eq_filter`, `rows_eq_of_mem_iff`        — what an iterator reads, as a set of rows.
-/
import Mathlib.Order.Lattice
import Mathlib.Data.List.Basic
import Mathlib.Data.List.Pairwise
import Mathlib.Data.List.Nodup
import Mathlib.Tactic.SplitIfs

namespace Zapdos.Lib

/-- A finite map as the list of its rows, strictly sorted by key. -/
structure OrdMap (K V : Type*) [LinearOrder K] where
  /-- the rows, in key order -/
  rows : List (K × V)
  /-- every key is strictly below the ones after it -/
  sorted : rows.Pairwise (fun a b => a.1 < b.1)

namespace OrdMap

variable {K V : Type*} [LinearOrder K]

instance [DecidableEq V] : DecidableEq (OrdMap K V) := fun a b =>
  decidable_of_iff (a.rows = b.rows) (by cases a; cases b; simp)

/-! ## Rows as plain lists -/

/-- Put one row at its place, replacing a row with the same key. -/
def insertRow (k : K) (v : V) : List (K × V) → List (K × V)
  | [] => [(k, v)]
  | r :: rs =>
    if k < r.1 then (k, v) :: r :: rs
    else if k = r.1 then (k, v) :: rs
    else r :: insertRow k v rs

/-- The value of a key, looked up row by row. -/
def lookupRow (k : K) : List (K × V) → Option V
  | [] => none
  | r :: rs => if k = r.1 then some r.2 else lookupRow k rs

theorem mem_insertRow {k : K} {v : V} {a : K × V} {l : List (K × V)}
    (h : a ∈ insertRow k v l) : a = (k, v) ∨ a ∈ l := by
  induction l with
  | nil => simpa [insertRow] using h
  | cons r rs ih =>
    rw [insertRow] at h
    split_ifs at h with hlt heq
    · simpa using h
    · rcases List.mem_cons.mp h with h | h
      · exact Or.inl h
      · exact Or.inr (List.mem_cons_of_mem _ h)
    · rcases List.mem_cons.mp h with h | h
      · exact Or.inr (h ▸ List.mem_cons_self)
      · exact (ih h).imp id (List.mem_cons_of_mem _)

/-- A row below the last rows goes before them. -/
theorem insertRow_append {k : K} {v : V} {pre rows : List (K × V)} (h : ∀ r ∈ rows, k < r.1) :
    insertRow k v (pre ++ rows) = insertRow k v pre ++ rows := by
  induction pre with
  | nil =>
    cases rows with
    | nil => rfl
    | cons r rs =>
      have hlt : k < r.1 := h r List.mem_cons_self
      simp only [List.nil_append, insertRow, if_pos hlt, List.singleton_append]
  | cons r pre ih =>
    rw [List.cons_append, insertRow, insertRow, ih]
    split_ifs <;> rfl

/-- A row with a new key is added to the rows. -/
theorem insertRow_perm {k : K} {v : V} {l : List (K × V)} (h : ∀ r ∈ l, r.1 ≠ k) :
    (insertRow k v l).Perm ((k, v) :: l) := by
  induction l with
  | nil => rfl
  | cons r rs ih =>
    rw [insertRow]
    split_ifs with hlt heq
    · rfl
    · exact absurd heq.symm (h r List.mem_cons_self)
    · exact ((ih fun s hs => h s (List.mem_cons_of_mem _ hs)).cons r).trans
        (List.Perm.swap (k, v) r rs)

theorem insertRow_sorted (k : K) (v : V) {l : List (K × V)}
    (h : l.Pairwise (fun a b => a.1 < b.1)) :
    (insertRow k v l).Pairwise (fun a b => a.1 < b.1) := by
  induction l with
  | nil => simp [insertRow]
  | cons r rs ih =>
    have hr : ∀ b ∈ rs, r.1 < b.1 := fun b hb => List.rel_of_pairwise_cons h hb
    rw [insertRow]
    split_ifs with hlt heq
    · refine List.Pairwise.cons ?_ h
      intro b hb
      rcases List.mem_cons.mp hb with rfl | hb
      · exact hlt
      · exact lt_trans hlt (hr b hb)
    · exact List.Pairwise.cons (fun b hb => heq ▸ hr b hb) h.of_cons
    · refine List.Pairwise.cons ?_ (ih h.of_cons)
      intro b hb
      rcases mem_insertRow hb with rfl | hb
      · exact lt_of_le_of_ne (not_lt.mp hlt) (Ne.symm heq)
      · exact hr b hb

theorem lookupRow_insertRow (k k' : K) (v : V) (l : List (K × V)) :
    lookupRow k' (insertRow k v l) = if k' = k then some v else lookupRow k' l := by
  induction l with
  | nil => simp [insertRow, lookupRow]
  | cons r rs ih =>
    rw [insertRow]
    by_cases hlt : k < r.1
    · rw [if_pos hlt, lookupRow]
    by_cases heq : k = r.1
    · rw [if_neg hlt, if_pos heq, lookupRow, lookupRow]
      by_cases hk : k' = k
      · rw [if_pos hk, if_pos hk]
      · rw [if_neg hk, if_neg hk, if_neg (fun e => hk (e.trans heq.symm))]
    · rw [if_neg hlt, if_neg heq, lookupRow, lookupRow, ih]
      by_cases hk : k' = r.1
      · rw [if_pos hk, if_neg (fun e => heq (e.symm.trans hk)), if_pos hk]
      · rw [if_neg hk, if_neg hk]

theorem lookupRow_filter_ne (k k' : K) (l : List (K × V)) :
    lookupRow k' (l.filter (fun r => r.1 ≠ k)) = if k' = k then none else lookupRow k' l := by
  induction l with
  | nil => simp [lookupRow]
  | cons r rs ih =>
    by_cases hr : r.1 = k
    · rw [List.filter_cons_of_neg (by simpa using hr), ih]
      by_cases hk : k' = k
      · simp [hk]
      · have hne : k' ≠ r.1 := fun e => hk (e.trans hr)
        simp [hk, lookupRow, hne]
    · rw [List.filter_cons_of_pos (by simpa using hr), lookupRow, ih, lookupRow]
      by_cases hk : k' = k
      · have hne : k' ≠ r.1 := fun e => hr (e.symm.trans hk)
        simp [hk, Ne.symm hr]
      · simp [hk]

/-- In sorted rows, a row is found under its own key. -/
theorem lookupRow_eq_some_iff {l : List (K × V)} (h : l.Pairwise (fun a b => a.1 < b.1))
    {k : K} {v : V} : lookupRow k l = some v ↔ (k, v) ∈ l := by
  induction l with
  | nil => simp [lookupRow]
  | cons r rs ih =>
    rw [lookupRow]
    by_cases hk : k = r.1
    · have hnot : (k, v) ∉ rs := fun hm => by
        have := List.rel_of_pairwise_cons h hm
        exact absurd hk.symm (ne_of_lt this)
      rw [if_pos hk, List.mem_cons]
      constructor
      · intro e
        exact Or.inl (Prod.ext hk (Option.some.inj e).symm)
      · rintro (e | hm)
        · rw [← e]
        · exact absurd hm hnot
    · rw [if_neg hk, ih h.of_cons, List.mem_cons]
      constructor
      · exact Or.inr
      · rintro (e | hm)
        · exact absurd (congrArg Prod.fst e) hk
        · exact hm

/-! ## The map operations -/

/-- The map with no row. -/
def empty : OrdMap K V := ⟨[], List.Pairwise.nil⟩

/-- Point lookup. -/
def get (m : OrdMap K V) (k : K) : Option V := lookupRow k m.rows

/-- Insert or overwrite one key. -/
def put (m : OrdMap K V) (k : K) (v : V) : OrdMap K V :=
  ⟨insertRow k v m.rows, insertRow_sorted k v m.sorted⟩

/-- Remove one key. -/
def delete (m : OrdMap K V) (k : K) : OrdMap K V :=
  ⟨m.rows.filter (fun r => r.1 ≠ k), m.sorted.filter _⟩

/-- The iterator at `Seek k`: the rows from the first key not below `k` on. -/
def seek (m : OrdMap K V) (k : K) : List (K × V) := m.rows.dropWhile (fun r => r.1 < k)

/-- The iterator at `Seek k` moved one row back. -/
def seekPrev (m : OrdMap K V) (k : K) : Option (K × V) :=
  (m.rows.takeWhile (fun r => r.1 < k)).getLast?

@[simp] theorem get_empty (k : K) : (empty : OrdMap K V).get k = none := rfl

theorem get_put (m : OrdMap K V) (k k' : K) (v : V) :
    (m.put k v).get k' = if k' = k then some v else m.get k' :=
  lookupRow_insertRow k k' v m.rows

@[simp] theorem get_put_self (m : OrdMap K V) (k : K) (v : V) : (m.put k v).get k = some v := by
  rw [get_put, if_pos rfl]

theorem get_put_ne (m : OrdMap K V) {k k' : K} (h : k' ≠ k) (v : V) :
    (m.put k v).get k' = m.get k' := by
  rw [get_put, if_neg h]

theorem get_delete (m : OrdMap K V) (k k' : K) :
    (m.delete k).get k' = if k' = k then none else m.get k' :=
  lookupRow_filter_ne k k' m.rows

theorem get_eq_some_iff (m : OrdMap K V) {k : K} {v : V} :
    m.get k = some v ↔ (k, v) ∈ m.rows :=
  lookupRow_eq_some_iff m.sorted

/-- Two sorted row lists with the same rows are equal. -/
theorem rows_eq_of_mem_iff {l l' : List (K × V)} (h : l.Pairwise (fun a b => a.1 < b.1))
    (h' : l'.Pairwise (fun a b => a.1 < b.1)) (hm : ∀ r, r ∈ l ↔ r ∈ l') : l = l' := by
  have hnd : ∀ {m : List (K × V)}, m.Pairwise (fun a b => a.1 < b.1) → m.Nodup := fun hp =>
    hp.imp (fun hab e => absurd (congrArg Prod.fst e) (ne_of_lt hab))
  have hperm : l.Perm l' := (List.perm_ext_iff_of_nodup (hnd h) (hnd h')).mpr hm
  refine hperm.eq_of_pairwise ?_ h h'
  intro a b _ _ hab hba
  exact absurd hab (not_lt.mpr hba.le)

/-- **Extensionality.**  A map is determined by its lookups. -/
theorem ext {m m' : OrdMap K V} (h : ∀ k, m.get k = m'.get k) : m = m' := by
  have hrows : m.rows = m'.rows := by
    refine rows_eq_of_mem_iff m.sorted m'.sorted ?_
    rintro ⟨k, v⟩
    rw [← get_eq_some_iff, ← get_eq_some_iff, h k]
  cases m
  cases m'
  simpa using hrows

/-! ## Iteration -/

/-- What the iterator reads after `Seek k`: the rows whose key is not below `k`. -/
theorem seek_eq_filter (m : OrdMap K V) (k : K) :
    m.seek k = m.rows.filter (fun r => k ≤ r.1) := by
  obtain ⟨rows, hs⟩ := m
  show rows.dropWhile _ = _
  induction rows with
  | nil => rfl
  | cons r rs ih =>
    by_cases hr : r.1 < k
    · rw [List.dropWhile_cons_of_pos (by simpa using hr), ih hs.of_cons,
        List.filter_cons_of_neg (by simpa using hr)]
    · have hall : ∀ b ∈ rs, k ≤ b.1 := fun b hb =>
        (not_lt.mp hr).trans (List.rel_of_pairwise_cons hs hb).le
      rw [List.dropWhile_cons_of_neg (by simpa using hr),
        List.filter_cons_of_pos (by simpa using hr),
        List.filter_eq_self.mpr (fun b hb => by simpa using hall b hb)]

theorem mem_seek (m : OrdMap K V) {k k' : K} {v : V} :
    (k', v) ∈ m.seek k ↔ k ≤ k' ∧ m.get k' = some v := by
  rw [seek_eq_filter, List.mem_filter, ← get_eq_some_iff]
  simp [and_comm]

theorem seek_sorted (m : OrdMap K V) (k : K) : (m.seek k).Pairwise (fun a b => a.1 < b.1) := by
  rw [seek_eq_filter]
  exact m.sorted.filter _

/-- Stopping at the first row outside an up-closed-below set reads exactly the rows inside it. -/
theorem takeWhile_eq_filter {l : List (K × V)} (h : l.Pairwise (fun a b => a.1 < b.1))
    (p : K → Bool) (hp : ∀ a ∈ l, ∀ b ∈ l, a.1 < b.1 → p b.1 = true → p a.1 = true) :
    l.takeWhile (fun r => p r.1) = l.filter (fun r => p r.1) := by
  induction l with
  | nil => rfl
  | cons r rs ih =>
    have ih' := ih h.of_cons (fun a ha b hb => hp a (List.mem_cons_of_mem _ ha) b
      (List.mem_cons_of_mem _ hb))
    by_cases hr : p r.1 = true
    · rw [List.takeWhile_cons_of_pos (by exact hr), List.filter_cons_of_pos (by exact hr), ih']
    · rw [List.takeWhile_cons_of_neg (by exact hr), List.filter_cons_of_neg (by exact hr)]
      refine (List.filter_eq_nil_iff.mpr ?_).symm
      intro b hb hpb
      exact hr (hp r List.mem_cons_self b (List.mem_cons_of_mem _ hb)
        (List.rel_of_pairwise_cons h hb) hpb)

/-- The row before `Seek k` is the one with the greatest key below `k`. -/
theorem seekPrev_eq_some {m : OrdMap K V} {k : K} {r : K × V} (h : m.seekPrev k = some r) :
    m.get r.1 = some r.2 ∧ r.1 < k ∧ ∀ k' v, m.get k' = some v → k' < k → k' ≤ r.1 := by
  have heq : m.rows.takeWhile (fun r => decide (r.1 < k)) =
      m.rows.filter (fun r => decide (r.1 < k)) :=
    takeWhile_eq_filter m.sorted (fun x => decide (x < k)) (fun a _ b _ hab hb => by
      simpa using lt_trans hab (by simpa using hb))
  have hlast : (m.rows.filter (fun r => decide (r.1 < k))).getLast? = some r := by
    rw [← heq]
    exact h
  obtain ⟨init, hinit⟩ := List.getLast?_eq_some_iff.mp hlast
  have hmem : r ∈ m.rows.filter (fun r => decide (r.1 < k)) := by
    rw [hinit]
    simp
  refine ⟨m.get_eq_some_iff.mpr (List.mem_filter.mp hmem).1,
    by simpa using (List.mem_filter.mp hmem).2, ?_⟩
  intro k' v hk' hlt
  have hm : (k', v) ∈ m.rows.filter (fun r => decide (r.1 < k)) :=
    List.mem_filter.mpr ⟨m.get_eq_some_iff.mp hk', by simpa using hlt⟩
  have hsorted : (init ++ [r]).Pairwise (fun a b => a.1 < b.1) := hinit ▸ m.sorted.filter _
  rw [hinit, List.mem_append, List.mem_singleton] at hm
  rcases hm with hm | hm
  · exact ((List.pairwise_append.mp hsorted).2.2 _ hm r List.mem_cons_self).le
  · rw [← hm]

/-- With some key below `k`, the iterator can step back from `Seek k`. -/
theorem seekPrev_isSome {m : OrdMap K V} {k k' : K} {v : V} (h : m.get k' = some v)
    (hlt : k' < k) : ∃ r, m.seekPrev k = some r := by
  have hne : m.rows.takeWhile (fun r => decide (r.1 < k)) ≠ [] := by
    rw [takeWhile_eq_filter m.sorted (fun x => decide (x < k)) (fun a _ b _ hab hb => by
      simpa using lt_trans hab (by simpa using hb))]
    intro he
    have := List.filter_eq_nil_iff.mp he _ (m.get_eq_some_iff.mp h)
    exact this (by simpa using hlt)
  exact ⟨_, List.getLast?_eq_some_getLast hne⟩

/-! ## Write batches -/

/-- One operation of a write batch. -/
inductive BatchOp (K V : Type*)
  | put (key : K) (value : V)
  | delete (key : K)
  deriving DecidableEq, Repr

/-- The key an operation touches. -/
def BatchOp.key : BatchOp K V → K
  | .put k _ => k
  | .delete k => k

/-- What an operation leaves under its key. -/
def BatchOp.result : BatchOp K V → Option V
  | .put _ v => some v
  | .delete _ => none

/-- Apply one operation. -/
def apply (m : OrdMap K V) : BatchOp K V → OrdMap K V
  | .put k v => m.put k v
  | .delete k => m.delete k

/-- Apply a whole batch, in its order. -/
def write (m : OrdMap K V) (ops : List (BatchOp K V)) : OrdMap K V := ops.foldl apply m

/-- What a batch leaves under `k`: `none` if it does not touch `k`, else the result of the last
    operation on `k`. -/
def effect : List (BatchOp K V) → K → Option (Option V)
  | [], _ => none
  | op :: ops, k =>
    match effect ops k with
    | some r => some r
    | none => if k = op.key then some op.result else none

theorem get_apply (m : OrdMap K V) (op : BatchOp K V) (k : K) :
    (m.apply op).get k = if k = op.key then op.result else m.get k := by
  cases op with
  | put k' v => exact get_put m k' k v
  | delete k' => exact get_delete m k' k

@[simp] theorem write_nil (m : OrdMap K V) : m.write [] = m := rfl

@[simp] theorem write_cons (m : OrdMap K V) (op : BatchOp K V) (ops : List (BatchOp K V)) :
    m.write (op :: ops) = (m.apply op).write ops := rfl

theorem write_append (m : OrdMap K V) (a b : List (BatchOp K V)) :
    m.write (a ++ b) = (m.write a).write b := List.foldl_append

/-- **A batch is its effect.** -/
theorem get_write (m : OrdMap K V) (ops : List (BatchOp K V)) (k : K) :
    (m.write ops).get k = (effect ops k).getD (m.get k) := by
  induction ops generalizing m with
  | nil => rfl
  | cons op ops ih =>
    rw [write_cons, ih, get_apply, effect]
    cases effect ops k with
    | some r => rfl
    | none => split_ifs <;> rfl

theorem effect_eq_none_iff (ops : List (BatchOp K V)) (k : K) :
    effect ops k = none ↔ ∀ op ∈ ops, op.key ≠ k := by
  induction ops with
  | nil => simp [effect]
  | cons op ops ih =>
    rw [effect, List.forall_mem_cons]
    cases he : effect ops k with
    | some r =>
      have hn : ¬ ∀ op ∈ ops, op.key ≠ k := fun h => by simp [ih.mpr h] at he
      simp [hn]
    | none =>
      have ha : ∀ op ∈ ops, op.key ≠ k := ih.mp he
      by_cases hk : k = op.key
      · simp [hk]
      · simpa [hk, Ne.symm hk] using ha

theorem get_write_of_not_mem (m : OrdMap K V) {ops : List (BatchOp K V)} {k : K}
    (h : ∀ op ∈ ops, op.key ≠ k) : (m.write ops).get k = m.get k := by
  rw [get_write, (effect_eq_none_iff ops k).mpr h]
  rfl

/-- A row that is there after a batch was there before, or the batch puts it. -/
theorem get_write_some {m : OrdMap K V} {ops : List (BatchOp K V)} {k : K} {v : V}
    (h : (m.write ops).get k = some v) : m.get k = some v ∨ .put k v ∈ ops := by
  induction ops generalizing m with
  | nil => exact Or.inl h
  | cons op ops ih =>
    rw [write_cons] at h
    rcases ih h with hrow | hmem
    · rw [get_apply] at hrow
      split at hrow
      · rename_i hk
        cases op with
        | put k' v' =>
          have hv : v' = v := Option.some.inj hrow
          have hkey : k = k' := hk
          subst hv hkey
          exact Or.inr List.mem_cons_self
        | delete k' => cases hrow
      · exact Or.inl hrow
    · exact Or.inr (List.mem_cons_of_mem _ hmem)

/-- Two batches that touch no common key commute. -/
theorem write_comm (m : OrdMap K V) {a b : List (BatchOp K V)}
    (h : ∀ x ∈ a, ∀ y ∈ b, x.key ≠ y.key) : (m.write a).write b = (m.write b).write a := by
  refine ext fun k => ?_
  simp only [get_write]
  by_cases ha : ∀ op ∈ a, op.key ≠ k
  · rw [(effect_eq_none_iff a k).mpr ha]
    rfl
  · have hb : effect b k = none := by
      rw [effect_eq_none_iff]
      intro y hy hyk
      refine ha fun x hx hxk => h x hx y hy (hxk.trans hyk.symm)
    rw [hb]
    rfl

end OrdMap

end Zapdos.Lib
