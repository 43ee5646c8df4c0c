/-
  Several records in one transaction.

  `AddRecord` reads the database as it is, not the rows that the same transaction already holds, so
  the rows of a whole request are prepared against one database and written to it together.

  THE CRUX.  Each record on its own fits the database it was prepared against.  Records with
  different keys and ids do not get into each other's way (`Fits.write`), so they still fit after
  one another, and the batch does what the single writes do in any order.
-/
import Zapdos.Store.StoreTable

namespace Zapdos.Store

open Zapdos.Lib

/-- One record of a transaction, and whether it was stored before. -/
structure Change (T : Type) where
  found : Bool
  record : T

namespace StoreTable

variable {T : Type} {t : StoreTable T} {u : KeyTypeE}

/-- The rows of one record. -/
def rows (t : StoreTable T) (u : KeyTypeE) (c : Change T) : List TransItemT :=
  if c.found then t.updateRows c.record else t.insertRows u c.record

/-- The record can be written to `db`: it has the key and id of a stored one, or both are free. -/
def Fits (t : StoreTable T) (u : KeyTypeE) (db : DataDb) (c : Change T) : Prop :=
  if c.found then
    ∃ old, t.find db (t.getKey c.record u) = some old ∧ t.id c.record = t.id old
  else
    t.id c.record ≠ 0 ∧ db.get (encodePrimaryKey t.primaryKey (t.id c.record)) = none ∧
      db.get (t.getKey c.record u) = none

/-- The two records have different keys and ids. -/
def Apart (t : StoreTable T) (u : KeyTypeE) (c c' : Change T) : Prop :=
  t.getKey c.record u ≠ t.getKey c'.record u ∧ t.id c.record ≠ t.id c'.record

theorem encodePrimaryKey_inj {kt : KeyTypeE} {i j : Nat} :
    encodePrimaryKey kt i = encodePrimaryKey kt j ↔ i = j := by
  simp [encodePrimaryKey]

/-- The rows of a record are under its id and its name. -/
theorem mem_keys_rows {c : Change T} {k : Key} (hk : k ∈ (t.rows u c).map TransItemT.key) :
    k = encodePrimaryKey t.primaryKey (t.id c.record) ∨ k = t.getKey c.record u := by
  rw [rows] at hk
  split at hk
  · exact Or.inl (List.mem_singleton.mp hk)
  · rcases List.mem_cons.mp hk with hk | hk
    · exact Or.inr hk
    · exact Or.inl (List.mem_singleton.mp hk)

theorem rows_ne_nil (t : StoreTable T) (u : KeyTypeE) (c : Change T) : t.rows u c ≠ [] := by
  rw [rows]
  split
  · intro h
    cases h
  · intro h
    cases h

/-- The rows of a record touch its key and its id only. -/
theorem get_write_rows_other (db : DataDb) (c : Change T) {k : Key}
    (hid : k ≠ encodePrimaryKey t.primaryKey (t.id c.record)) (hkey : k ≠ t.getKey c.record u) :
    (db.write (dataBatch (t.rows u c))).get k = db.get k := by
  rw [rows]
  split
  · rw [get_write_updateRows, if_neg hid]
  · rw [get_write_insertRows, if_neg hid, if_neg hkey]

namespace SingleKey

variable (ht : t.SingleKey u)

include ht

/-! ## One record -/

/-- What the rows of a record make of the records. -/
theorem get_write_rows (db : DataDb) (c : Change T) (i : Nat) :
    (db.write (dataBatch (t.rows u c))).get (encodePrimaryKey t.primaryKey i) =
      if i = t.id c.record then some (t.serialize c.record)
      else db.get (encodePrimaryKey t.primaryKey i) := by
  have hne := Ne.symm (ht.ukey_ne_primary c.record t.primaryKey i)
  rw [rows]
  split
  · simp only [get_write_updateRows, encodePrimaryKey_inj]
  · simp only [get_write_insertRows, if_neg hne, encodePrimaryKey_inj]

variable {db : DataDb} (hok : TableOk t u db)

include hok

/-- Writing a record that fits keeps the table in order. -/
theorem tableOk_write {c : Change T} (hfit : Fits t u db c) :
    TableOk t u (db.write (dataBatch (t.rows u c))) := by
  rw [Fits] at hfit
  rw [rows]
  split at hfit
  · rename_i hfound
    obtain ⟨old, hold, hid⟩ := hfit
    rw [if_pos hfound]
    exact ht.tableOk_update hok hold hid
  · rename_i hfound
    obtain ⟨hpos, hfree, hname⟩ := hfit
    rw [if_neg hfound]
    exact ht.tableOk_insert hok hpos hfree hname

/-- What the table finds after writing a record that fits. -/
theorem find_write {c : Change T} (hfit : Fits t u db c) {k : Key} (hk : k.keytype = u) :
    t.find (db.write (dataBatch (t.rows u c))) k =
      if k = t.getKey c.record u then some c.record else t.find db k := by
  rw [Fits] at hfit
  rw [rows]
  split at hfit
  · rename_i hfound
    obtain ⟨old, hold, hid⟩ := hfit
    rw [if_pos hfound]
    exact ht.find_update hok hold hid hk
  · rename_i hfound
    obtain ⟨hpos, hfree, hname⟩ := hfit
    rw [if_neg hfound]
    exact ht.find_insert hok hpos hfree hname hk

/-- A record still fits after another one is written. -/
theorem fits_write {c c' : Change T} (hfit : Fits t u db c) (hfit' : Fits t u db c')
    (hap : Apart t u c c') : Fits t u (db.write (dataBatch (t.rows u c))) c' := by
  rw [Fits] at hfit' ⊢
  split at hfit'
  · rename_i hfound
    rw [if_pos hfound]
    obtain ⟨old, hold, hid⟩ := hfit'
    refine ⟨old, ?_, hid⟩
    rw [ht.find_write hok hfit (ht.keytype_ukey _), if_neg (Ne.symm hap.1)]
    exact hold
  · rename_i hfound
    rw [if_neg hfound]
    obtain ⟨hpos, hfree, hname⟩ := hfit'
    refine ⟨hpos, ?_, ?_⟩
    · rw [ht.get_write_rows, if_neg (Ne.symm hap.2)]
      exact hfree
    · rw [get_write_rows_other db c (ht.ukey_ne_primary _ _ _) (Ne.symm hap.1)]
      exact hname

/-! ## All records of a transaction -/

/-- Records that fit and are apart fit one after the other. -/
theorem tableOk_batch {cs : List (Change T)} (hfit : ∀ c ∈ cs, Fits t u db c)
    (hap : cs.Pairwise (Apart t u)) :
    TableOk t u (db.write (dataBatch (cs.flatMap (t.rows u)))) := by
  induction cs generalizing db with
  | nil => exact hok
  | cons c cs ih =>
    obtain ⟨hhead, htail⟩ := List.pairwise_cons.mp hap
    have hc := hfit c List.mem_cons_self
    rw [List.flatMap_cons, dataBatch, List.map_append, OrdMap.write_append]
    exact ih (ht.tableOk_write hok hc)
      (fun c' h' => ht.fits_write hok hc (hfit c' (List.mem_cons_of_mem _ h')) (hhead c' h')) htail

/-- A batch leaves what is found under a key that none of its records has. -/
theorem find_batch_other {cs : List (Change T)} (hfit : ∀ c ∈ cs, Fits t u db c)
    (hap : cs.Pairwise (Apart t u)) {key : Key} (hk : key.keytype = u)
    (hno : ∀ c ∈ cs, t.getKey c.record u ≠ key) :
    t.find (db.write (dataBatch (cs.flatMap (t.rows u)))) key = t.find db key := by
  induction cs generalizing db with
  | nil => rfl
  | cons c cs ih =>
    obtain ⟨hhead, htail⟩ := List.pairwise_cons.mp hap
    have hc := hfit c List.mem_cons_self
    rw [List.flatMap_cons, dataBatch, List.map_append, OrdMap.write_append]
    have hrest := ih (ht.tableOk_write hok hc)
      (fun c' h' => ht.fits_write hok hc (hfit c' (List.mem_cons_of_mem _ h')) (hhead c' h')) htail
      (fun c' h' => hno c' (List.mem_cons_of_mem _ h'))
    refine hrest.trans ?_
    rw [ht.find_write hok hc hk, if_neg (Ne.symm (hno c List.mem_cons_self))]

/-- A batch makes each of its records found under its key. -/
theorem find_batch {cs : List (Change T)} (hfit : ∀ c ∈ cs, Fits t u db c)
    (hap : cs.Pairwise (Apart t u)) {c : Change T} (hc : c ∈ cs) :
    t.find (db.write (dataBatch (cs.flatMap (t.rows u)))) (t.getKey c.record u) =
      some c.record := by
  induction cs generalizing db with
  | nil => cases hc
  | cons c₀ cs ih =>
    obtain ⟨hhead, htail⟩ := List.pairwise_cons.mp hap
    have hc₀ := hfit c₀ List.mem_cons_self
    have hok' := ht.tableOk_write hok hc₀
    have hfit' : ∀ c' ∈ cs, Fits t u (db.write (dataBatch (t.rows u c₀))) c' := by
      intro c' h'
      exact ht.fits_write hok hc₀ (hfit c' (List.mem_cons_of_mem _ h')) (hhead c' h')
    rw [List.flatMap_cons, dataBatch, List.map_append, OrdMap.write_append]
    rcases List.mem_cons.mp hc with rfl | hc
    · -- the other records have other keys
      have hrest := ht.find_batch_other hok' hfit' htail (ht.keytype_ukey c.record)
        (fun c' h' => Ne.symm (hhead c' h').1)
      refine hrest.trans ?_
      rw [ht.find_write hok hc₀ (ht.keytype_ukey c.record), if_pos rfl]
    · exact ih hok' hfit' htail hc

omit hok in
/-- A row of the records after a batch is that of a record of the batch or the row before. -/
theorem get_write_batch (db : DataDb) (cs : List (Change T)) (i : Nat) :
    (∃ c ∈ cs, t.id c.record = i ∧
      (db.write (dataBatch (cs.flatMap (t.rows u)))).get (encodePrimaryKey t.primaryKey i) =
        some (t.serialize c.record)) ∨
    ((∀ c ∈ cs, t.id c.record ≠ i) ∧
      (db.write (dataBatch (cs.flatMap (t.rows u)))).get (encodePrimaryKey t.primaryKey i) =
        db.get (encodePrimaryKey t.primaryKey i)) := by
  induction cs generalizing db with
  | nil => exact .inr ⟨nofun, rfl⟩
  | cons c cs ih =>
    rw [List.flatMap_cons, dataBatch, List.map_append, OrdMap.write_append]
    rcases ih (db.write (dataBatch (t.rows u c))) with ⟨c', hmem, hid, hget⟩ | ⟨hno, hget⟩
    · exact .inl ⟨c', List.mem_cons_of_mem _ hmem, hid, hget⟩
    · have hrow := hget.trans (ht.get_write_rows db c i)
      by_cases hi : i = t.id c.record
      · rw [if_pos hi] at hrow
        exact .inl ⟨c, List.mem_cons_self, hi.symm, hrow⟩
      · rw [if_neg hi] at hrow
        exact .inr ⟨List.forall_mem_cons.mpr ⟨Ne.symm hi, hno⟩, hrow⟩

omit hok in
/-- A batch touches rows of its own table only. -/
theorem get_write_batch_other (db : DataDb) (cs : List (Change T)) {k : Key} (hp : k.keytype ≠ t.primaryKey)
    (hu : k.keytype ≠ u) :
    (db.write (dataBatch (cs.flatMap (t.rows u)))).get k = db.get k := by
  induction cs generalizing db with
  | nil => rfl
  | cons c cs ih =>
    rw [List.flatMap_cons, dataBatch, List.map_append, OrdMap.write_append]
    refine (ih _).trans (get_write_rows_other db c ?_ ?_)
    · rintro rfl
      exact hp rfl
    · rintro rfl
      exact hu (ht.keytype_ukey _)

end SingleKey

end StoreTable

end Zapdos.Store
