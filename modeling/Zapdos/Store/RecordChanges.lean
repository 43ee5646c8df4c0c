/-
  Changes of records of any kind — what one of them leaves of the others.

  A request collects the changes it is going to write, each made for the records as they were when it
  was added.  Other requests write in between, so what matters of a change is what survives their
  writes: that it still fits (`fits_write`).

  THE CRUX.  Two changes that fit the same records either have different names and ids, or they have
  the same name and are both updates of the one stored record (`apart_of_fits`).  Either way, each of
  them still fits once the other is written.
-/
import Zapdos.Store.RecordKinds

namespace Zapdos.Store

open Zapdos.Lib

/-- A change of a record of some kind. -/
structure RecChange where
  kind : RecKind
  change : Change kind.Rec

namespace RecChange

/-- The rows `AddRecord` adds. -/
def rows (c : RecChange) : List TransItemT :=
  c.kind.service.table.rows c.kind.service.ukey c.change

/-- The key of the index row. -/
def name (c : RecChange) : Key := c.kind.service.key c.change.record

def id (c : RecChange) : Nat := c.kind.service.table.id c.change.record

/-- The key of the record's own row. -/
def row (c : RecChange) : Key := encodePrimaryKey c.kind.pkey c.id

/-- The key the name is reserved under. -/
def lock (c : RecChange) : Key := c.kind.service.lock c.change.record

/-- The record was stored before. -/
def found (c : RecChange) : Bool := c.change.found

/-- The change can be written to `db`. -/
def Fits (c : RecChange) (db : DataDb) : Prop :=
  StoreTable.Fits c.kind.service.table c.kind.service.ukey db c.change

/-- The two changes have no row in common. -/
def Apart (c c' : RecChange) : Prop := c.name ≠ c'.name ∧ c.row ≠ c'.row

theorem single (c : RecChange) : c.kind.service.table.SingleKey c.kind.service.ukey :=
  c.kind.service_lawful.single

theorem keytype_name (c : RecChange) : c.name.keytype = c.kind.ukey :=
  c.single.keytype_ukey c.change.record

theorem name_ne_row (c c' : RecChange) : c.name ≠ c'.row :=
  c.single.ukey_ne_primary c.change.record c'.kind.pkey c'.id

/-- Changes with one name are changes of one kind. -/
theorem kind_of_name {c c' : RecChange} (h : c.name = c'.name) : c.kind = c'.kind := by
  have ht := congrArg Key.keytype h
  rw [keytype_name, keytype_name] at ht
  exact RecKind.ukey_inj ht

/-- One name, one reservation. -/
theorem lock_of_name {c c' : RecChange} (h : c.name = c'.name) : c.lock = c'.lock := by
  have hkind := kind_of_name h
  obtain ⟨k, c⟩ := c
  obtain ⟨k', c'⟩ := c'
  have hk : k = k' := hkind
  subst hk
  exact k.service_lawful.lock_eq_iff.mpr h

theorem key_of_mem_rows {c : RecChange} {i : TransItemT} (h : i ∈ c.rows) :
    i.key = c.row ∨ i.key = c.name := by
  unfold rows StoreTable.rows at h
  split at h
  · rw [List.mem_singleton.mp h]
    exact Or.inl rfl
  · rcases List.mem_cons.mp h with rfl | h
    · exact Or.inr rfl
    · rw [List.mem_singleton.mp h]
      exact Or.inl rfl

/-- Changes that are apart put and delete different rows. -/
theorem key_ne_of_apart {c c' : RecChange} (h : Apart c c') {i j : TransItemT} (hi : i ∈ c.rows)
    (hj : j ∈ c'.rows) : i.key ≠ j.key := by
  rcases key_of_mem_rows hi with hi | hi <;> rcases key_of_mem_rows hj with hj | hj <;> rw [hi, hj]
  · exact h.2
  · exact Ne.symm (name_ne_row c' c)
  · exact name_ne_row c c'
  · exact h.1

/-- The two changes do not both bring the same new name or the same new id. -/
def Compatible (c c' : RecChange) : Prop :=
  c.found = false → c'.found = false → c.name ≠ c'.name ∧ c.id ≠ c'.id

theorem Apart.compatible {c c' : RecChange} (h : Apart c c') (hkind : c.kind = c'.kind) :
    Compatible c c' := by
  intro _ _
  refine ⟨h.1, fun hid => h.2 ?_⟩
  unfold row
  rw [hkind, hid]

/-- **Two changes that fit the same records** under different names are apart. -/
theorem apart_of_fits {db : DataDb} (hok : StoreOk db) {c c' : RecChange} (h : c.Fits db)
    (h' : c'.Fits db) (hc : Compatible c c') (hname : c.name ≠ c'.name) : Apart c c' := by
  refine ⟨hname, fun hrow => ?_⟩
  have hkind : c.kind = c'.kind := RecKind.pkey_inj (congrArg Key.keytype hrow)
  obtain ⟨k, c⟩ := c
  obtain ⟨k', c'⟩ := c'
  have hk : k = k' := hkind
  subst hk
  have hap := Service.apart_of_key k.service_lawful.single (hok k) h h' hname
    (fun hf hf' => (hc hf hf').2)
  exact hap.2 (StoreTable.encodePrimaryKey_inj.mp hrow)

/-- Under one name, both replace the stored record. -/
theorem found_of_fits {db : DataDb} (hok : StoreOk db) {c c' : RecChange} (h : c.Fits db)
    (h' : c'.Fits db) (hc : Compatible c c') (hname : c.name = c'.name) :
    c.found = true ∧ c'.found = true := by
  -- a new record finds its name free, an update does not
  have hone : ∀ {d d' : RecChange}, d.Fits db → d'.Fits db → d.name = d'.name →
      d.found = true → d'.found = true := by
    intro d d' hd hd' he hf
    have hkind := kind_of_name he
    obtain ⟨k, d⟩ := d
    obtain ⟨k', d'⟩ := d'
    have hk : k = k' := hkind
    subst hk
    by_contra hf'
    have hfit : StoreTable.Fits k.service.table k.service.ukey db d := hd
    have hfit' : StoreTable.Fits k.service.table k.service.ukey db d' := hd'
    have hkey : k.service.table.getKey d.record k.service.ukey =
        k.service.table.getKey d'.record k.service.ukey := he
    rw [StoreTable.Fits, if_pos (show d.found = true from hf)] at hfit
    rw [StoreTable.Fits, if_neg (show ¬ d'.found = true from hf')] at hfit'
    obtain ⟨old, hold, -⟩ := hfit
    have hnone := (k.service_lawful.single.find_eq_none (hok k)
      (k.service_lawful.single.keytype_ukey d'.record)).mpr hfit'.2.2
    rw [hkey, hnone] at hold
    cases hold
  by_cases hf : c.found = true
  · exact ⟨hf, hone h h' hname hf⟩
  · by_cases hf' : c'.found = true
    · exact ⟨hone h' h hname.symm hf', hf'⟩
    · exact absurd hname (hc (by simpa using hf) (by simpa using hf')).1

section Write

variable {db : DataDb} (hok : StoreOk db)

include hok

theorem storeOk_write {c : RecChange} (h : c.Fits db) : StoreOk (db.write (dataBatch c.rows)) := by
  have hone := @StoreOk.write db hok c.kind [c.change] (fun c' hc' => by
    rw [List.mem_singleton.mp hc']
    exact h) (List.pairwise_singleton _ _)
  rw [List.flatMap_singleton] at hone
  exact hone

/-- **A change still fits** once a compatible one is written. -/
theorem fits_write {c c' : RecChange} (h : c.Fits db) (h' : c'.Fits db) (hc : Compatible c c') :
    c'.Fits (db.write (dataBatch c.rows)) := by
  by_cases hkind : c'.kind = c.kind
  · by_cases hname : c.name = c'.name
    · obtain ⟨hf, hf'⟩ := found_of_fits hok h h' hc hname
      obtain ⟨k, c⟩ := c
      obtain ⟨k', c'⟩ := c'
      have hk : k' = k := hkind
      subst hk
      have ht := k'.service_lawful.single
      have hkey : k'.service.table.getKey c.record k'.service.ukey =
          k'.service.table.getKey c'.record k'.service.ukey := hname
      have hfind := ht.find_write (hok k') h (ht.keytype_ukey c'.record)
      rw [if_pos hkey.symm] at hfind
      have hfit : StoreTable.Fits k'.service.table k'.service.ukey db c := h
      have hfit' : StoreTable.Fits k'.service.table k'.service.ukey db c' := h'
      show StoreTable.Fits k'.service.table k'.service.ukey _ c'
      rw [StoreTable.Fits, if_pos (show c.found = true from hf)] at hfit
      rw [StoreTable.Fits, if_pos (show c'.found = true from hf')] at hfit' ⊢
      obtain ⟨old, hold, hid⟩ := hfit
      obtain ⟨old', hold', hid'⟩ := hfit'
      rw [← hkey, hold, Option.some.injEq] at hold'
      subst hold'
      exact ⟨c.record, hfind, hid'.trans hid.symm⟩
    · have hap := apart_of_fits hok h h' hc hname
      obtain ⟨k, c⟩ := c
      obtain ⟨k', c'⟩ := c'
      have hk : k' = k := hkind
      subst hk
      exact k'.service_lawful.single.fits_write (hok k') h h' ⟨hap.1, fun he =>
        hap.2 (congrArg (encodePrimaryKey k'.pkey) he)⟩
  · -- another table
    have hsame : ∀ key : Key, key.keytype = c'.kind.pkey ∨ key.keytype = c'.kind.ukey →
        (db.write (dataBatch c.rows)).get key = db.get key := by
      intro key hkey
      have hother := RecKind.get_write_other hkind db [c.change] hkey
      rw [List.flatMap_singleton] at hother
      exact hother
    have hfit' : StoreTable.Fits c'.kind.service.table c'.kind.service.ukey db c'.change := h'
    show StoreTable.Fits c'.kind.service.table c'.kind.service.ukey _ c'.change
    rw [StoreTable.Fits] at hfit' ⊢
    split at hfit'
    · rename_i hf
      obtain ⟨old, hold, hid⟩ := hfit'
      rw [if_pos hf]
      exact ⟨old, (StoreTable.SingleKey.find_congr (c'.single.keytype_ukey _) hsame).trans hold, hid⟩
    · rename_i hf
      rw [if_neg hf]
      exact ⟨hfit'.1, (hsame _ (Or.inl rfl)).trans hfit'.2.1,
        (hsame _ (Or.inr (c'.single.keytype_ukey _))).trans hfit'.2.2⟩

end Write

/-! ## Batches -/

/-- The rows of a request. -/
def batch (cs : List RecChange) : List TransItemT := cs.flatMap rows

/-- **Writing a batch**: the tables stay in order, and changes of others still fit. -/
theorem write_batch {db : DataDb} (hok : StoreOk db) {cs : List RecChange}
    (hfit : ∀ c ∈ cs, c.Fits db) (hcs : cs.Pairwise Compatible) :
    StoreOk (db.write (dataBatch (batch cs))) ∧
      ∀ c', c'.Fits db → (∀ c ∈ cs, Compatible c c') →
        c'.Fits (db.write (dataBatch (batch cs))) := by
  induction cs generalizing db with
  | nil => exact ⟨hok, fun c' h' _ => h'⟩
  | cons c cs ih =>
    obtain ⟨hhead, htail⟩ := List.pairwise_cons.mp hcs
    obtain ⟨hc, hrest⟩ := List.forall_mem_cons.mp hfit
    obtain ⟨hok', hfits⟩ := ih (storeOk_write hok hc)
      (fun d hd => fits_write hok hc (hrest d hd) (hhead d hd)) htail
    have hbatch : db.write (dataBatch (batch (c :: cs))) =
        (db.write (dataBatch c.rows)).write (dataBatch (batch cs)) := by
      unfold batch
      rw [List.flatMap_cons, dataBatch, List.map_append, OrdMap.write_append]
      rfl
    rw [hbatch]
    refine ⟨hok', fun c' h' hall => ?_⟩
    obtain ⟨hcc, hcrest⟩ := List.forall_mem_cons.mp hall
    exact hfits c' (fits_write hok hc h' hcc) hcrest

/-- Batches of changes that are apart have no row in common. -/
theorem key_ne_of_batch {cs cs' : List RecChange} (h : ∀ c ∈ cs, ∀ c' ∈ cs', Apart c c') :
    ∀ i ∈ batch cs, ∀ j ∈ batch cs', i.key ≠ j.key := by
  intro i hi j hj
  obtain ⟨c, hc, hic⟩ := List.mem_flatMap.mp hi
  obtain ⟨c', hc', hjc⟩ := List.mem_flatMap.mp hj
  exact key_ne_of_apart (h c hc c' hc') hic hjc

end RecChange

end Zapdos.Store
