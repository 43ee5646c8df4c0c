/-
  What `PrepareData` depends on — of all records, the stored one under the payload's name.

  A request may be prepared against records that other requests change before it ends.  What it has
  read stays true as long as the stored record of that name stays the same.

  THE CRUX.  Items also look up the item a payload links to.  For the two key types that have an index
  the lookup never succeeds: `GetBlindBySecondaryKey` gives up when the key type of the node it finds
  EQUALS the one asked for, and an index row always has it.  For all others it looks under key type
  `NOKEY`, where no table has rows.
-/
import Zapdos.Store.RecordKinds

namespace Zapdos.Store

open Zapdos.Lib

/-- The two databases agree under `NOKEY`. -/
def SameNokey (db db' : DataDb) : Prop := ∀ key : Key, key.keytype = 0 → db'.get key = db.get key

/-- Writing records keeps what is under `NOKEY`. -/
theorem sameNokey_write (k : RecKind) (db : DataDb) (cs : List (Change k.Rec)) :
    SameNokey db (db.write (dataBatch (cs.flatMap (k.service.table.rows k.service.ukey)))) := by
  intro key hkey
  have hne : (0 : KeyTypeE) ≠ k.pkey ∧ (0 : KeyTypeE) ≠ k.ukey := by
    cases k <;> decide
  refine k.service_lawful.single.get_write_batch_other db cs ?_ ?_
  · rw [hkey]
    exact hne.1
  · rw [hkey]
    exact hne.2

/-! ## Links to other items -/

/-- Every index row holds a node with the key type of its table. -/
def IndexTyped (db : DataDb) : Prop :=
  ∀ (k : RecKind) (key : Key) (v : DataV), key.keytype = k.ukey → db.get key = some v →
    ∃ id, v = .node { keytype := k.pkey, id := id }

theorem StoreOk.indexTyped {db : DataDb} (hok : StoreOk db) : IndexTyped db := by
  intro k key v hkey hrow
  obtain ⟨r, hr, -⟩ := (hok k).index key v hrow hkey
  exact ⟨_, hr⟩

/-- Under an index of typed rows a link finds nothing. -/
theorem getBlindBySecondaryKey_typed {db : DataDb} (h : IndexTyped db) (k : RecKind)
    (hu : getUniqueByPrimary k.pkey = k.ukey) (record : ItemLinkT) :
    getBlindBySecondaryKey db record k.pkey = none := by
  rw [getBlindBySecondaryKey, hu]
  by_cases hempty : record.uniqueId = []
  · rw [if_pos hempty]
  · rw [if_neg hempty]
    cases hrow : db.get (encodeSecondaryKey k.ukey record.uniqueId) with
    | none => rfl
    | some v =>
      obtain ⟨id, rfl⟩ := h k _ v rfl hrow
      -- the node has the key type of the table
      show (if id = 0 then none else if k.pkey = k.pkey then none else some id) = none
      rw [if_pos rfl, ite_self]

theorem getBlindBySecondaryKey_congr {db db' : DataDb} (hok : StoreOk db) (hok' : StoreOk db')
    (hsame : SameNokey db db') (record : ItemLinkT) (keytype : KeyTypeE) :
    getBlindBySecondaryKey db' record keytype = getBlindBySecondaryKey db record keytype := by
  by_cases hl : keytype = RecKind.localdata.pkey
  · rw [hl, getBlindBySecondaryKey_typed hok'.indexTyped .localdata rfl,
      getBlindBySecondaryKey_typed hok.indexTyped .localdata rfl]
  · by_cases hw : keytype = RecKind.wikidata.pkey
    · rw [hw, getBlindBySecondaryKey_typed hok'.indexTyped .wikidata rfl,
        getBlindBySecondaryKey_typed hok.indexTyped .wikidata rfl]
    · have hzero : getUniqueByPrimary keytype = 0 := by
        have hl' : ¬ keytype = kLocaldata := hl
        have hw' : ¬ keytype = kWikidata := hw
        rw [getUniqueByPrimary, if_neg hl', if_neg hw']
      unfold getBlindBySecondaryKey
      rw [hzero, hsame (encodeSecondaryKey 0 record.uniqueId) rfl]

theorem handleAnother_congr {db db' : DataDb} (hok : StoreOk db) (hok' : StoreOk db')
    (hsame : SameNokey db db') : handleAnother db' = handleAnother db := by
  funext idata odata merge
  unfold handleAnother
  rw [getBlindBySecondaryKey_congr hok hok' hsame]

/-! ## The services -/

namespace ItemDataService

theorem prepareFound_congr {db db' : DataDb} (hok : StoreOk db) (hok' : StoreOk db')
    (hsame : SameNokey db db') (env : PrepEnv) (keytype : KeyTypeE) :
    prepareFound env db' keytype = prepareFound env db keytype := by
  have hparts : fieldParts env db' keytype = fieldParts env db keytype := by
    unfold fieldParts
    rw [handleAnother_congr hok hok' hsame]
  unfold prepareFound
  rw [hparts]

/-- `PrepareData` of items, on two databases with the same stored item. -/
theorem service_prepare_congr {pkey ukey : Nat} (hp : kNonode < pkey ∧ pkey < kLognode)
    (hu : kMaxnode < ukey) {db db' : DataDb}
    (ht : StoreTable.TableOk (itemTable pkey ukey) ukey db)
    (ht' : StoreTable.TableOk (itemTable pkey ukey) ukey db') (hok : StoreOk db)
    (hok' : StoreOk db') (hsame : SameNokey db db') {env : PrepEnv} {m : Manage} {data : ItemDataT}
    (hstored : (service (itemTable pkey ukey) ukey).stored db' data =
      (service (itemTable pkey ukey) ukey).stored db data) {out : Bool × ItemDataT}
    (h : (service (itemTable pkey ukey) ukey).prepare env db m data = .ok out) :
    (service (itemTable pkey ukey) ukey).prepare env db' m data = .ok out := by
  have hs := StoreTable.itemTable_singleKey hp hu
  have hkey : ∀ r, (itemTable pkey ukey).getKey r ukey = encodeSecondaryKey ukey r.uniqueId :=
    fun r => if_pos rfl
  have h' : prepareData (itemTable pkey ukey) ukey env db m.updater data m.action m.fields m.merge =
      .ok out := h
  show prepareData (itemTable pkey ukey) ukey env db' m.updater data m.action m.fields m.merge = _
  rw [prepareData_eq_ok hs ht hkey] at h'
  rw [prepareData_eq_ok hs ht' hkey, hstored, prepareFound_congr hok hok' hsame]
  exact h'

end ItemDataService

namespace RecKind

/-- **The same stored record, the same preparation.** -/
theorem prepare_congr (k : RecKind) {db db' : DataDb} (hok : StoreOk db) (hok' : StoreOk db')
    (hsame : SameNokey db db') {env : PrepEnv} {m : Manage} {data : k.Rec}
    (hstored : k.service.stored db' data = k.service.stored db data) {out : Bool × k.Rec}
    (h : k.service.prepare env db m data = .ok out) :
    k.service.prepare env db' m data = .ok out := by
  cases k with
  | user =>
    have h' : UserDataService.prepareData env db m.updater data m.action m.fields m.merge =
        .ok out := h
    show UserDataService.prepareData env db' m.updater data m.action m.fields m.merge = .ok out
    rw [UserDataService.prepareData_eq_ok (hok .user)] at h'
    rw [UserDataService.prepareData_eq_ok (hok' .user)]
    rw [show UserDataService.service.stored db' data = UserDataService.service.stored db data from
      hstored]
    exact h'
  | exter =>
    have h' : ExterDataService.prepareData env db m.updater data m.action m.fields m.merge =
        .ok out := h
    show ExterDataService.prepareData env db' m.updater data m.action m.fields m.merge = .ok out
    rw [ExterDataService.prepareData_eq_ok (hok .exter)] at h'
    rw [ExterDataService.prepareData_eq_ok (hok' .exter)]
    rw [show ExterDataService.service.stored db' data = ExterDataService.service.stored db data from
      hstored]
    exact h'
  | localdata =>
    exact ItemDataService.service_prepare_congr (by decide) (by decide) (hok .localdata)
      (hok' .localdata) hok hok' hsame hstored h
  | wikidata =>
    exact ItemDataService.service_prepare_congr (by decide) (by decide) (hok .wikidata)
      (hok' .wikidata) hok hok' hsame hstored h
  | tag =>
    have h' : TagDataService.prepare db m data = .ok out := h
    show TagDataService.prepare db' m data = .ok out
    rw [TagDataService.prepare_eq (hok .tag)] at h'
    rw [TagDataService.prepare_eq (hok' .tag)]
    rw [show TagDataService.service.stored db' data = TagDataService.service.stored db data from
      hstored]
    exact h'
  | category =>
    have h' : CategoryService.prepare db m data = .ok out := h
    show CategoryService.prepare db' m data = .ok out
    rw [CategoryService.prepare_eq (hok .category)] at h'
    rw [CategoryService.prepare_eq (hok' .category)]
    rw [show CategoryService.service.stored db' data = CategoryService.service.stored db data from
      hstored]
    exact h'

/-- A new id does not show in the flag `AddRecord` looks at. -/
theorem fill_notfound (k : RecKind) (m : Manage) (data : k.Rec) (found : Bool) (id id' : ℕ)
    (r : k.Rec) : k.service.table.notfound (k.service.fill m data found id r) =
      k.service.table.notfound (k.service.fill m data found id' r) := by
  cases k with
  | user => cases found <;> rfl
  | exter => cases found <;> rfl
  | localdata => cases found <;> rfl
  | wikidata => cases found <;> rfl
  | tag =>
    show (TagDataService.fillRecord m data found id r).notfound =
      (TagDataService.fillRecord m data found id' r).notfound
    unfold TagDataService.fillRecord
    by_cases hdel : m.action = uactionDelete
    · cases found <;> simp [hdel]
    · cases found <;> simp [hdel]
  | category =>
    show (CategoryService.fillRecord m data found id r).notfound =
      (CategoryService.fillRecord m data found id' r).notfound
    unfold CategoryService.fillRecord
    by_cases hdel : m.action = uactionDelete
    · cases found <;> simp [hdel]
    · cases found <;> simp [hdel]

end RecKind

end Zapdos.Store
