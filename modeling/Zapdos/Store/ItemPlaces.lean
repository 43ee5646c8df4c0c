/-
  Items without a place — which requests make `AddToCache` throw.

  `IndexGeo` makes a coordinate of the latitude of an item outside of its `try`, and a latitude out of
  range is an exception there.  No service looks at latitudes, and `AddToCache` runs after both writes
  of a commit.  So whether a request comes to that exception is decided by the latitudes of the records
  it writes (`cacheTakes_rows_iff`), and those by its payloads and the stored records (`made_lat`).
-/
import Zapdos.Store.RecordKinds

namespace Zapdos.Store

open Zapdos.Lib

/-- A latitude the search index takes. -/
def InRange (lat : Rat) : Prop := -90 ≤ lat ∧ lat ≤ 90

instance (lat : Rat) : Decidable (InRange lat) := instDecidableAnd

theorem latLongCoord_isNone (lat lon : Rat) :
    (latLongCoord lat lon).isNone = true ↔ ¬ InRange lat := by
  rw [latLongCoord]
  split
  · rename_i h
    exact iff_of_false nofun (not_not.mpr h)
  · rename_i h
    exact iff_of_true rfl h

namespace ItemDataService

/-- The latitude that the record of a payload ends with, over the record that is stored. -/
def latOf (m : Manage) (stored : Option ItemDataT) (data : ItemDataT) : Rat :=
  let old := stored.getD { uniqueId := data.uniqueId }
  if m.action ≠ uactionDelete ∧ (hasBits m.fields idfldLocalfields &&
      hasBits (itemPerms m.updater old stored.isSome m.action) wrtpid) = true then
    handleNumber m.merge data.lat old.lat
  else old.lat

/-- It comes from the payload or from the stored record. -/
theorem latOf_cases (m : Manage) (stored : Option ItemDataT) (data : ItemDataT) :
    latOf m stored data = data.lat ∨
      latOf m stored data = (stored.getD { uniqueId := data.uniqueId }).lat := by
  rw [latOf]
  split
  · rw [handleNumber]
    split
    · exact Or.inl rfl
    · exact Or.inr rfl
  · exact Or.inr rfl

/-- One part of `PrepareData` touches the latitude. -/
theorem fieldParts_lat (env : PrepEnv) (db : DataDb) (keytype : KeyTypeE) (merge : Bool)
    (data : ItemDataT) :
    ∀ part ∈ fieldParts env db keytype merge, ∀ c c', part.set data c = .ok c' →
      c'.lat = if idfldLocalfields = part.bit then handleNumber merge data.lat c.lat else c.lat := by
  simp only [fieldParts, List.forall_mem_cons, List.not_mem_nil, false_imp_iff, implies_true,
    and_true]
  refine ⟨?_, ?_, ?_, ?_, ?_, ?_, ?_, ?_, ?_, ?_, ?_, ?_, ?_, ?_, ?_⟩
  all_goals
    intro c c' h
    first
      | cases h; rfl
      | obtain ⟨a, -, ⟨⟩⟩ := bind_eq_ok.mp h
        rfl

/-- The parts, by their bits. -/
theorem fieldParts_bits (env : PrepEnv) (db : DataDb) (keytype : KeyTypeE) (merge : Bool) :
    (fieldParts env db keytype merge).map FieldPart.bit =
      [idfldCategory, idfldOrigin, idfldTags, idfldTextfields, idfldLanguage, idfldCansee,
        idfldImages, idfldContacts, idfldParent, idfldAlias, idfldImportance, idfldRating,
        idfldGeometry, idfldLocalfields, idfldOsmfields] := rfl

theorem nodup_fieldParts (env : PrepEnv) (db : DataDb) (keytype : KeyTypeE) (merge : Bool) :
    ((fieldParts env db keytype merge).map FieldPart.bit).Nodup := by
  rw [fieldParts_bits]
  decide

theorem fieldParts_mask (env : PrepEnv) (db : DataDb) (keytype : KeyTypeE) (merge : Bool) :
    ∀ part ∈ fieldParts env db keytype merge, part.mask = wrtpid := by
  simp only [fieldParts, List.forall_mem_cons, List.not_mem_nil, false_imp_iff, implies_true,
    and_self]

theorem setFields_lat {env : PrepEnv} {db : DataDb} {keytype : KeyTypeE} {merge : Bool}
    {fields perms : Nat} {data cdata out : ItemDataT}
    (h : setFields fields perms data (fieldParts env db keytype merge) cdata = .ok out) :
    out.lat = if (hasBits fields idfldLocalfields && hasBits perms wrtpid) = true then
      handleNumber merge data.lat cdata.lat else cdata.lat := by
  have hmem : idfldLocalfields ∈ (fieldParts env db keytype merge).map FieldPart.bit := by
    rw [fieldParts_bits]
    decide
  exact setFields_value (nodup_fieldParts env db keytype merge)
    (fieldParts_lat env db keytype merge data)
    (fun part hpart _ => fieldParts_mask env db keytype merge part hpart) hmem h

/-- **The latitude of a record** that a payload leads to. -/
theorem made_lat {pkey ukey : KeyTypeE} (ht : (itemTable pkey ukey).SingleKey ukey) {db : DataDb}
    (hok : (service (itemTable pkey ukey) ukey).TableOk db) {m : Manage} {p : ItemDataT × PrepEnv}
    {c : Change ItemDataT} (hc : (service (itemTable pkey ukey) ukey).Made m db p c) :
    c.record.lat = latOf m ((service (itemTable pkey ukey) ukey).stored db p.1) p.1 := by
  obtain ⟨-, cdata, id, hp, -, hfill⟩ := hc
  have hkey : ∀ r, (itemTable pkey ukey).getKey r ukey = encodeSecondaryKey ukey r.uniqueId :=
    fun r => if_pos rfl
  have hp' : prepareData (itemTable pkey ukey) ukey p.2 db m.updater p.1 m.action m.fields m.merge =
      .ok (c.found, cdata) := hp
  obtain ⟨-, -, hfound⟩ := (prepareData_eq_ok ht hok hkey).mp hp'
  obtain ⟨-, -, hout⟩ := prepareFound_eq_ok.mp hfound
  have hfilled : c.record.lat = cdata.lat := by
    rw [hfill]
    show (fillRecord m p.1 c.found id cdata).lat = cdata.lat
    cases c.found <;> rfl
  rw [hfilled, latOf]
  rcases hout with ⟨hdel, rfl⟩ | ⟨hnot, out, hset, rfl⟩
  · rw [if_neg fun h => h.1 hdel]
    rfl
  · have hlat := setFields_lat hset
    have hold : ∀ (b : Bool) (old : ItemDataT), (rememberOld b old).lat = old.lat := by
      intro b old
      cases b <;> rfl
    have hassigned : ∀ (b : Bool) (a : Nat) (r : ItemDataT), (assigned b a r).lat = r.lat := by
      intro b a r
      rw [assigned]
      split <;> rfl
    rw [hassigned, hlat, hold]
    simp only [ne_eq, hnot, not_false_eq_true, true_and]

/-- The rows of an item, for the search index. -/
theorem unplaced_rows {pkey ukey : KeyTypeE} (hpkey : pkey = kLocaldata ∨ pkey = kWikidata)
    (noXapian : Bool) (c : Change ItemDataT) :
    (∀ i ∈ (itemTable pkey ukey).rows ukey c, unplaced noXapian i = false) ↔
      (noXapian = false → InRange c.record.lat) := by
  have hprimary : unplaced noXapian
      { key := encodePrimaryKey pkey c.record.id, value := .item c.record } = false ↔
        (noXapian = false → InRange c.record.lat) := by
    rw [← Bool.not_eq_true, unplaced]
    cases noXapian with
    | true => simp [indexedItem, encodePrimaryKey]
    | false =>
      simp only [indexedItem, encodePrimaryKey, hpkey, and_self, if_true, DataV.parseItem,
        Bool.not_false, Bool.true_and, latLongCoord_isNone, not_not, true_imp_iff]
  have hname : ∀ v, unplaced noXapian { key := (itemTable pkey ukey).getKey c.record ukey, value := v }
      = false := by
    intro v
    rw [show (itemTable pkey ukey).getKey c.record ukey =
      encodeSecondaryKey ukey c.record.uniqueId from if_pos rfl]
    rfl
  rw [StoreTable.rows]
  split
  · rw [StoreTable.updateRows, List.forall_mem_singleton]
    exact hprimary
  · rw [StoreTable.insertRows, List.forall_mem_cons, List.forall_mem_singleton]
    exact (and_iff_right (hname _)).trans hprimary

end ItemDataService

namespace RecKind

/-- The search index has a place for the record. -/
def Placed : (k : RecKind) → k.Rec → Prop
  | localdata, (r : ItemDataT) => InRange r.lat
  | wikidata, (r : ItemDataT) => InRange r.lat
  | _, _ => True

/-- The payload leads to a record the search index has no place for. -/
def Unplaceable : (k : RecKind) → Manage → DataDb → k.Rec → Prop
  | localdata, m, db, (p : ItemDataT) =>
    ¬ InRange (ItemDataService.latOf m (ItemDataService.localService.stored db p) p)
  | wikidata, m, db, (p : ItemDataT) =>
    ¬ InRange (ItemDataService.latOf m (ItemDataService.wikiService.stored db p) p)
  | _, _, _, _ => False

theorem made_placed_iff {k : RecKind} {db : DataDb} (hok : StoreOk db) {m : Manage}
    {p : k.Rec × PrepEnv} {c : Change k.Rec} (hc : k.service.Made m db p c) :
    k.Placed c.record ↔ ¬ k.Unplaceable m db p.1 := by
  have hitem : ∀ {lat lat' : Rat}, lat = lat' → (InRange lat ↔ ¬ ¬ InRange lat') := by
    intro lat lat' h
    rw [h, not_not]
  cases k with
  | localdata =>
    exact hitem (ItemDataService.made_lat StoreTable.localDataTable_singleKey (hok .localdata) hc)
  | wikidata =>
    exact hitem (ItemDataService.made_lat StoreTable.wikiDataTable_singleKey (hok .wikidata) hc)
  | user => exact iff_of_true trivial not_false
  | exter => exact iff_of_true trivial not_false
  | tag => exact iff_of_true trivial not_false
  | category => exact iff_of_true trivial not_false

/-- Rows of the other kinds are not indexed. -/
theorem indexedItem_rows {k : RecKind} (hl : k ≠ .localdata) (hw : k ≠ .wikidata) (noXapian : Bool)
    {c : Change k.Rec} {i : TransItemT} (hi : i ∈ k.service.table.rows k.service.ukey c) :
    indexedItem noXapian i = none := by
  have hlocal : k.pkey ≠ kLocaldata := fun he => hl (@pkey_inj k .localdata he)
  have hwiki : k.pkey ≠ kWikidata := fun he => hw (@pkey_inj k .wikidata he)
  rcases StoreTable.mem_keys_rows (List.mem_map_of_mem hi) with hkey | hkey
  · refine indexedItem_of_keytype ?_ ?_ <;> rw [hkey]
    · exact hlocal
    · exact hwiki
  · rw [indexedItem, hkey]
    obtain ⟨ps, hps⟩ := k.service_lawful.single.secondary c.record
    rw [hps]

/-- **What the search index takes**: of items those with a latitude in range, and every record of
    another kind. -/
theorem cacheTakes_rows_iff (k : RecKind) (noXapian : Bool) {env : CommitEnv}
    (henv : env.indexFails = none) (cs : List (Change k.Rec)) :
    CacheTakes noXapian env (cs.flatMap (k.service.table.rows k.service.ukey)) ↔
      (noXapian = false → ∀ c ∈ cs, k.Placed c.record) := by
  have hother : k ≠ .localdata → k ≠ .wikidata →
      CacheTakes noXapian env (cs.flatMap (k.service.table.rows k.service.ukey)) := by
    intro hl hw
    refine cacheTakes_of_not_indexed env fun i hi => ?_
    obtain ⟨c, -, hi⟩ := List.mem_flatMap.mp hi
    exact indexedItem_rows hl hw noXapian hi
  have hitems : ∀ {pkey ukey : KeyTypeE} (cs : List (Change ItemDataT)),
      (pkey = kLocaldata ∨ pkey = kWikidata) →
      (CacheTakes noXapian env (cs.flatMap ((itemTable pkey ukey).rows ukey)) ↔
        (noXapian = false → ∀ c ∈ cs, InRange c.record.lat)) := by
    intro pkey ukey cs hpkey
    rw [CacheTakes, henv]
    simp only [Option.not_mem_none, false_imp_iff, implies_true, and_true, List.mem_flatMap,
      forall_exists_index, and_imp]
    constructor
    · intro h hno c hc
      exact (ItemDataService.unplaced_rows hpkey noXapian c).mp (fun i hi => h i c hc hi) hno
    · intro h i c hc hi
      exact (ItemDataService.unplaced_rows hpkey noXapian c).mpr (fun hno => h hno c hc) i hi
  cases k with
  | localdata => exact hitems cs (Or.inl rfl)
  | wikidata => exact hitems cs (Or.inr rfl)
  | user => exact iff_of_true (hother nofun nofun) fun _ _ _ => trivial
  | exter => exact iff_of_true (hother nofun nofun) fun _ _ _ => trivial
  | tag => exact iff_of_true (hother nofun nofun) fun _ _ _ => trivial
  | category => exact iff_of_true (hother nofun nofun) fun _ _ _ => trivial

/-- Rows of items have no cached copies. -/
theorem cacheKeyOf_item {k : RecKind} (hitem : k = .localdata ∨ k = .wikidata) {c : Change k.Rec}
    {i : TransItemT} (hi : i ∈ k.service.table.rows k.service.ukey c) : cacheKeyOf i = none := by
  rcases StoreTable.mem_keys_rows (List.mem_map_of_mem hi) with hkey | hkey
  · rw [cacheKeyOf, hkey]
    rcases hitem with rfl | rfl <;> rfl
  · obtain ⟨ps, hps⟩ := k.service_lawful.single.secondary c.record
    rw [cacheKeyOf, hkey, hps]

/-- **The copies `AddToCache` drops** are those of all rows, even when it throws: the rows of a request
    are of one kind, and only items make it throw. -/
theorem cacheRows_keys (k : RecKind) (noXapian : Bool) (indexFails : Option Nat)
    (cs : List (Change k.Rec)) :
    (cacheRows noXapian indexFails (cs.flatMap (k.service.table.rows k.service.ukey))).1.filterMap
        cacheKeyOf =
      (cs.flatMap (k.service.table.rows k.service.ukey)).filterMap cacheKeyOf := by
  obtain ⟨hfront, hall⟩ := cacheRows_prefix noXapian indexFails
    (cs.flatMap (k.service.table.rows k.service.ukey))
  by_cases hitem : k = .localdata ∨ k = .wikidata
  · have hnone : ∀ i ∈ cs.flatMap (k.service.table.rows k.service.ukey), cacheKeyOf i = none := by
      intro i hi
      obtain ⟨c, -, hi⟩ := List.mem_flatMap.mp hi
      exact cacheKeyOf_item hitem hi
    rw [List.filterMap_eq_nil_iff.mpr hnone]
    exact List.filterMap_eq_nil_iff.mpr fun i hi => hnone i (hfront.subset hi)
  · obtain ⟨hl, hw⟩ := not_or.mp hitem
    have htakes : CacheTakes noXapian { indexFails := indexFails }
        (cs.flatMap (k.service.table.rows k.service.ukey)) := by
      refine cacheTakes_of_not_indexed _ fun i hi => ?_
      obtain ⟨c, -, hi⟩ := List.mem_flatMap.mp hi
      exact indexedItem_rows hl hw noXapian hi
    rw [hall (cacheRows_ok_iff.mpr htakes)]

end RecKind

end Zapdos.Store
