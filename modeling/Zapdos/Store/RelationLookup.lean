/-
  Looking up a related item — `GetBlindBySecondaryKey`, and `HandleAnother` on top of it.

  A link names an item by its unique id.  The lookup reads the index row of that id, and gives up when
  the key type of the row EQUALS the one asked for.

  THE CRUX.  `AddRecord` puts the key type of the table into every index row (`indexRows_value`), over
  any number of transactions (`Written.index`).  So the check fires on every row there is, and the
  lookup is right exactly where there is nothing to find.
-/
import Zapdos.Store.StableReads
import Zapdos.Store.UniqueIndex

namespace Zapdos.Store.RelationLookup

open Zapdos.Lib UniqueIndex

/-- The kinds of records that items can relate to. -/
inductive ItemKind
  | localdata | wikidata
  deriving DecidableEq, Repr

namespace ItemKind

def kind : ItemKind → RecKind
  | localdata => .localdata
  | wikidata => .wikidata

def keytype : ItemKind → KeyTypeE
  | localdata => kLocaldata
  | wikidata => kWikidata

def ukey : ItemKind → KeyTypeE
  | localdata => uLocaldataUniqueid
  | wikidata => uWikidataUniqueid

/-- `LocalDataTable` and `WikiDataTable`. -/
def table : ItemKind → StoreTable ItemDataT
  | localdata => localDataTable
  | wikidata => wikiDataTable

theorem keytype_eq (k : ItemKind) : k.keytype = k.kind.pkey := by
  cases k <;> rfl

end ItemKind

/-! ## The stores -/

/-- The databases whose rows were written by `AddRecord`: transactions of any calls, each call made
    against whatever was there to read. -/
inductive Written : DataDb → Prop
  | fresh : Written freshDb
  | commit {db seen : DataDb} {cs : List AddCall} {items : List TransItemT} (h : Written db)
      (hbuild : build seen cs [] = .ok (some items)) : Written (db.write (dataBatch items))

theorem indexTyped_freshDb : IndexTyped freshDb := by
  intro k key v hkey hrow
  rw [get_freshDb] at hrow
  split at hrow
  · rename_i hfence
    -- the fences are no index rows
    obtain ⟨kt, hkt, rfl⟩ := (isFence_iff key).mp hfence
    have hle : kt < kMaxnode + 1 := (List.mem_range'_1.mp hkt).2
    have hlt : kMaxnode < kt := (show kt = k.ukey from hkey) ▸ k.service_lawful.single.ukey_range
    exact absurd (Nat.lt_succ_iff.mp hle) (Nat.not_le.mpr hlt)
  · cases hrow

/-- **The step lemma**: the rows of one call have the key type of its table. -/
theorem IndexTyped.rows {p : Prepared} {i : TransItemT} (hi : i ∈ p.rows) {k : RecKind}
    (hkey : i.key.keytype = k.ukey) (hput : i.toDel = false) :
    ∃ id, i.value = .node { keytype := k.pkey, id := id } := by
  rcases List.mem_append.mp hi with hindex | hrecord
  · obtain ⟨r, hr⟩ := StoreTable.mem_indexRows hindex
    have hukey : p.call.kind.ukey = k.ukey := by
      rw [← hkey, hr]
      exact (p.single.keytype_ukey r).symm
    have hkind : p.call.kind = k := RecKind.ukey_inj hukey
    rcases StoreTable.indexRows_value hindex with hdel | hvalue
    · rw [hput] at hdel
      cases hdel
    · exact ⟨_, by rw [hvalue, ← hkind]; rfl⟩
  · -- the row of the record is under a primary key
    rw [List.mem_singleton.mp hrecord] at hkey
    exact absurd hkey (RecKind.pkey_ne_ukey p.call.kind k)

/-- **The run lemma.** -/
theorem Written.index {db : DataDb} (h : Written db) : IndexTyped db := by
  induction h with
  | fresh => exact indexTyped_freshDb
  | commit h hbuild ih =>
    intro k key v hkey hrow
    rcases OrdMap.get_write_some hrow with hold | hput
    · exact ih k key v hkey hold
    · obtain ⟨ps, -, -, hitems⟩ := build_items hbuild
      rw [List.nil_append] at hitems
      obtain ⟨i, hi, hop⟩ := List.mem_map.mp hput
      rw [hitems] at hi
      obtain ⟨p, -, hp⟩ := List.mem_flatMap.mp hi
      split at hop
      · cases hop
      · rename_i hdel
        obtain ⟨rfl, rfl⟩ := OrdMap.BatchOp.put.inj hop
        exact IndexTyped.rows hp hkey (by simpa using hdel)

/-- Every reachable store is written by `AddRecord`. -/
theorem written_reach {st : SharedTable} (h : machine.Reach st) : Written st.maindb := by
  refine h.invariant (I := fun st => Written st.maindb) (fun st hinit => ?_) ?_
  · rw [init_maindb hinit]
    exact .fresh
  · intro st b st' hw _ hs
    have hstep : step st b = some st' := hs
    rw [step] at hstep
    split at hstep
    · split at hstep
      · rename_i items hbuild
        cases hstep
        rw [commitData]
        split
        · exact hw
        · split
          · exact .commit hw hbuild
          · exact hw
      · cases hstep
    · cases hstep

/-! ## The lookup -/

/-- The database has a record of this kind with this unique id, under the id `i`. -/
def HasItem (db : DataDb) (k : ItemKind) (uniqueId : Bytes) (i : Nat) : Prop :=
  ∃ r : ItemDataT, db.get (encodePrimaryKey k.keytype i) = some (.item r) ∧ r.uniqueId = uniqueId

/-- A link names the item of a kind with a unique id. -/
def Names (idata : ItemLinkT) (k : ItemKind) (uniqueId : Bytes) : Prop :=
  idata.uniqueId = uniqueId ∧ uniqueId ≠ [] ∧ idata.keytype = k.keytype

/-- **What a lookup is for**: it finds what exists, so that a link to an existing item is accepted and
    gets its id, and a link to a missing one is rejected. -/
structure Finds (db : DataDb) (k : ItemKind) (uniqueId : Bytes) : Prop where
  lookup : ∀ (record : ItemLinkT) (i : Nat), record.uniqueId = uniqueId →
    (getBlindBySecondaryKey db record k.keytype = some i ↔ HasItem db k uniqueId i)
  accepts : ∀ (idata odata : ItemLinkT) (merge : Bool) (i : Nat), Names idata k uniqueId →
    HasItem db k uniqueId i → handleAnother db idata odata merge = .ok { odata with id := i }
  rejects : ∀ (idata odata : ItemLinkT) (merge : Bool), Names idata k uniqueId →
    (¬ ∃ i, HasItem db k uniqueId i) →
    handleAnother db idata odata merge = badData "Parent Relation does not exist"

/-- The lookup always gives up. -/
theorem getBlindBySecondaryKey_none {db : DataDb} (h : Written db) (k : ItemKind)
    (record : ItemLinkT) : getBlindBySecondaryKey db record k.keytype = none := by
  rw [k.keytype_eq]
  exact getBlindBySecondaryKey_typed h.index k.kind (by cases k <;> rfl) record

/-- A link that names an item is rejected, whether the item is there or not. -/
theorem handleAnother_rejects {db : DataDb} (h : Written db) {k : ItemKind} {uniqueId : Bytes}
    {idata : ItemLinkT} (hnames : Names idata k uniqueId) (odata : ItemLinkT) (merge : Bool) :
    handleAnother db idata odata merge = badData "Parent Relation does not exist" := by
  obtain ⟨hid, hne, hkt⟩ := hnames
  rw [handleAnother, if_neg (by rw [hid]; exact hne), hkt, getBlindBySecondaryKey_none h]

/-- **Relation lookup**: it finds what exists exactly when nothing exists. -/
theorem finds_iff_missing {db : DataDb} (h : Written db) (k : ItemKind) (uniqueId : Bytes) :
    Finds db k uniqueId ↔ ¬ ∃ i, HasItem db k uniqueId i := by
  constructor
  · rintro hfinds ⟨i, hitem⟩
    have hsome := (hfinds.lookup { uniqueId := uniqueId } i rfl).mpr hitem
    rw [getBlindBySecondaryKey_none h] at hsome
    cases hsome
  · intro hmissing
    refine ⟨fun record i _ => ?_, fun _ _ _ i _ hitem => absurd ⟨i, hitem⟩ hmissing,
      fun idata odata merge hnames _ => handleAnother_rejects h hnames odata merge⟩
    rw [getBlindBySecondaryKey_none h]
    constructor
    · intro hsome
      cases hsome
    · intro hitem
      exact absurd ⟨i, hitem⟩ hmissing

/-- A place. -/
def museum : ItemDataT where
  id := 7
  uniqueId := str "museum"

/-- A store with this place only. -/
def placeDb : DataDb :=
  freshDb.write (dataBatch (localDataTable.insertRows uLocaldataUniqueid museum))

theorem written_placeDb : Written placeDb :=
  @Written.commit freshDb OrdMap.empty [⟨.localdata, museum, false⟩] _ .fresh rfl

theorem hasItem_placeDb : HasItem placeDb .localdata (str "museum") 7 := by
  refine ⟨museum, ?_, rfl⟩
  rw [placeDb, StoreTable.get_write_insertRows]
  exact if_pos rfl

/-- The place is the only item. -/
theorem museum_of_item {uniqueId : Bytes} {i : Nat} (h : HasItem placeDb .localdata uniqueId i) :
    uniqueId = str "museum" := by
  obtain ⟨r, hrow, rfl⟩ := h
  rw [placeDb, StoreTable.get_write_insertRows, get_freshDb] at hrow
  split at hrow
  · have hr : museum = r := DataV.item.inj (Option.some.inj hrow)
    rw [← hr]
    rfl
  · split at hrow
    · cases hrow
    · split at hrow <;> cases hrow

/-- The place that is there is not found, and rejected as a parent. -/
theorem lookup_misses_museum :
    Written placeDb ∧ HasItem placeDb .localdata (str "museum") 7 ∧
      getBlindBySecondaryKey placeDb { uniqueId := str "museum" } kLocaldata = none ∧
      handleAnother placeDb { uniqueId := str "museum", keytype := kLocaldata } {} false =
        badData "Parent Relation does not exist" ∧
      ¬ Finds placeDb .localdata (str "museum") := by
  have hlookup : getBlindBySecondaryKey placeDb { uniqueId := str "museum" } kLocaldata = none :=
    getBlindBySecondaryKey_none written_placeDb .localdata _
  refine ⟨written_placeDb, hasItem_placeDb, hlookup, ?_, fun hfinds => ?_⟩
  · have hnames : Names { uniqueId := str "museum", keytype := kLocaldata } .localdata
        (str "museum") := ⟨rfl, by decide, rfl⟩
    exact handleAnother_rejects written_placeDb hnames {} false
  · have hsome := (hfinds.lookup { uniqueId := str "museum" } 7 rfl).mpr hasItem_placeDb
    have hnone := hlookup.symm.trans hsome
    cases hnone

/-- A name that no place has. -/
theorem finds_castle : Finds placeDb .localdata (str "castle") :=
  (finds_iff_missing written_placeDb .localdata (str "castle")).mpr fun ⟨_, hitem⟩ =>
    absurd (museum_of_item hitem) (by decide)

end Zapdos.Store.RelationLookup
