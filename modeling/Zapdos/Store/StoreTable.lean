/-
  Record tables — the template `StoreTable<T>` (`GetOne`, `AddRecord`) and its six instances.

  A table keeps a record under a primary key made of its id, and for each unique key of the record an
  index row that holds the id.  All six tables have one unique key and no other index.

  THE CRUX.  `AddRecord` only prepares rows; it reads the database as it is, not the rows prepared
  before it.  On a database in which index rows and records match (`TableOk`) it prepares just the
  record when the record is there already, and refuses a new record whose id or name is taken.
-/
import Zapdos.Store.StoreLevel

namespace Zapdos.Store

open Zapdos.Lib

/-- What a table fixes of the template: the record type with its id, and `PrimaryKey`,
    `unique_keys`, `index_keys` and `GetKey`. -/
structure StoreTable (T : Type) where
  primaryKey : KeyTypeE
  uniqueKeys : List KeyTypeE
  indexKeys : List KeyTypeE
  getKey : T → KeyTypeE → Key
  /-- `SerializeToString` -/
  serialize : T → DataV
  /-- `ParseFromString` -/
  parse : DataV → Option T
  blank : T
  id : T → Nat
  setId : T → Nat → T
  notfound : T → Bool

namespace StoreTable

variable {T : Type} (t : StoreTable T)

/-- The second half of `GetOne`: read the record under the id that `record` carries. -/
def readPrimary (db : DataDb) (record : T) : Except Exc (Bool × T) :=
  match db.get (t.getKey record t.primaryKey) with
  | none => .ok (false, record)
  | some value =>
    match t.parse value with
    | none => badData "Record cannot be parsed"
    | some r => .ok (true, r)

/-- `GetOne`. -/
def getOne (db : DataDb) (record : T) (keytype : KeyTypeE) : Except Exc (Bool × T) :=
  if keytype = t.primaryKey then t.readPrimary db record
  else if keytype ∈ t.uniqueKeys ∨ keytype ∈ t.indexKeys then
    match (db.get (t.getKey record keytype)).bind DataV.parseNode with
    | none => .ok (false, record)
    | some node => t.readPrimary db (t.setId record node.id)
  else badData "Keytype invalid"

/-- `GetSecondaryValue`. -/
def getSecondaryValue (db : DataDb) (record : T) (keytype : KeyTypeE) : Option NodeT :=
  if keytype ∈ t.uniqueKeys ∨ keytype ∈ t.indexKeys then
    (db.get (t.getKey record keytype)).bind DataV.parseNode
  else none

/-- The check of one unique key in `AddRecord`: the key leads to another record. -/
def clashes (db : DataDb) (record : T) (keytype : KeyTypeE) : Bool :=
  match t.getSecondaryValue db record keytype with
  | none => false
  | some node => decide (t.id record ≠ node.id)

/-- The rows `AddRecord` prepares for one index: delete the old row and put the new one, or nothing
    when the key stays. -/
def indexRows (record : T) (old : Option T) (keytype : KeyTypeE) : List TransItemT :=
  let node : NodeT := { keytype := t.primaryKey, id := t.id record }
  let new : TransItemT := { key := t.getKey record keytype, value := .node node }
  match old with
  | some old =>
    if t.getKey old keytype ≠ t.getKey record keytype then
      [{ key := t.getKey old keytype, toDel := true }, new]
    else []
  | none => [new]

/-- `AddRecord`: the items of the transaction with the rows of `record` added, or `none` when it
    returns false. -/
def addRecord (db : DataDb) (record : T) (items : List TransItemT) (upsert : Bool) :
    Except Exc (Option (List TransItemT)) :=
  if t.notfound record then .ok none
  else if t.id record = 0 then .ok none
  else do
    let (oldRecordExists, old) ← t.getOne db (t.setId t.blank (t.id record)) t.primaryKey
    if oldRecordExists && !upsert then pure none
    else if t.uniqueKeys.any (t.clashes db record) then pure none
    else
      let old? := if oldRecordExists then some old else none
      let rows := (t.uniqueKeys ++ t.indexKeys).flatMap (t.indexRows record old?)
      pure (some (items ++ rows ++
        [{ key := t.getKey record t.primaryKey, value := t.serialize record }]))

end StoreTable

/-! ## The tables -/

/-- Tables of `UserDataT` records. -/
def userTable (pkey ukey : KeyTypeE) : StoreTable UserDataT where
  primaryKey := pkey
  uniqueKeys := [ukey]
  indexKeys := []
  getKey record keytype :=
    if keytype = ukey then encodeSecondaryKey keytype record.name
    else encodePrimaryKey pkey record.id
  serialize := .user
  parse := DataV.parseUser
  blank := {}
  id := UserDataT.id
  setId record id := { record with id := id }
  notfound := UserDataT.notfound

/-- `UserDataTable`. -/
def userDataTable : StoreTable UserDataT := userTable kUserdata uUserdataName

/-- `ExterDataTable`. -/
def exterDataTable : StoreTable ExterDataT := userTable kExterdata uExterdataName

/-- Tables of `ItemDataT` records. -/
def itemTable (pkey ukey : KeyTypeE) : StoreTable ItemDataT where
  primaryKey := pkey
  uniqueKeys := [ukey]
  indexKeys := []
  getKey record keytype :=
    if keytype = ukey then encodeSecondaryKey keytype record.uniqueId
    else encodePrimaryKey pkey record.id
  serialize := .item
  parse := DataV.parseItem
  blank := {}
  id := ItemDataT.id
  setId record id := { record with id := id }
  notfound := ItemDataT.notfound

/-- `LocalDataTable`. -/
def localDataTable : StoreTable ItemDataT := itemTable kLocaldata uLocaldataUniqueid

/-- `WikiDataTable`. -/
def wikiDataTable : StoreTable ItemDataT := itemTable kWikidata uWikidataUniqueid

/-- `TagDataTable`. -/
def tagDataTable : StoreTable TagDataT where
  primaryKey := kTagdata
  uniqueKeys := [uTagdataKeytypeName]
  indexKeys := []
  getKey record keytype :=
    if keytype = uTagdataKeytypeName then encodeSecondaryKeyNum keytype record.keytype record.name
    else encodePrimaryKey kTagdata record.id
  serialize := .tag
  parse := DataV.parseTag
  blank := {}
  id := TagDataT.id
  setId record id := { record with id := id }
  notfound := TagDataT.notfound

/-- `CategoryTable`. -/
def categoryTable : StoreTable CategoryT where
  primaryKey := kCategory
  uniqueKeys := [uCategoryName]
  indexKeys := []
  getKey record keytype :=
    if keytype = uCategoryName then encodeSecondaryKey keytype record.name
    else encodePrimaryKey kCategory record.id
  serialize := .category
  parse := DataV.parseCategory
  blank := {}
  id := CategoryT.id
  setId record id := { record with id := id }
  notfound := CategoryT.notfound

/-! ## One unique key -/

/-- The table has the one unique key `u` and no other index. -/
structure StoreTable.SingleKey {T : Type} (t : StoreTable T) (u : KeyTypeE) : Prop where
  unique : t.uniqueKeys = [u]
  index : t.indexKeys = []
  pkey_range : kNonode < t.primaryKey ∧ t.primaryKey < kLognode
  ukey_range : kMaxnode < u
  primary : ∀ r, t.getKey r t.primaryKey = encodePrimaryKey t.primaryKey (t.id r)
  secondary : ∀ r, ∃ ps, t.getKey r u = .secondary u ps
  id_setId : ∀ r i, t.id (t.setId r i) = i
  key_setId : ∀ r i, t.getKey (t.setId r i) u = t.getKey r u
  parse_serialize : ∀ r, t.parse (t.serialize r) = some r

namespace StoreTable

theorem userTable_singleKey {pkey ukey : Nat} (hp : kNonode < pkey ∧ pkey < kLognode)
    (hu : kMaxnode < ukey) : (userTable pkey ukey).SingleKey ukey := by
  have hne : pkey ≠ ukey := by
    have h1 : pkey < 49 := hp.2
    have h2 : 50 < ukey := hu
    omega
  refine ⟨rfl, rfl, hp, hu, fun r => ?_, fun r => ⟨_, if_pos rfl⟩, fun _ _ => rfl, fun r i => ?_,
    fun _ => rfl⟩
  · simp [userTable, hne]
  · simp [userTable]

theorem itemTable_singleKey {pkey ukey : Nat} (hp : kNonode < pkey ∧ pkey < kLognode)
    (hu : kMaxnode < ukey) : (itemTable pkey ukey).SingleKey ukey := by
  have hne : pkey ≠ ukey := by
    have h1 : pkey < 49 := hp.2
    have h2 : 50 < ukey := hu
    omega
  refine ⟨rfl, rfl, hp, hu, fun r => ?_, fun r => ⟨_, if_pos rfl⟩, fun _ _ => rfl, fun r i => ?_,
    fun _ => rfl⟩
  · simp [itemTable, hne]
  · simp [itemTable]

theorem userDataTable_singleKey : userDataTable.SingleKey uUserdataName :=
  userTable_singleKey (by decide) (by decide)

theorem exterDataTable_singleKey : exterDataTable.SingleKey uExterdataName :=
  userTable_singleKey (by decide) (by decide)

theorem localDataTable_singleKey : localDataTable.SingleKey uLocaldataUniqueid :=
  itemTable_singleKey (by decide) (by decide)

theorem wikiDataTable_singleKey : wikiDataTable.SingleKey uWikidataUniqueid :=
  itemTable_singleKey (by decide) (by decide)

theorem tagDataTable_singleKey : tagDataTable.SingleKey uTagdataKeytypeName :=
  ⟨rfl, rfl, by decide, by decide, fun _ => rfl, fun _ => ⟨_, rfl⟩, fun _ _ => rfl, fun _ _ => rfl,
    fun _ => rfl⟩

theorem categoryTable_singleKey : categoryTable.SingleKey uCategoryName :=
  ⟨rfl, rfl, by decide, by decide, fun _ => rfl, fun _ => ⟨_, rfl⟩, fun _ _ => rfl, fun _ _ => rfl,
    fun _ => rfl⟩

/-! ## Tables in order -/

variable {T : Type} {t : StoreTable T} {u : KeyTypeE}

/-- The node an index row of record `id` holds. -/
def nodeOf (t : StoreTable T) (id : Nat) : NodeT := { keytype := t.primaryKey, id := id }

/-- Index rows and records of a table match: an index row leads to a record that has the key, and a
    record carries its own id and is reached by its index row. -/
structure TableOk (t : StoreTable T) (u : KeyTypeE) (db : DataDb) : Prop where
  index : ∀ k v, db.get k = some v → k.keytype = u →
    ∃ r, v = .node (t.nodeOf (t.id r)) ∧ t.id r ≠ 0 ∧
      db.get (encodePrimaryKey t.primaryKey (t.id r)) = some (t.serialize r) ∧ t.getKey r u = k
  record : ∀ i v, db.get (encodePrimaryKey t.primaryKey i) = some v → i ≠ 0 →
    ∃ r, v = t.serialize r ∧ t.id r = i ∧ db.get (t.getKey r u) = some (.node (t.nodeOf i))

/-- The record a table finds under a unique key. -/
def find (t : StoreTable T) (db : DataDb) (k : Key) : Option T :=
  ((db.get k).bind DataV.parseNode).bind fun node =>
    (db.get (encodePrimaryKey t.primaryKey node.id)).bind t.parse

/-- The rows of a new record. -/
def insertRows (t : StoreTable T) (u : KeyTypeE) (r : T) : List TransItemT :=
  [{ key := t.getKey r u, value := .node (t.nodeOf (t.id r)) },
   { key := encodePrimaryKey t.primaryKey (t.id r), value := t.serialize r }]

/-- The row of a record that is there already and keeps its key. -/
def updateRows (t : StoreTable T) (r : T) : List TransItemT :=
  [{ key := encodePrimaryKey t.primaryKey (t.id r), value := t.serialize r }]

theorem get_write_insertRows (db : DataDb) (r : T) (k : Key) :
    (db.write (dataBatch (t.insertRows u r))).get k =
      if k = encodePrimaryKey t.primaryKey (t.id r) then some (t.serialize r)
      else if k = t.getKey r u then some (.node (t.nodeOf (t.id r)))
      else db.get k := by
  simp only [insertRows, dataBatch, List.map_cons, List.map_nil, Bool.false_eq_true, if_false,
    OrdMap.write_cons, OrdMap.write_nil, OrdMap.get_apply, OrdMap.BatchOp.key,
    OrdMap.BatchOp.result]
  rfl

theorem get_write_updateRows (db : DataDb) (r : T) (k : Key) :
    (db.write (dataBatch (t.updateRows r))).get k =
      if k = encodePrimaryKey t.primaryKey (t.id r) then some (t.serialize r) else db.get k := by
  simp only [updateRows, dataBatch, List.map_cons, List.map_nil, Bool.false_eq_true, if_false,
    OrdMap.write_cons, OrdMap.write_nil, OrdMap.get_apply, OrdMap.BatchOp.key,
    OrdMap.BatchOp.result]
  rfl

namespace SingleKey

variable (ht : t.SingleKey u)

include ht

theorem pkey_ne_ukey : t.primaryKey ≠ u := by
  have hlt : kLognode < kMaxnode := by decide
  exact (ht.pkey_range.2.trans (hlt.trans ht.ukey_range)).ne

theorem keytype_ukey (r : T) : (t.getKey r u).keytype = u := by
  obtain ⟨ps, hps⟩ := ht.secondary r
  rw [hps]
  rfl

theorem ukey_ne_primary (r : T) (kt : KeyTypeE) (i : Nat) :
    t.getKey r u ≠ encodePrimaryKey kt i := by
  obtain ⟨ps, hps⟩ := ht.secondary r
  rw [hps]
  nofun

/-- A record found under a key is the record of its own id, and has the key. -/
theorem find_eq_some {db : DataDb} (hok : TableOk t u db) {k : Key} (hk : k.keytype = u) {r : T} :
    t.find db k = some r ↔
      t.getKey r u = k ∧ t.id r ≠ 0 ∧
        db.get (encodePrimaryKey t.primaryKey (t.id r)) = some (t.serialize r) ∧
        db.get k = some (.node (t.nodeOf (t.id r))) := by
  constructor
  · intro h
    cases hrow : db.get k with
    | none => simp [find, hrow] at h
    | some v =>
      obtain ⟨r', rfl, hid, hget, hkey⟩ := hok.index k v hrow hk
      have hr : r' = r := by
        simpa [find, hrow, DataV.parseNode, nodeOf, hget, ht.parse_serialize] using h
      subst hr
      exact ⟨hkey, hid, hget, rfl⟩
  · rintro ⟨-, -, hget, hrow⟩
    simp [find, hrow, DataV.parseNode, nodeOf, hget, ht.parse_serialize]

theorem find_eq_none {db : DataDb} (hok : TableOk t u db) {k : Key} (hk : k.keytype = u) :
    t.find db k = none ↔ db.get k = none := by
  constructor
  · intro h
    cases hrow : db.get k with
    | none => rfl
    | some v =>
      obtain ⟨r, rfl, -, hget, -⟩ := hok.index k v hrow hk
      simp [find, hrow, DataV.parseNode, nodeOf, hget, ht.parse_serialize] at h
  · intro h
    simp [find, h]

/-- A record that is stored under its id is found under its key. -/
theorem find_of_record {db : DataDb} (hok : TableOk t u db) {r : T} {i : Nat} (hi : i ≠ 0)
    (h : db.get (encodePrimaryKey t.primaryKey i) = some (t.serialize r)) :
    t.id r = i ∧ t.find db (t.getKey r u) = some r := by
  obtain ⟨r', hr', hid, hrow⟩ := hok.record i _ h hi
  have he : r = r' := by
    have := congrArg t.parse hr'
    rwa [ht.parse_serialize, ht.parse_serialize, Option.some.injEq] at this
  subst he
  refine ⟨hid, (ht.find_eq_some hok (ht.keytype_ukey r)).mpr ⟨rfl, hid ▸ hi, ?_, ?_⟩⟩
  · rw [hid]
    exact h
  · rw [hid]
    exact hrow

/-- **`GetOne`** by the unique key of a table in order. -/
theorem getOne_unique {db : DataDb} (hok : TableOk t u db) (q : T) :
    t.getOne db q u =
      match t.find db (t.getKey q u) with
      | none => .ok (false, q)
      | some r => .ok (true, r) := by
  have hk := ht.keytype_ukey q
  have hmem : u ∈ t.uniqueKeys ∨ u ∈ t.indexKeys := Or.inl (by rw [ht.unique]; simp)
  rw [getOne, if_neg (Ne.symm ht.pkey_ne_ukey), if_pos hmem]
  cases hf : t.find db (t.getKey q u) with
  | none => rw [(ht.find_eq_none hok hk).mp hf]; rfl
  | some r =>
    obtain ⟨-, -, hget, hrow⟩ := (ht.find_eq_some hok hk).mp hf
    simp only [hrow, Option.bind_some, DataV.parseNode, nodeOf, readPrimary, ht.primary,
      ht.id_setId, hget, ht.parse_serialize]

theorem getOne_primary {db : DataDb} (hok : TableOk t u db) {i : Nat} (hi : i ≠ 0) :
    (db.get (encodePrimaryKey t.primaryKey i) = none ∧
        t.getOne db (t.setId t.blank i) t.primaryKey = .ok (false, t.setId t.blank i)) ∨
      ∃ r, db.get (encodePrimaryKey t.primaryKey i) = some (t.serialize r) ∧ t.id r = i ∧
        t.getOne db (t.setId t.blank i) t.primaryKey = .ok (true, r) := by
  have hread : ∀ x, db.get (encodePrimaryKey t.primaryKey i) = x →
      t.getOne db (t.setId t.blank i) t.primaryKey =
        match x with
        | none => .ok (false, t.setId t.blank i)
        | some value =>
          match t.parse value with
          | none => badData "Record cannot be parsed"
          | some r => .ok (true, r) := by
    rintro x rfl
    rw [getOne, if_pos rfl, readPrimary, ht.primary, ht.id_setId]
  cases hrow : db.get (encodePrimaryKey t.primaryKey i) with
  | none => exact Or.inl ⟨rfl, hread _ hrow⟩
  | some v =>
    obtain ⟨r, rfl, hid, -⟩ := hok.record i v hrow hi
    refine Or.inr ⟨r, rfl, hid, ?_⟩
    rw [hread _ hrow]
    simp only [ht.parse_serialize]

/-- **`AddRecord`** of a record that the table finds under the record's own key and id: the record's
    row, and no index row. -/
theorem addRecord_update {db : DataDb} (hok : TableOk t u db) {r old : T}
    (hold : t.find db (t.getKey r u) = some old) (hid : t.id r = t.id old)
    (items : List TransItemT) :
    t.addRecord db r items true =
      .ok (if t.notfound r = false then some (items ++ t.updateRows r) else none) := by
  obtain ⟨hkey, hpos, hget, hrow⟩ := (ht.find_eq_some hok (ht.keytype_ukey r)).mp hold
  rcases ht.getOne_primary hok (hid ▸ hpos : t.id r ≠ 0) with ⟨hnone, -⟩ | ⟨r', hr', -, hone⟩
  · rw [hid, hget] at hnone
    cases hnone
  · have he : r' = old := by
      rw [hid, hget, Option.some.injEq] at hr'
      have := congrArg t.parse hr'
      rwa [ht.parse_serialize, ht.parse_serialize, Option.some.injEq, eq_comm] at this
    subst he
    have hclash : t.clashes db r u = false := by
      simp [clashes, getSecondaryValue, ht.unique, hrow, DataV.parseNode, nodeOf, hid]
    have hne : t.id r ≠ 0 := hid ▸ hpos
    cases hnf : t.notfound r with
    | true => simp [addRecord, hnf]
    | false =>
      simp only [addRecord, hnf, Bool.false_eq_true, if_false, hne, hone, bind, Except.bind,
        Bool.not_true, Bool.and_false, ht.unique, List.any_cons, hclash, List.any_nil,
        Bool.or_false, ht.index, List.append_nil, List.flatMap_cons, List.flatMap_nil, if_true,
        indexRows, hkey, ne_eq, not_true_eq_false, pure, Except.pure, updateRows, ht.primary]

/-- **`AddRecord`** of a record as a new one: accepted exactly when neither its id nor its key is
    taken, and then the index row and the record's row. -/
theorem addRecord_insert {db : DataDb} (hok : TableOk t u db) {r : T} (items : List TransItemT) :
    t.addRecord db r items false =
      .ok (if t.notfound r = false ∧ t.id r ≠ 0 ∧
          db.get (encodePrimaryKey t.primaryKey (t.id r)) = none ∧ db.get (t.getKey r u) = none
        then some (items ++ t.insertRows u r) else none) := by
  cases hnf : t.notfound r with
  | true => simp [addRecord, hnf]
  | false =>
    by_cases h0 : t.id r = 0
    · simp [addRecord, hnf, h0]
    · rcases ht.getOne_primary hok h0 with ⟨hnone, hone⟩ | ⟨r', hr', -, hone⟩
      · cases hrow : db.get (t.getKey r u) with
        | none =>
          have hclash : t.clashes db r u = false := by
            simp [clashes, getSecondaryValue, ht.unique, hrow]
          simp only [addRecord, hnf, Bool.false_eq_true, if_false, h0, hone, bind, Except.bind,
            Bool.not_false, Bool.and_true, ht.unique, List.any_cons, hclash, List.any_nil,
            Bool.or_false, ht.index, List.append_nil, List.flatMap_cons, List.flatMap_nil, indexRows,
            hnone, ne_eq, not_false_eq_true, and_self, if_true, pure, Except.pure, insertRows, nodeOf,
            ht.primary, List.append_assoc, List.cons_append, List.nil_append]
        | some v =>
          obtain ⟨r', rfl, -, hget, -⟩ := hok.index _ v hrow (ht.keytype_ukey r)
          have hclash : t.clashes db r u = true := by
            have hne : t.id r ≠ t.id r' := by
              intro he
              rw [← he, hnone] at hget
              cases hget
            simp [clashes, getSecondaryValue, ht.unique, hrow, DataV.parseNode, nodeOf, hne]
          simp only [addRecord, hnf, Bool.false_eq_true, if_false, h0, hone, bind, Except.bind,
            Bool.not_false, Bool.and_true, ht.unique, List.any_cons, hclash, Bool.true_or, if_true,
            reduceCtorEq, and_false, pure, Except.pure]
      · simp only [addRecord, hnf, Bool.false_eq_true, if_false, h0, hone, bind, Except.bind,
          Bool.not_false, Bool.and_true, if_true, hr', reduceCtorEq, false_and, and_false, pure,
          Except.pure]

/-! ## Writing the rows -/

/-- A table depends only on the rows of its two key types. -/
theorem tableOk_congr {db db' : DataDb} (hok : TableOk t u db)
    (h : ∀ k, k.keytype = t.primaryKey ∨ k.keytype = u → db'.get k = db.get k) :
    TableOk t u db' := by
  have hp : ∀ i, db'.get (encodePrimaryKey t.primaryKey i) =
      db.get (encodePrimaryKey t.primaryKey i) := fun i => h _ (Or.inl rfl)
  refine ⟨fun k v hv hk => ?_, fun i v hv hi => ?_⟩
  · rw [h k (Or.inr hk)] at hv
    obtain ⟨r, h1, h2, h3, h4⟩ := hok.index k v hv hk
    exact ⟨r, h1, h2, (hp _).trans h3, h4⟩
  · rw [hp] at hv
    obtain ⟨r, h1, h2, h3⟩ := hok.record i v hv hi
    exact ⟨r, h1, h2, (h _ (Or.inr (ht.keytype_ukey r))).trans h3⟩

omit ht in
theorem find_congr {db db' : DataDb} {k : Key} (hk : k.keytype = u)
    (h : ∀ k, k.keytype = t.primaryKey ∨ k.keytype = u → db'.get k = db.get k) :
    t.find db' k = t.find db k := by
  have hp : ∀ i, db'.get (encodePrimaryKey t.primaryKey i) =
      db.get (encodePrimaryKey t.primaryKey i) := fun i => h _ (Or.inl rfl)
  simp only [find, h k (Or.inr hk), hp]

/-- The tables of a new node are in order: its only rows are the fences. -/
theorem tableOk_freshDb : TableOk t u freshDb := by
  have hrow : ∀ k v, freshDb.get k = some v → ∃ kt, kt ≤ kMaxnode ∧ k = encodePrimaryKey kt 0 := by
    intro k v hv
    rw [get_freshDb] at hv
    split at hv
    · rename_i hf
      obtain ⟨kt, hmem, hk⟩ := (isFence_iff k).mp hf
      refine ⟨kt, ?_, hk⟩
      have hlt : kt < kMaxnode + 1 := (List.mem_range'_1.mp hmem).2
      exact Nat.lt_succ_iff.mp hlt
    · cases hv
  refine ⟨fun k v hv hk => ?_, fun i v hv hi => ?_⟩
  · obtain ⟨kt, hkt, rfl⟩ := hrow k v hv
    exact absurd hk (hkt.trans_lt ht.ukey_range).ne
  · obtain ⟨kt, -, hk⟩ := hrow _ v hv
    simp [encodePrimaryKey, hi] at hk

/-- Writing a record again under the key and id it has keeps the table in order. -/
theorem tableOk_update {db : DataDb} (hok : TableOk t u db) {r old : T}
    (hold : t.find db (t.getKey r u) = some old) (hid : t.id r = t.id old) :
    TableOk t u (db.write (dataBatch (t.updateRows r))) := by
  obtain ⟨hkey, hpos, hget, hrow⟩ := (ht.find_eq_some hok (ht.keytype_ukey r)).mp hold
  have hidx : ∀ k, k.keytype = u →
      (db.write (dataBatch (t.updateRows r))).get k = db.get k := by
    intro k hk
    rw [get_write_updateRows, if_neg]
    rintro rfl
    exact ht.pkey_ne_ukey hk
  refine ⟨fun k v hv hk => ?_, fun i v hv hi => ?_⟩
  · rw [hidx k hk] at hv
    obtain ⟨r', rfl, hpos', hget', hkey'⟩ := hok.index k v hv hk
    by_cases he : t.id r' = t.id r
    · -- the record written is the one the row leads to
      have hkr : k = t.getKey r u := by
        have : r' = old := by
          rw [he, hid, hget, Option.some.injEq] at hget'
          have := congrArg t.parse hget'
          rwa [ht.parse_serialize, ht.parse_serialize, Option.some.injEq, eq_comm] at this
        rw [← hkey', this, hkey]
      refine ⟨r, by rw [he], he ▸ hpos', ?_, hkr.symm⟩
      rw [get_write_updateRows, if_pos rfl]
    · refine ⟨r', rfl, hpos', ?_, hkey'⟩
      rw [get_write_updateRows, if_neg]
      · exact hget'
      · exact fun h => he (by simpa [encodePrimaryKey] using h)
  · rw [get_write_updateRows] at hv
    by_cases he : i = t.id r
    · subst he
      rw [if_pos rfl, Option.some.injEq] at hv
      refine ⟨r, hv.symm, rfl, ?_⟩
      rw [hidx _ (ht.keytype_ukey r), hrow, hid]
    · rw [if_neg (fun h => he (by simpa [encodePrimaryKey] using h))] at hv
      obtain ⟨r', h1, h2, h3⟩ := hok.record i v hv hi
      exact ⟨r', h1, h2, (hidx _ (ht.keytype_ukey r')).trans h3⟩

/-- Writing a new record under a free id and a free key keeps the table in order. -/
theorem tableOk_insert {db : DataDb} (hok : TableOk t u db) {r : T} (hpos : t.id r ≠ 0)
    (hfree : db.get (encodePrimaryKey t.primaryKey (t.id r)) = none)
    (hname : db.get (t.getKey r u) = none) :
    TableOk t u (db.write (dataBatch (t.insertRows u r))) := by
  have hp : ∀ i, (db.write (dataBatch (t.insertRows u r))).get (encodePrimaryKey t.primaryKey i) =
      if i = t.id r then some (t.serialize r)
      else db.get (encodePrimaryKey t.primaryKey i) := by
    intro i
    rw [get_write_insertRows, if_neg (Ne.symm (ht.ukey_ne_primary r _ _))]
    by_cases hi : i = t.id r
    · rw [if_pos (by rw [hi]), if_pos hi]
    · rw [if_neg (fun h => hi (by simpa [encodePrimaryKey] using h)), if_neg hi]
  have hidx : ∀ k, k.keytype = u → (db.write (dataBatch (t.insertRows u r))).get k =
      if k = t.getKey r u then some (.node (t.nodeOf (t.id r))) else db.get k := by
    intro k hk
    rw [get_write_insertRows, if_neg]
    rintro rfl
    exact ht.pkey_ne_ukey hk
  refine ⟨fun k v hv hk => ?_, fun i v hv hi => ?_⟩
  · rw [hidx k hk] at hv
    by_cases hkr : k = t.getKey r u
    · rw [if_pos hkr, Option.some.injEq] at hv
      exact ⟨r, hv.symm, hpos, by rw [hp, if_pos rfl], hkr.symm⟩
    · rw [if_neg hkr] at hv
      obtain ⟨r', rfl, hpos', hget', hkey'⟩ := hok.index k v hv hk
      refine ⟨r', rfl, hpos', ?_, hkey'⟩
      rw [hp, if_neg]
      · exact hget'
      · intro he
        rw [he, hfree] at hget'
        cases hget'
  · rw [hp] at hv
    by_cases he : i = t.id r
    · rw [if_pos he, Option.some.injEq] at hv
      exact ⟨r, hv.symm, he.symm, by rw [hidx _ (ht.keytype_ukey r), if_pos rfl, he]⟩
    · rw [if_neg he] at hv
      obtain ⟨r', h1, h2, h3⟩ := hok.record i v hv hi
      refine ⟨r', h1, h2, ?_⟩
      rw [hidx _ (ht.keytype_ukey r'), if_neg]
      · exact h3
      · intro hk
        rw [hk, hname] at h3
        cases h3

/-- What the table finds after writing a record again. -/
theorem find_update {db : DataDb} (hok : TableOk t u db) {r old : T}
    (hold : t.find db (t.getKey r u) = some old) (hid : t.id r = t.id old) {k : Key}
    (hk : k.keytype = u) :
    t.find (db.write (dataBatch (t.updateRows r))) k =
      if k = t.getKey r u then some r else t.find db k := by
  have hok' := ht.tableOk_update hok hold hid
  obtain ⟨-, hpos, -, hrow⟩ := (ht.find_eq_some hok (ht.keytype_ukey r)).mp hold
  have hidx : (db.write (dataBatch (t.updateRows r))).get k = db.get k := by
    rw [get_write_updateRows, if_neg]
    rintro rfl
    exact ht.pkey_ne_ukey hk
  by_cases hkr : k = t.getKey r u
  · rw [if_pos hkr, ht.find_eq_some hok' hk]
    refine ⟨hkr.symm, hid ▸ hpos, ?_, ?_⟩
    · rw [get_write_updateRows, if_pos rfl]
    · rw [hidx, hkr, hrow, hid]
  · rw [if_neg hkr]
    cases hf : t.find db k with
    | none =>
      rw [ht.find_eq_none hok' hk, hidx]
      exact (ht.find_eq_none hok hk).mp hf
    | some r' =>
      obtain ⟨hkey', hpos', hget', hrow'⟩ := (ht.find_eq_some hok hk).mp hf
      refine (ht.find_eq_some hok' hk).mpr ⟨hkey', hpos', ?_, hidx.trans hrow'⟩
      rw [get_write_updateRows, if_neg]
      · exact hget'
      · -- one id has one key
        intro he
        have hii : t.id r' = t.id old := by
          simpa [encodePrimaryKey, hid] using he
        obtain ⟨hkeyo, -, hgeto, -⟩ := (ht.find_eq_some hok (ht.keytype_ukey r)).mp hold
        rw [hii, hgeto, Option.some.injEq] at hget'
        have := congrArg t.parse hget'
        rw [ht.parse_serialize, ht.parse_serialize, Option.some.injEq] at this
        exact hkr (by rw [← hkey', ← this, hkeyo])

/-- What the table finds after writing a new record. -/
theorem find_insert {db : DataDb} (hok : TableOk t u db) {r : T} (hpos : t.id r ≠ 0)
    (hfree : db.get (encodePrimaryKey t.primaryKey (t.id r)) = none)
    (hname : db.get (t.getKey r u) = none) {k : Key} (hk : k.keytype = u) :
    t.find (db.write (dataBatch (t.insertRows u r))) k =
      if k = t.getKey r u then some r else t.find db k := by
  have hok' := ht.tableOk_insert hok hpos hfree hname
  have hne : ∀ i, k ≠ encodePrimaryKey t.primaryKey i := by
    rintro i rfl
    exact ht.pkey_ne_ukey hk
  have hne' : ∀ i, encodePrimaryKey t.primaryKey i ≠ t.getKey r u := fun i =>
    Ne.symm (ht.ukey_ne_primary r _ _)
  by_cases hkr : k = t.getKey r u
  · rw [if_pos hkr, ht.find_eq_some hok' hk]
    refine ⟨hkr.symm, hpos, ?_, ?_⟩
    · rw [get_write_insertRows, if_pos rfl]
    · rw [get_write_insertRows, if_neg (hne _), if_pos hkr]
  · rw [if_neg hkr]
    cases hf : t.find db k with
    | none =>
      rw [ht.find_eq_none hok' hk, get_write_insertRows, if_neg (hne _), if_neg hkr]
      exact (ht.find_eq_none hok hk).mp hf
    | some r' =>
      obtain ⟨hkey', hpos', hget', hrow'⟩ := (ht.find_eq_some hok hk).mp hf
      refine (ht.find_eq_some hok' hk).mpr ⟨hkey', hpos', ?_, ?_⟩
      · rw [get_write_insertRows, if_neg, if_neg (hne' _)]
        · exact hget'
        · intro he
          rw [he, hfree] at hget'
          cases hget'
      · rw [get_write_insertRows, if_neg (hne _), if_neg hkr]
        exact hrow'

end SingleKey

end StoreTable

end Zapdos.Store
