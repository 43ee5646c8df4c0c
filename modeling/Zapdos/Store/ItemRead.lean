/-
  Reading items — `ItemDataService::ReadData` and `ReadDataAction`, over
  `UserCredService::ValidateUserCategories`.

  A read puts its reader into a class.  A user is of the class `R_USER` when one of the categories
  HANDED OVER is a category of the user; `ReadData` hands over the categories of the payload.

  The categories of a user are looked up in the cache, one entry for each of them with the time stamp
  of the user; an entry with another time stamp does not count.
-/
import Zapdos.Store.ReadAccess

namespace Zapdos.Store

open Zapdos.Lib

/-- The key of the cache entry for a category of a user. -/
def categoryKey (name category : Bytes) : Key :=
  .secondary fUserdataNameCategory [.text name, .text category]

/-- `ValidateUserCategories`: the verdict, the user, and the cache it leaves. -/
def validateUserCategories (st : SharedTable) (data : UserDataT) (categories : List Bytes) :
    Except Exc (Bool × UserDataT × SharedTable) := do
  -- puts in cache if not already
  let (data, st) ← if data.id = 0 then userCredGet st data else pure (data, st)
  if data.notfound || data.isDeleted then pure (false, data, st)
  else
    let found := categories.any fun category =>
      decide (st.dbcache.get (categoryKey data.name category) = some (.tsText data.updatedAt))
    pure (found, data, st)

namespace ItemDataService

/-- `ZPDS_READID_*`: the classes that may see a group of an item, the same for all groups. -/
def readid : Nat :=
  readrIsAdmin ||| readrIsCreatr ||| readrIsExter ||| readrIsUser ||| readrIsPublic

/-- The class of a reader of an item, for the payload `data` and the stored record `cdata`; the
    reader and the cache go along. -/
def readerType (st : SharedTable) (reader : UserDataT) (cdata data : ItemDataT) :
    Except Exc (ReaderTypeE × UserDataT × SharedTable) :=
  if reader.isAdmin then .ok (.rAdmin, reader, st)
  else if reader.keytype = kExterdata ∧ reader.name = cdata.manager then
    .ok (.rCreatr, reader, st)
  else if reader.keytype = kExterdata then .ok (.rOther, reader, st)
  else if reader.keytype = kUserdata then do
    let (valid, reader, st) ← validateUserCategories st reader data.categories
    pure (if valid then .rUser else .rPublic, reader, st)
  else .ok (.rPublic, reader, st)

/-- The copies `ReadData` makes, in its order. -/
def readParts : List (ReadPart ItemDataT) :=
  [{ bit := idfldCategory, mask := readid
     copy := fun cdata data => { data with categories := cdata.categories } },
   { bit := idfldOrigin, mask := readid
     copy := fun cdata data => { data with origin := cdata.origin } },
   { bit := idfldTags, mask := readid
     copy := fun cdata data => { data with tags := data.tags ++ readTags cdata.tags } },
   { bit := idfldTextfields, mask := readid
     copy := fun cdata data =>
       { data with title := cdata.title, summary := cdata.summary, details := cdata.details } },
   { bit := idfldLanguage, mask := readid
     copy := fun cdata data => { data with lang := cdata.lang } },
   { bit := idfldCansee, mask := readid
     copy := fun cdata data => { data with canseeType := cdata.canseeType } },
   { bit := idfldImages, mask := readid
     copy := fun cdata data =>
       { data with
         thumbnail := cdata.thumbnail, poster := cdata.poster, posters := cdata.posters,
         landscape := cdata.landscape } },
   { bit := idfldContacts, mask := readid
     copy := fun cdata data => { data with contacts := cdata.contacts } },
   { bit := idfldParent, mask := readid
     copy := fun cdata data => { data with parent := cdata.parent } },
   { bit := idfldAlias, mask := readid
     copy := fun cdata data => { data with aliasOf := cdata.aliasOf } },
   { bit := idfldImportance, mask := readid
     copy := fun cdata data => { data with importance := cdata.importance } },
   { bit := idfldRating, mask := readid
     copy := fun cdata data => { data with rating := cdata.rating } },
   { bit := idfldGeometry, mask := readid
     copy := fun cdata data => { data with geometry := cdata.geometry } },
   { bit := idfldLocalfields, mask := readid
     copy := fun cdata data =>
       { data with
         ccode := cdata.ccode, scode := cdata.scode, city := cdata.city,
         country := cdata.country, state := cdata.state, fldName := cdata.fldName,
         fldArea := cdata.fldArea, address := cdata.address, pincode := cdata.pincode,
         region := cdata.region, accuracy := cdata.accuracy, lat := cdata.lat, lon := cdata.lon,
         location := cdata.location, landmark := cdata.landmark,
         localName := cdata.localName } },
   { bit := idfldOsmfields, mask := readid
     copy := fun cdata data =>
       { data with
         osmId := cdata.osmId, osmKey := cdata.osmKey, osmValue := cdata.osmValue,
         osmType := cdata.osmType } }]

/-- `ReadData`. -/
def readData (t : StoreTable ItemDataT) (ukey : KeyTypeE) (st : SharedTable) (reader : UserDataT)
    (data : ItemDataT) (fields : Nat) : Except Exc (ItemDataT × UserDataT × SharedTable) :=
  if data.uniqueId = [] then badData "unique_id is needed" mInvalidParam
  else do
    let (found, cdata) ← t.getOne st.maindb { uniqueId := data.uniqueId } ukey
    if !found then pure ({ data with notfound := true }, reader, st)
    else do
      let (rtype, reader, st) ← readerType st reader cdata data
      pure (readFields fields (readerTypeFilter rtype) cdata readParts data, reader, st)

/-- The loop of `ReadDataAction` over the payloads; one without a unique id is left alone. -/
def readPayloads (t : StoreTable ItemDataT) (ukey : KeyTypeE) (fields : Nat) :
    List ItemDataT → UserDataT → SharedTable →
      Except Exc (List ItemDataT × Nat × UserDataT × SharedTable)
  | [], reader, st => .ok ([], 0, reader, st)
  | rdata :: payloads, reader, st =>
    if rdata.uniqueId = [] then do
      let (rs, n, reader, st) ← readPayloads t ukey fields payloads reader st
      pure (rdata :: rs, n, reader, st)
    else do
      let (rdata, reader, st) ← readData t ukey st reader rdata fields
      let (rs, n, reader, st) ← readPayloads t ukey fields payloads reader st
      pure (rdata :: rs, (if rdata.notfound then 0 else 1) + n, reader, st)

/-- `ReadDataAction`: the payloads, the single one first, and the number of records found. -/
def readDataAction (t : StoreTable ItemDataT) (ukey : KeyTypeE) (allowedFields : Nat → Nat)
    (decode : Decode) (currtime : Nat) (st : SharedTable) (resp : RespT ItemDataT) :
    SharedTable × Except Exc (List ItemDataT × Nat) :=
  let fields := allowedFields resp.fields
  let reader : UserDataT :=
    { name := resp.username, sessionkey := resp.sessionkey, keytype := resp.keytype }
  match checkSession decode currtime st reader false with
  | (st, .error e) => (st, .error e)
  | (st, .ok none) => (st, badData "Invalid reader or Invalid session" mInvalidParam)
  | (st, .ok (some reader)) =>
    match readPayloads t ukey fields (resp.payload :: resp.payloads) reader st with
    | .error e => (st, .error e)
    | .ok (rs, n, _, st) => (st, .ok (rs, n))

/-! ## A reader with an id -/

/-- A reader whose record is there is not looked up again. -/
theorem validateUserCategories_eq {st : SharedTable} {data : UserDataT} (hid : data.id ≠ 0)
    (hfound : data.notfound = false) (categories : List Bytes) :
    validateUserCategories st data categories =
      .ok (decide (data.isDeleted = false ∧ ∃ category ∈ categories,
        st.dbcache.get (categoryKey data.name category) = some (.tsText data.updatedAt)),
        data, st) := by
  simp only [validateUserCategories, if_neg hid, pure, Except.pure, bind, Except.bind, hfound,
    Bool.false_or]
  cases hdel : data.isDeleted with
  | true => simp
  | false =>
    simp only [Bool.false_eq_true, if_false, true_and, Except.ok.injEq, Prod.mk.injEq, and_true]
    rw [Bool.eq_iff_iff, List.any_eq_true]
    simp

/-- **The class of a user** who is no admin: it is decided by the categories of the payload. -/
theorem readerType_user {st : SharedTable} {reader : UserDataT} (hadmin : reader.isAdmin = false)
    (hkt : reader.keytype = kUserdata) (hid : reader.id ≠ 0) (hfound : reader.notfound = false)
    (cdata data : ItemDataT) :
    readerType st reader cdata data =
      .ok (if reader.isDeleted = false ∧ ∃ category ∈ data.categories,
          st.dbcache.get (categoryKey reader.name category) = some (.tsText reader.updatedAt)
        then .rUser else .rPublic, reader, st) := by
  have hexter : ¬ reader.keytype = kExterdata := by
    rw [hkt]
    decide
  rw [readerType, hadmin, if_neg Bool.false_ne_true, if_neg fun h => hexter h.1, if_neg hexter,
    if_pos hkt, validateUserCategories_eq hid hfound]
  simp only [bind, Except.bind, pure, Except.pure, decide_eq_true_eq]

end ItemDataService

end Zapdos.Store
