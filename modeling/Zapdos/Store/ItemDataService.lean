/-
  `ItemDataService` — items, with its two children `LocalDataService` and `WikiDataService`.
-/
import Mathlib.Algebra.Ring.Rat
import Zapdos.Store.ManageData

namespace Zapdos.Store.ItemDataService

open Zapdos.Lib

/-- The permissions of an updater on an item. -/
def itemPerms (updater : ExterDataT) (cdata : ItemDataT) (found : Bool) (action : Nat) : Nat :=
  if updater.isAdmin then writrIsAdmin
  else if updater.canAddItems then
    if !found && (action == uactionCreate || action == uactionUpsert) then writrCreating
    else if found && (action == uactionUpsert || action == uactionUpdate) &&
        decide (updater.name = cdata.manager) then writrUpdating
    else if found && (action == uactionDelete) && decide (updater.name = cdata.manager) then
      writrDeleting
    else 0
  else 0

/-- The fields `PrepareData` modifies, in its order. -/
def fieldParts (env : PrepEnv) (db : DataDb) (keytype : KeyTypeE) (merge : Bool) :
    List (FieldPart ItemDataT) :=
  [{ bit := idfldCategory, mask := wrtpid
     set := fun data cdata => do
       let categories ← handleUserCategories env.categoryGet data.categories cdata.categories merge
       pure { cdata with categories := categories } },
   { bit := idfldOrigin, mask := wrtpid
     set := fun data cdata =>
       .ok { cdata with origin := handleString merge data.origin cdata.origin } },
   { bit := idfldTags, mask := wrtpid
     set := fun data cdata => do
       let tags ← handleUserTags env.tagGet data.tags cdata.tags [keytype] merge
       pure { cdata with tags := tags } },
   { bit := idfldTextfields, mask := wrtpid
     set := fun data cdata => .ok { cdata with
       title := handleString merge data.title cdata.title
       summary := handleString merge data.summary cdata.summary
       details := handleString merge data.details cdata.details } },
   { bit := idfldLanguage, mask := wrtpid
     set := fun data cdata => .ok { cdata with lang := handleNumber merge data.lang cdata.lang } },
   { bit := idfldCansee, mask := wrtpid
     set := fun data cdata =>
       .ok { cdata with canseeType := handleNumber merge data.canseeType cdata.canseeType } },
   { bit := idfldImages, mask := wrtpid
     set := fun data cdata => .ok { cdata with
       thumbnail := handleString merge data.thumbnail cdata.thumbnail
       poster := handleString merge data.poster cdata.poster
       landscape := handleString merge data.landscape cdata.landscape
       posters := handleStrings data.posters cdata.posters merge } },
   { bit := idfldContacts, mask := wrtpid
     set := fun data cdata => do
       let contacts ← handleContacts data.contacts cdata.contacts merge
       pure { cdata with contacts := contacts } },
   { bit := idfldParent, mask := wrtpid
     set := fun data cdata => do
       let parent ← handleAnother db data.parent cdata.parent merge
       pure { cdata with parent := parent } },
   { bit := idfldAlias, mask := wrtpid
     set := fun data cdata => do
       let aliasOf ← handleAnother db data.aliasOf cdata.aliasOf merge
       pure { cdata with aliasOf := aliasOf } },
   { bit := idfldImportance, mask := wrtpid
     set := fun data cdata =>
       .ok { cdata with importance := handleNumber merge data.importance cdata.importance } },
   { bit := idfldRating, mask := wrtpid
     set := fun data cdata =>
       .ok { cdata with rating := handleNumber merge data.rating cdata.rating } },
   { bit := idfldGeometry, mask := wrtpid
     set := fun data cdata =>
       .ok { cdata with geometry := handleString merge data.geometry cdata.geometry } },
   { bit := idfldLocalfields, mask := wrtpid
     set := fun data cdata => .ok { cdata with
       ccode := handleString merge data.ccode cdata.ccode
       scode := handleString merge data.scode cdata.scode
       city := handleString merge data.city cdata.city
       country := handleString merge data.country cdata.country
       state := handleString merge data.state cdata.state
       fldName := handleString merge data.fldName cdata.fldName
       fldArea := handleString merge data.fldArea cdata.fldArea
       address := handleString merge data.address cdata.address
       pincode := handleString merge data.pincode cdata.pincode
       region := handleString merge data.region cdata.region
       accuracy := handleNumber merge data.accuracy cdata.accuracy
       lat := handleNumber merge data.lat cdata.lat
       lon := handleNumber merge data.lon cdata.lon
       location := handleString merge data.location cdata.location
       landmark := handleString merge data.landmark cdata.landmark
       localName := handleString merge data.localName cdata.localName } },
   { bit := idfldOsmfields, mask := wrtpid
     set := fun data cdata => .ok { cdata with
       osmId := handleNumber merge data.osmId cdata.osmId
       osmKey := handleString merge data.osmKey cdata.osmKey
       osmValue := handleString merge data.osmValue cdata.osmValue
       osmType := handleString merge data.osmType cdata.osmType
       attr := handleUserAttr data.attr cdata.attr merge } }]

/-- The texts of the checks on the action. -/
def actionTexts : ActionTexts where
  exist := "Item Data already exists, cannot create"
  noUpdate := "Item Data doesnot exist, cannot update"
  noDelete := "Item Data doesnot exist, cannot delete"
  locked := "Item Data is locked, cannot edit"

/-- The record of a delete: the stored one with the three flags of the request. -/
def deleted (data cdata : ItemDataT) : ItemDataT :=
  { cdata with isDeleted := data.isDeleted, expired := data.expired, locked := data.locked }

/-- A stored item remembers its origin and categories before they change. -/
def rememberOld (found : Bool) (cdata : ItemDataT) : ItemDataT :=
  if found then
    { cdata with olddata := { origin := cdata.origin, categories := cdata.categories } }
  else cdata

/-- The record after the assignments; a new one is marked as found. -/
def assigned (found : Bool) (action : Nat) (cdata : ItemDataT) : ItemDataT :=
  if !found && (action == uactionCreate || action == uactionUpsert) then
    { cdata with notfound := false }
  else cdata

/-- The part of `PrepareData` after the stored record is read. -/
def prepareFound (env : PrepEnv) (db : DataDb) (keytype : KeyTypeE) (updater : ExterDataT)
    (data : ItemDataT) (action fields : Nat) (merge : Bool) (found : Bool) (cdata : ItemDataT) :
    Except Exc (Bool × ItemDataT) := do
  checkAction actionTexts updater.isAdmin found cdata.locked action
  let perms := itemPerms updater cdata found action
  -- the permissions are not tested here: the mask alone is the condition
  if action = uactionDelete ∧ writrIsAdmin ||| writrDeleting ≠ 0 then
    pure (found, deleted data cdata)
  else
    let cdata ← setFields fields perms data (fieldParts env db keytype merge)
      (rememberOld found cdata)
    pure (found, assigned found action cdata)

/-- `PrepareData`, for a table of items. -/
def prepareData (t : StoreTable ItemDataT) (ukey : KeyTypeE) (env : PrepEnv) (db : DataDb)
    (updater : ExterDataT) (data : ItemDataT) (action fields : Nat) (merge : Bool) :
    Except Exc (Bool × ItemDataT) :=
  if updater.id = 0 then badData "Updater cannot be found" mInvalidParam
  else if data.uniqueId = [] then badData "Unique ID needed" mInvalidParam
  else do
    -- `GetOneRecord`, by the unique id as that is not empty
    let (found, cdata) ← t.getOne db { uniqueId := data.uniqueId } ukey
    prepareFound env db t.primaryKey updater data action fields merge found cdata

/-- What the loop of items checks first. -/
def checkUniqueId (rdata : ItemDataT) : Except Exc Unit :=
  if rdata.uniqueId = [] then badData "unique_id cannot be empty" mInvalidParam else .ok ()

/-- The last fields of an item. -/
def fillRecord (m : Manage) (_ : ItemDataT) (found : Bool) (id : Nat) (rdata : ItemDataT) :
    ItemDataT :=
  let rdata := if found then rdata
    else { rdata with manager := m.updater.name, id := id, createdAt := m.currtime }
  { rdata with updatedAt := m.currtime }

/-- What is particular to items of one table. -/
def service (t : StoreTable ItemDataT) (ukey : KeyTypeE) : Service ItemDataT where
  table := t
  ukey := ukey
  readFirst := true
  check := checkUniqueId
  prepare env db m data := prepareData t ukey env db m.updater data m.action m.fields m.merge
  keytype := t.primaryKey
  reserved := ItemDataT.uniqueId
  duplicateMsg := "Duplicate unique_id found: "
  busyMsg := "This unique_id is being worked on: "
  mayInsert _ := .ok ()
  fill := fillRecord
  insertMsg := "Cannot Insert item data"

/-- The head of the action. -/
def head (allowedFields : Nat → Nat) : ActionHead ItemDataT where
  masterMsg := "ItemData change is master only"
  sessionMsg := "Invalid user login or Invalid session"
  allowedFields := allowedFields
  updaterKeytype _ := kExterdata
  onlyadmin := true
  checkUpdater _ := .ok ()
  payloadName := ItemDataT.uniqueId

/-- `LocalDataService`. -/
def localService : Service ItemDataT := service localDataTable uLocaldataUniqueid

/-- `WikiDataService`. -/
def wikiService : Service ItemDataT := service wikiDataTable uWikidataUniqueid

/-- `ManageDataAction` of local data. -/
def localManageDataAction (env : ActionEnv) (st : SharedTable) (resp : RespT ItemDataT) :
    ActionOut ItemDataT :=
  manageDataAction (head localAllowedFieldsFilter) localService env st resp

/-- `ManageDataAction` of wiki data. -/
def wikiManageDataAction (env : ActionEnv) (st : SharedTable) (resp : RespT ItemDataT) :
    ActionOut ItemDataT :=
  manageDataAction (head wikiAllowedFieldsFilter) wikiService env st resp

/-- What no part of an item changes. -/
def SameItem (a b : ItemDataT) : Prop :=
  b.id = a.id ∧ b.uniqueId = a.uniqueId ∧ b.manager = a.manager ∧ b.notfound = a.notfound

theorem SameItem.refl (a : ItemDataT) : SameItem a a := ⟨rfl, rfl, rfl, rfl⟩

theorem SameItem.trans {a b c : ItemDataT} (h : SameItem a b) (h' : SameItem b c) :
    SameItem a c :=
  ⟨h'.1.trans h.1, h'.2.1.trans h.2.1, h'.2.2.1.trans h.2.2.1, h'.2.2.2.trans h.2.2.2⟩

theorem fieldParts_same (env : PrepEnv) (db : DataDb) (keytype : KeyTypeE) (merge : Bool) :
    ∀ part ∈ fieldParts env db keytype merge, ∀ data c c', part.set data c = .ok c' →
      SameItem c c' := by
  simp only [fieldParts, List.forall_mem_cons, List.not_mem_nil, false_imp_iff, implies_true,
    and_true]
  refine ⟨?_, ?_, ?_, ?_, ?_, ?_, ?_, ?_, ?_, ?_, ?_, ?_, ?_, ?_, ?_⟩
  all_goals
    intro data c c' h
    first
      | cases h; exact ⟨rfl, rfl, rfl, rfl⟩
      | obtain ⟨a, -, ⟨⟩⟩ := bind_eq_ok.mp h
        exact ⟨rfl, rfl, rfl, rfl⟩

/-- **Everything `PrepareData` can do** once the stored record is read. -/
theorem prepareFound_eq_ok {env : PrepEnv} {db : DataDb} {keytype : KeyTypeE}
    {updater : ExterDataT} {data : ItemDataT} {action fields : Nat} {merge found f : Bool}
    {cdata out : ItemDataT} :
    prepareFound env db keytype updater data action fields merge found cdata = .ok (f, out) ↔
      ¬ Refused updater.isAdmin found cdata.locked action ∧ f = found ∧
        ((action = uactionDelete ∧ out = deleted data cdata) ∨
          (action ≠ uactionDelete ∧ ∃ c,
            setFields fields (itemPerms updater cdata found action) data
              (fieldParts env db keytype merge) (rememberOld found cdata) = .ok c ∧
              out = assigned found action c)) := by
  rw [prepareFound, check_eq_ok, checkAction_eq_ok]
  exact and_congr_right fun _ => deleteOrAssign_eq_ok (by decide)

end Zapdos.Store.ItemDataService
