/-
  `TagDataService` and `CategoryService`.

  Both reserve the name first and read the stored record under the reservation.
-/
import Mathlib.Data.Nat.Digits.Defs
import Zapdos.Store.ManageData

namespace Zapdos.Store

open Zapdos.Lib

namespace TagDataService

/-- `TagDataService::Pack`. -/
def pack (data : TagDataT) : TagDataT where
  id := data.id
  keytype := data.keytype
  name := data.name
  isAllowed := data.isAllowed
  isRepeated := data.isRepeated
  isSearchable := data.isSearchable
  isDeleted := data.isDeleted

/-- `TagDataService::Get`: the tag under key type and name, from the cache or the table. -/
def get (st : SharedTable) (data : TagDataT) : Except Exc (TagDataT × SharedTable) :=
  let key (r : TagDataT) := encodeSecondaryKeyNum uTagdataKeytypeName r.keytype r.name
  match st.dbcache.get (key data) with
  | some (.packed v) =>
    match v.parseTag with
    | some r => .ok (r, st)
    | none => .ok ({ data with notfound := true }, st)
  | some (.tsText _) => .ok ({ data with notfound := true }, st)
  | none => do
    let (found, r) ← tagDataTable.getOne st.maindb data uTagdataKeytypeName
    if found then
      pure (r, { st with
        dbcache := CacheContainer.setAssoc st.dbcache (key r) (.packed (.tag (pack r))) false })
    else pure ({ r with notfound := true }, st)

/-- Decimal digits. -/
def decimal (n : Nat) : Bytes := (Nat.toDigits 10 n).map chr

/-- `PrintWithPipe::String((int) keytype, name)`: key type, bar, name. -/
def taginfo (rdata : TagDataT) : Bytes := decimal rdata.keytype ++ str "|" ++ rdata.name

/-- What the loop of tags checks first. -/
def checkTag (rdata : TagDataT) : Except Exc Unit :=
  if rdata.keytype ≤ kNonode ∨ rdata.keytype ≥ kLognode then
    badDataOf "Tag must have valid keytype: " rdata.name mInvalidParam
  else if rdata.name = [] then badDataOf "Tag must have name: " rdata.name mInvalidParam
  else if rdata.name ≠ sanitNSLower rdata.name then
    badDataOf "Tag has invalid name: " rdata.name mInvalidParam
  else .ok ()

/-- The stored tag, and the checks on it. -/
def prepareFound (m : Manage) (rdata : TagDataT) (found : Bool) (tdata : TagDataT) :
    Except Exc (Bool × TagDataT) :=
  if found && !m.updater.isAdmin && decide (tdata.manager ≠ m.updater.name) then
    badData "This exter cannot update this tag" mInvalidParam
  else if found && (m.action == uactionCreate) then
    badDataOf "Create failed, Tag already exists: " rdata.name mInvalidParam
  else if !found && (m.action == uactionUpdate || m.action == uactionDelete) then
    badDataOf "Update failed, Tag does not exist: " rdata.name mInvalidParam
  else .ok (found, tdata)

/-- The read of the stored tag. -/
def prepare (db : DataDb) (m : Manage) (rdata : TagDataT) : Except Exc (Bool × TagDataT) := do
  let (found, tdata) ← tagDataTable.getOne db { name := rdata.name, keytype := rdata.keytype }
    uTagdataKeytypeName
  prepareFound m rdata found tdata

/-- The new tag. -/
def fillRecord (m : Manage) (rdata : TagDataT) (found : Bool) (id : Nat) (tdata : TagDataT) :
    TagDataT :=
  let tdata := if found then tdata
    else { tdata with
      notfound := false, id := id, createdAt := m.currtime, manager := m.updater.name }
  let tdata :=
    if m.action = uactionDelete then { tdata with isDeleted := true }
    else { tdata with
      lang := rdata.lang, isAllowed := rdata.isAllowed, isRepeated := rdata.isRepeated,
      isSearchable := rdata.isSearchable, isDeleted := rdata.isDeleted }
  { tdata with updatedAt := m.currtime }

/-- What is particular to tags. -/
def service : Service TagDataT where
  table := tagDataTable
  ukey := uTagdataKeytypeName
  readFirst := false
  check := checkTag
  prepare _ db m data := prepare db m data
  keytype := kTagdata
  reserved := taginfo
  duplicateMsg := "Duplicate tag found: "
  busyMsg := "This tag is being worked on: "
  mayInsert _ := .ok ()
  fill := fillRecord
  insertMsg := "Cannot Insert tags data"

/-- The head of the action. -/
def head : ActionHead TagDataT where
  masterMsg := "TagData change is master only"
  sessionMsg := "Invalid updater or Invalid session"
  allowedFields update := update
  updaterKeytype _ := kExterdata
  onlyadmin := true
  checkUpdater updater :=
    if !(updater.isAdmin || updater.canAddTags) then
      badData "This updater cannot update tags" mInvalidParam
    else .ok ()
  payloadName := TagDataT.name

/-- `ManageDataAction`. -/
def manageDataAction (env : ActionEnv) (st : SharedTable) (resp : RespT TagDataT) :
    ActionOut TagDataT :=
  Zapdos.Store.manageDataAction head service env st resp

end TagDataService

namespace CategoryService

/-- `CategoryService::Pack`. -/
def pack (data : CategoryT) : CategoryT where
  id := data.id
  name := data.name
  canseeType := data.canseeType
  canseePrice := data.canseePrice
  isDeleted := data.isDeleted

/-- `CategoryService::Get`: the category under a name, from the cache or the table. -/
def get (st : SharedTable) (data : CategoryT) : Except Exc (CategoryT × SharedTable) :=
  match st.dbcache.get (encodeSecondaryKey uCategoryName data.name) with
  | some (.packed v) =>
    match v.parseCategory with
    | some r => .ok (r, st)
    | none => .ok ({ data with notfound := true }, st)
  | some (.tsText _) => .ok ({ data with notfound := true }, st)
  | none => do
    let (found, r) ← categoryTable.getOne st.maindb data uCategoryName
    if found then
      pure (r, { st with
        dbcache := CacheContainer.setAssoc st.dbcache (encodeSecondaryKey uCategoryName r.name)
          (.packed (.category (pack r))) false })
    else pure ({ r with notfound := true }, st)

/-- What the loop of categories checks first. -/
def checkCategory (rdata : CategoryT) : Except Exc Unit :=
  if rdata.name = [] then badDataOf "Category must have name: " rdata.name mInvalidParam
  else if rdata.name ≠ sanitNSLower rdata.name then
    badDataOf "Category has invalid name: " rdata.name mInvalidParam
  else .ok ()

/-- The stored category, and the checks on it. -/
def prepareFound (m : Manage) (rdata : CategoryT) (found : Bool) (tdata : CategoryT) :
    Except Exc (Bool × CategoryT) :=
  if found && !m.updater.isAdmin && decide (tdata.manager ≠ m.updater.name) then
    badData "This exter cannot update this category" mInvalidParam
  else if found && (m.action == uactionCreate) then
    badDataOf "Create failed, category already exists: " rdata.name mInvalidParam
  else if !found && (m.action == uactionUpdate || m.action == uactionDelete) then
    badDataOf "Update failed, category does not exist: " rdata.name mInvalidParam
  else .ok (found, tdata)

/-- The read of the stored category. -/
def prepare (db : DataDb) (m : Manage) (rdata : CategoryT) : Except Exc (Bool × CategoryT) := do
  let (found, tdata) ← categoryTable.getOne db { name := rdata.name } uCategoryName
  prepareFound m rdata found tdata

/-- The new category. -/
def fillRecord (m : Manage) (rdata : CategoryT) (found : Bool) (id : Nat) (tdata : CategoryT) :
    CategoryT :=
  let tdata := if found then tdata
    else { tdata with
      notfound := false, id := id, createdAt := m.currtime, manager := m.updater.name }
  let tdata :=
    if m.action = uactionDelete then { tdata with isDeleted := true }
    else { tdata with
      lang := if !(decide (rdata.lang = 0) && m.merge) then rdata.lang else tdata.lang
      description :=
        if !(rdata.description.isEmpty && m.merge) then rdata.description else tdata.description
      canseeType :=
        if !(decide (rdata.canseeType = 0) && m.merge) then rdata.canseeType else tdata.canseeType
      canseePrice :=
        if !(decide (rdata.canseePrice > 0) && m.merge) then rdata.canseePrice
        else tdata.canseePrice
      isDeleted := if !(rdata.isDeleted && m.merge) then rdata.isDeleted else tdata.isDeleted }
  { tdata with updatedAt := m.currtime }

/-- What is particular to categories. -/
def service : Service CategoryT where
  table := categoryTable
  ukey := uCategoryName
  readFirst := false
  check := checkCategory
  prepare _ db m data := prepare db m data
  keytype := kCategory
  reserved := CategoryT.name
  duplicateMsg := "Duplicate category found: "
  busyMsg := "This category is being worked on: "
  mayInsert _ := .ok ()
  fill := fillRecord
  insertMsg := "Cannot Insert category data"

/-- The head of the action. -/
def head : ActionHead CategoryT where
  masterMsg := "Category change is master only"
  sessionMsg := "Invalid updater or Invalid session"
  allowedFields update := update
  updaterKeytype _ := kExterdata
  onlyadmin := true
  checkUpdater updater :=
    if !(updater.isAdmin || updater.canAddCategory) then
      badData "This updater cannot update category" mInvalidParam
    else .ok ()
  payloadName := CategoryT.name

/-- `ManageDataAction`. -/
def manageDataAction (env : ActionEnv) (st : SharedTable) (resp : RespT CategoryT) :
    ActionOut CategoryT :=
  Zapdos.Store.manageDataAction head service env st resp

end CategoryService

end Zapdos.Store
