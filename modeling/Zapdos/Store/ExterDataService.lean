/-
  `ExterDataService` — exters: `PrepareData`, `ManageDataAction`, `ResetPassAction`.
-/
import Zapdos.Store.UserDataService

namespace Zapdos.Store.ExterDataService

open Zapdos.Lib

/-- The permissions of an updater on an exter. -/
def exterPerms (updater data : ExterDataT) : Nat :=
  if updater.name = data.name then writrIsSelf
  else if updater.isAdmin then writrIsAdmin
  else 0

/-- The fields `PrepareData` modifies, in its order. -/
def fieldParts (env : PrepEnv) (merge : Bool) : List (FieldPart ExterDataT) :=
  [{ bit := udfldSignkey, mask := wrtpedSignkey
     set := fun _ cdata => .ok { cdata with
       signkey := { cdata.signkey with
         pubkey := env.signkey.pubkey, seckey := env.signkey.seckey, algo := env.signkey.algo } } },
   { bit := udfldPasskey, mask := wrtpedPasskey
     set := fun data cdata =>
       if data.passkey = [] then badData "Passkey is blank"
       else .ok { cdata with passkey := handleString merge data.passkey cdata.passkey } },
   { bit := udfldRole, mask := wrtpedRole
     set := fun data cdata => .ok { cdata with
       canAddTags := data.canAddTags, canAddCategory := data.canAddCategory,
       canAddUsers := data.canAddUsers, canAddItems := data.canAddItems } },
   { bit := udfldInfo, mask := wrtpedInfo
     set := fun data cdata =>
       .ok { cdata with description := handleString merge data.description cdata.description } },
   { bit := udfldGname, mask := wrtpedGname
     set := fun data cdata =>
       .ok { cdata with givenName := handleString merge data.givenName cdata.givenName } },
   { bit := udfldMobile, mask := wrtpedMobile
     set := fun data cdata =>
       .ok { cdata with
         primaryMobile := handleString merge data.primaryMobile cdata.primaryMobile } },
   { bit := udfldEmail, mask := wrtpedEmail
     set := fun data cdata =>
       .ok { cdata with
         primaryEmail := handleString merge data.primaryEmail cdata.primaryEmail } },
   { bit := udfldProfiles, mask := wrtpedProfiles
     set := fun data cdata => do
       let profiles ← handleQueryProfiles data.profiles cdata.profiles merge
       pure { cdata with profiles := profiles } },
   { bit := udfldTags, mask := wrtpedTags
     set := fun data cdata => do
       let tags ← handleUserTags env.tagGet data.tags cdata.tags [kExterdata] merge
       pure { cdata with tags := tags } }]

/-- The texts of the checks on the action. -/
def actionTexts : ActionTexts where
  exist := "Name already exists, cannot create"
  noUpdate := "Name doesnot exist, cannot update"
  noDelete := "Name doesnot exist, cannot delete"
  locked := "Exter Data is locked, cannot edit"

/-- The part of `PrepareData` after the stored record is read. -/
def prepareFound (env : PrepEnv) (updater data : ExterDataT) (action fields : Nat) (merge : Bool)
    (found : Bool) (cdata : ExterDataT) : Except Exc (Bool × ExterDataT) := do
  checkAction actionTexts updater.isAdmin found cdata.locked action
  let perms := exterPerms updater data
  -- the permissions are not tested here: the mask alone is the condition
  if action = uactionDelete ∧ writrIsAdmin ≠ 0 then
    pure (found, UserDataService.deleted data cdata)
  else
    let cdata ← setFields fields perms data (fieldParts env merge) cdata
    pure (found, UserDataService.assigned found action cdata)

/-- `PrepareData`. -/
def prepareData (env : PrepEnv) (db : DataDb) (updater data : ExterDataT) (action fields : Nat)
    (merge : Bool) : Except Exc (Bool × ExterDataT) :=
  if updater.id = 0 then badData "Updater cannot be found" mInvalidParam
  else if data.name = [] then badData "Name needed" mInvalidParam
  else do
    let (found, cdata) ← exterDataTable.getOne db { name := data.name } uExterdataName
    prepareFound env updater data action fields merge found cdata

/-- What is particular to exters. -/
def service : Service ExterDataT where
  table := exterDataTable
  ukey := uExterdataName
  readFirst := true
  check := UserDataService.checkName
  prepare env db m data := prepareData env db m.updater data m.action m.fields m.merge
  keytype := kExterdata
  reserved := UserDataT.name
  duplicateMsg := "Duplicate name found: "
  busyMsg := "This name is being worked on: "
  mayInsert := UserDataService.admitName
  fill := UserDataService.fillRecord
  insertMsg := "Cannot Insert exter data"

/-- The head of the action. -/
def head : ActionHead ExterDataT where
  masterMsg := "ExterData change is master only"
  sessionMsg := "Invalid updater or Invalid session"
  allowedFields := exterAllowedFieldsFilter
  updaterKeytype _ := kExterdata
  onlyadmin := true
  checkUpdater _ := .ok ()
  payloadName := UserDataT.name

/-- `ManageDataAction`. -/
def manageDataAction (env : ActionEnv) (st : SharedTable) (resp : RespT ExterDataT) :
    ActionOut ExterDataT :=
  Zapdos.Store.manageDataAction head service env st resp

theorem fieldParts_staysIn (env : PrepEnv) (merge : Bool) :
    ∀ part ∈ fieldParts env merge, part.StaysIn UdField.exterMask := by
  simp only [fieldParts, List.forall_mem_cons, List.not_mem_nil, false_imp_iff, implies_true,
    and_true]
  refine ⟨.ofOk .signkey rfl rfl ?_, .passkey merge _ rfl, .ofOk .role rfl rfl ?_,
    .ofOk .info rfl rfl ?_, .ofOk .gname rfl rfl ?_, .ofOk .mobile rfl rfl ?_,
    .ofOk .email rfl rfl ?_, .ofBind .profiles rfl rfl ?_, .ofBind .tags rfl rfl ?_⟩
  all_goals
    intro c a
    refine ⟨rfl, fun g hg => ?_⟩
    cases g <;> first | exact absurd rfl hg | rfl | exact ⟨rfl, rfl, rfl, rfl⟩

/-- **Everything `PrepareData` can do** once the stored record is read. -/
theorem prepareFound_eq_ok {env : PrepEnv} {updater data : ExterDataT} {action fields : Nat}
    {merge found f : Bool} {cdata out : ExterDataT} :
    prepareFound env updater data action fields merge found cdata = .ok (f, out) ↔
      ¬ Refused updater.isAdmin found cdata.locked action ∧ f = found ∧
        ((action = uactionDelete ∧ out = UserDataService.deleted data cdata) ∨
          (action ≠ uactionDelete ∧ ∃ c,
            setFields fields (exterPerms updater data) data (fieldParts env merge) cdata = .ok c ∧
              out = UserDataService.assigned found action c)) := by
  rw [prepareFound, check_eq_ok, checkAction_eq_ok]
  exact and_congr_right fun _ => deleteOrAssign_eq_ok (by decide)

/-- `ResetPassAction`. -/
def resetPassAction (st : SharedTable) (currtime : Nat) (resp : ResetRespT) (env : CommitEnv) :
    SharedTable × Except Exc Unit :=
  resetPass exterDataTable uExterdataName st currtime resp env

end Zapdos.Store.ExterDataService
