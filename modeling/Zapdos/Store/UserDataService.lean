/-
  `UserDataService` — users: `PrepareData`, `ManageDataAction`, `ResetPassAction`.
-/
import Zapdos.Store.ManageData

namespace Zapdos.Store.UserDataService

open Zapdos.Lib

/-- The permissions of an updater on a user. -/
def userPerms (updater cdata : UserDataT) (found : Bool) (action : Nat) : Nat :=
  if updater.keytype = kUserdata ∧ updater.name = cdata.name then writrIsSelf
  else if updater.isAdmin then writrIsAdmin
  else if updater.canAddUsers then
    if !found && (action == uactionCreate || action == uactionUpsert) then writrCreating
    else if found && (action == uactionUpsert || action == uactionUpdate) &&
        decide (updater.name = cdata.manager) then writrUpdating
    else if found && (action == uactionDelete) && decide (updater.name = cdata.manager) then
      writrDeleting
    else 0
  else 0

/-- The fields `PrepareData` modifies, in its order. -/
def fieldParts (env : PrepEnv) (merge : Bool) : List (FieldPart UserDataT) :=
  [{ bit := udfldSignkey, mask := wrtpudSignkey
     set := fun _ cdata => .ok { cdata with
       signkey := { cdata.signkey with
         pubkey := env.signkey.pubkey, seckey := env.signkey.seckey, algo := env.signkey.algo } } },
   { bit := udfldPasskey, mask := wrtpudPasskey
     set := fun data cdata =>
       if data.passkey = [] then badData "Passkey is blank" mInvalidParam
       else .ok { cdata with passkey := handleString merge data.passkey cdata.passkey } },
   { bit := udfldInfo, mask := wrtpudInfo
     set := fun data cdata =>
       .ok { cdata with description := handleString merge data.description cdata.description } },
   { bit := udfldGname, mask := wrtpudGname
     set := fun data cdata =>
       .ok { cdata with givenName := handleString merge data.givenName cdata.givenName } },
   { bit := udfldSubscr, mask := wrtpudSubscr
     set := fun data cdata =>
       .ok { cdata with subscription := handleNumber merge data.subscription cdata.subscription } },
   { bit := udfldMobile, mask := wrtpudMobile
     set := fun data cdata =>
       .ok { cdata with
         primaryMobile := handleString merge data.primaryMobile cdata.primaryMobile } },
   { bit := udfldEmail, mask := wrtpudEmail
     set := fun data cdata =>
       .ok { cdata with
         primaryEmail := handleString merge data.primaryEmail cdata.primaryEmail } },
   { bit := udfldProfiles, mask := wrtpudProfiles
     set := fun data cdata => do
       let profiles ← handleQueryProfiles data.profiles cdata.profiles merge
       pure { cdata with profiles := profiles } },
   { bit := udfldInvited, mask := wrtpudInvited
     set := fun data cdata => .ok { cdata with isInvited := data.isInvited } },
   { bit := udfldTags, mask := wrtpudTags
     set := fun data cdata => do
       let tags ← handleUserTags env.tagGet data.tags cdata.tags [kUserdata] merge
       pure { cdata with tags := tags } },
   { bit := udfldCategories, mask := wrtpudCategories
     set := fun data cdata => do
       let categories ← handleUserCategories env.categoryGet data.categories cdata.categories merge
       pure { cdata with categories := categories } }]

/-- The texts of the checks on the action. -/
def actionTexts : ActionTexts where
  exist := "User Data already exists, cannot create"
  noUpdate := "User Data doesnot exist, cannot update"
  noDelete := "User Data doesnot exist, cannot delete"
  locked := "User Data is locked, cannot edit"

/-- The record of a delete: the stored one with the three flags of the request. -/
def deleted (data cdata : UserDataT) : UserDataT :=
  { cdata with isDeleted := data.isDeleted, expired := data.expired, locked := data.locked }

/-- The record after the assignments; a new one is marked as found. -/
def assigned (found : Bool) (action : Nat) (cdata : UserDataT) : UserDataT :=
  if !found && (action == uactionCreate || action == uactionUpsert) then
    { cdata with notfound := false }
  else cdata

/-- The part of `PrepareData` after the stored record is read. -/
def prepareFound (env : PrepEnv) (updater data : UserDataT) (action fields : Nat) (merge : Bool)
    (found : Bool) (cdata : UserDataT) : Except Exc (Bool × UserDataT) := do
  checkAction actionTexts updater.isAdmin found cdata.locked action
  let perms := userPerms updater cdata found action
  if perms = writrIsSelf ∧ action ≠ uactionUpdate then badData "Self can only update" mInvalidParam
  -- the permissions are not tested here: the mask alone is the condition
  else if action = uactionDelete ∧ writrIsAdmin ||| writrDeleting ≠ 0 then
    pure (found, deleted data cdata)
  else
    let cdata ← setFields fields perms data (fieldParts env merge) cdata
    pure (found, assigned found action cdata)

/-- `PrepareData`. -/
def prepareData (env : PrepEnv) (db : DataDb) (updater data : UserDataT) (action fields : Nat)
    (merge : Bool) : Except Exc (Bool × UserDataT) :=
  if updater.id = 0 then badData "Updater cannot be found" mInvalidParam
  else if data.name = [] then badData "Name needed" mInvalidParam
  else do
    let (found, cdata) ← userDataTable.getOne db { name := data.name } uUserdataName
    prepareFound env updater data action fields merge found cdata

/-- What the loops of users and exters check first. -/
def checkName (rdata : UserDataT) : Except Exc Unit :=
  if rdata.name = [] then badDataOf "Name not found: " rdata.name mInvalidParam
  else if rdata.name ≠ sanitNSLower rdata.name then
    badDataOf "Name invalid, lowercase and no spaces: " rdata.name mInvalidParam
  else .ok ()

/-- New users and exters may not have a forbidden name. -/
def admitName (rdata : UserDataT) : Except Exc Unit :=
  if rdata.name ∈ forbiddenUsernames then badDataOf "Name not valid: " rdata.name mInvalidParam
  else .ok ()

/-- The last fields of a user or exter. -/
def fillRecord (m : Manage) (_ : UserDataT) (found : Bool) (id : Nat) (rdata : UserDataT) :
    UserDataT :=
  let rdata := if found then rdata
    else { rdata with manager := m.updater.name, id := id, createdAt := m.currtime }
  { rdata with updatedAt := m.currtime }

/-- What is particular to users. -/
def service : Service UserDataT where
  table := userDataTable
  ukey := uUserdataName
  readFirst := true
  check := checkName
  prepare env db m data := prepareData env db m.updater data m.action m.fields m.merge
  keytype := kUserdata
  reserved := UserDataT.name
  duplicateMsg := "Duplicate name found: "
  busyMsg := "This name is being worked on: "
  mayInsert := admitName
  fill := fillRecord
  insertMsg := "Cannot Insert user data"

/-- The head of the action. -/
def head : ActionHead UserDataT where
  masterMsg := "UserData change is master only"
  sessionMsg := "Invalid user login or Invalid session"
  allowedFields := userAllowedFieldsFilter
  updaterKeytype := RespT.keytype
  onlyadmin := false
  checkUpdater _ := .ok ()
  payloadName := UserDataT.name

/-- `ManageDataAction`. -/
def manageDataAction (env : ActionEnv) (st : SharedTable) (resp : RespT UserDataT) :
    ActionOut UserDataT :=
  Zapdos.Store.manageDataAction head service env st resp

end UserDataService

/-! ## Field groups -/

/-- The groups of fields of a `UserDataT`, one for each field bit. -/
inductive UdField
  | signkey | passkey | role | info | gname | mobile | email | profiles | invited | tags | subscr
  | categories
  deriving DecidableEq, Repr

namespace UdField

/-- The bit of a group. -/
def bit : UdField → Nat
  | signkey => udfldSignkey
  | passkey => udfldPasskey
  | role => udfldRole
  | info => udfldInfo
  | gname => udfldGname
  | mobile => udfldMobile
  | email => udfldEmail
  | profiles => udfldProfiles
  | invited => udfldInvited
  | tags => udfldTags
  | subscr => udfldSubscr
  | categories => udfldCategories

/-- The permissions that open a group of a user. -/
def userMask : UdField → Nat
  | signkey => wrtpudSignkey
  | passkey => wrtpudPasskey
  | role => wrtpudRole
  | info => wrtpudInfo
  | gname => wrtpudGname
  | mobile => wrtpudMobile
  | email => wrtpudEmail
  | profiles => wrtpudProfiles
  | invited => wrtpudInvited
  | tags => wrtpudTags
  | subscr => wrtpudSubscr
  | categories => wrtpudCategories

/-- The permissions that open a group of an exter. -/
def exterMask : UdField → Nat
  | signkey => wrtpedSignkey
  | passkey => wrtpedPasskey
  | role => wrtpedRole
  | info => wrtpedInfo
  | gname => wrtpedGname
  | mobile => wrtpedMobile
  | email => wrtpedEmail
  | profiles => wrtpedProfiles
  | invited => wrtpedInvited
  | tags => wrtpedTags
  | subscr => wrtpedSubscr
  | categories => wrtpedCategories

/-- Two records agree on a group. -/
def Agree : UdField → UserDataT → UserDataT → Prop
  | signkey, a, b => a.signkey = b.signkey
  | passkey, a, b => a.passkey = b.passkey
  | role, a, b => a.canAddTags = b.canAddTags ∧ a.canAddCategory = b.canAddCategory ∧
      a.canAddUsers = b.canAddUsers ∧ a.canAddItems = b.canAddItems
  | info, a, b => a.description = b.description
  | gname, a, b => a.givenName = b.givenName
  | mobile, a, b => a.primaryMobile = b.primaryMobile
  | email, a, b => a.primaryEmail = b.primaryEmail
  | profiles, a, b => a.profiles = b.profiles
  | invited, a, b => a.isInvited = b.isInvited
  | tags, a, b => a.tags = b.tags
  | subscr, a, b => a.subscription = b.subscription
  | categories, a, b => a.categories = b.categories

theorem Agree.refl (f : UdField) (a : UserDataT) : f.Agree a a := by
  cases f <;> first | rfl | exact ⟨rfl, rfl, rfl, rfl⟩

theorem Agree.trans {f : UdField} {a b c : UserDataT} (h : f.Agree a b) (h' : f.Agree b c) :
    f.Agree a c := by
  cases f with
  | role => exact ⟨h.1.trans h'.1, h.2.1.trans h'.2.1, h.2.2.1.trans h'.2.2.1,
      h.2.2.2.trans h'.2.2.2⟩
  | _ => exact Eq.trans h h'

/-- The record with all groups blanked: the fields no group covers. -/
def rest (a : UserDataT) : UserDataT :=
  { a with
    signkey := {}, passkey := [], canAddTags := false, canAddCategory := false,
    canAddUsers := false, canAddItems := false, description := [], givenName := [],
    primaryMobile := [], primaryEmail := [], profiles := [], isInvited := false, tags := [],
    subscription := 0, categories := [] }

theorem rest_eq {a b : UserDataT} (h : rest a = rest b) :
    a.name = b.name ∧ a.id = b.id ∧ a.isAdmin = b.isAdmin ∧ a.manager = b.manager ∧
      a.notfound = b.notfound := by
  have h1 := congrArg UserDataT.name h
  have h2 := congrArg UserDataT.id h
  have h3 := congrArg UserDataT.isAdmin h
  have h4 := congrArg UserDataT.manager h
  have h5 := congrArg UserDataT.notfound h
  exact ⟨h1, h2, h3, h4, h5⟩

end UdField

/-- A guarded part stays in its group. -/
def FieldPart.StaysIn (part : FieldPart UserDataT) (mask : UdField → Nat) : Prop :=
  ∃ f : UdField, part.bit = f.bit ∧ part.mask = mask f ∧
    ∀ data c c', part.set data c = .ok c' →
      UdField.rest c' = UdField.rest c ∧ ∀ g : UdField, g ≠ f → g.Agree c c'

/-- **The frame of the field assignments**: outside the groups nothing changes, and no group changes
    whose bit is not both in the fields and opened by the permissions. -/
theorem setFields_frame {mask : UdField → Nat} {fields perms : Nat} {data : UserDataT}
    {parts : List (FieldPart UserDataT)} (hparts : ∀ part ∈ parts, part.StaysIn mask)
    {cdata out : UserDataT} (h : setFields fields perms data parts cdata = .ok out) :
    UdField.rest out = UdField.rest cdata ∧
      ∀ g : UdField, ¬ (hasBits fields g.bit = true ∧ hasBits perms (mask g) = true) →
        g.Agree cdata out := by
  refine ⟨setFields_keeps (P := fun c => UdField.rest c = UdField.rest cdata) ?_ h rfl, ?_⟩
  · intro part hpart _ _ c c' hset hc
    obtain ⟨f, -, -, hf⟩ := hparts part hpart
    exact (hf data c c' hset).1.trans hc
  · intro g hg
    refine setFields_keeps (P := fun c => g.Agree cdata c) ?_ h (UdField.Agree.refl g cdata)
    intro part hpart hbit hmask c c' hset hc
    obtain ⟨f, hfbit, hfmask, hf⟩ := hparts part hpart
    -- the part that runs has its bit and its mask, so it is not the part of `g`
    have hne : g ≠ f := by
      rintro rfl
      exact hg ⟨hfbit ▸ hbit, hfmask ▸ hmask⟩
    exact hc.trans ((hf data c c' hset).2 g hne)

/-- A part that cannot fail stays in its group if the record it makes does. -/
theorem FieldPart.StaysIn.ofOk {bit m : Nat} {mask : UdField → Nat}
    {set : UserDataT → UserDataT → UserDataT} (f : UdField) (hbit : bit = f.bit)
    (hmask : m = mask f)
    (hset : ∀ data c, UdField.rest (set data c) = UdField.rest c ∧
      ∀ g : UdField, g ≠ f → g.Agree c (set data c)) :
    (FieldPart.mk bit m (fun data c => .ok (set data c))).StaysIn mask :=
  ⟨f, hbit, hmask, fun data c _ h => Except.ok.inj h ▸ hset data c⟩

/-- A part that asks a handler first. -/
theorem FieldPart.StaysIn.ofBind {A : Type} {bit m : Nat} {mask : UdField → Nat}
    {ask : UserDataT → UserDataT → Except Exc A} {set : UserDataT → A → UserDataT} (f : UdField)
    (hbit : bit = f.bit) (hmask : m = mask f)
    (hset : ∀ c a, UdField.rest (set c a) = UdField.rest c ∧
      ∀ g : UdField, g ≠ f → g.Agree c (set c a)) :
    (FieldPart.mk bit m (fun data c => do
      let a ← ask data c
      pure (set c a))).StaysIn mask := by
  refine ⟨f, hbit, hmask, fun data c c' h => ?_⟩
  obtain ⟨a, -, ha⟩ := bind_eq_ok.mp h
  exact Except.ok.inj ha ▸ hset c a

/-- The part for a passkey. -/
theorem FieldPart.StaysIn.passkey (merge : Bool) (ecode : Nat) {m : Nat} {mask : UdField → Nat}
    (hmask : m = mask .passkey) :
    (FieldPart.mk udfldPasskey m (fun data cdata =>
      if data.passkey = [] then badData "Passkey is blank" ecode
      else .ok { cdata with
        passkey := handleString merge data.passkey cdata.passkey })).StaysIn mask := by
  refine ⟨.passkey, rfl, hmask, fun data c c' h => ?_⟩
  simp only [badData] at h
  split at h
  · cases h
  · rw [← Except.ok.inj h]
    exact ⟨rfl, fun g hg => by cases g <;> first | exact absurd rfl hg | rfl | exact ⟨rfl, rfl, rfl, rfl⟩⟩

theorem UserDataService.fieldParts_staysIn (env : PrepEnv) (merge : Bool) :
    ∀ part ∈ UserDataService.fieldParts env merge, part.StaysIn UdField.userMask := by
  simp only [UserDataService.fieldParts, List.forall_mem_cons, List.not_mem_nil, false_imp_iff,
    implies_true, and_true]
  refine ⟨.ofOk .signkey rfl rfl ?_, .passkey merge _ rfl,
    .ofOk .info rfl rfl ?_, .ofOk .gname rfl rfl ?_,
    .ofOk .subscr rfl rfl ?_, .ofOk .mobile rfl rfl ?_,
    .ofOk .email rfl rfl ?_, .ofBind .profiles rfl rfl ?_,
    .ofOk .invited rfl rfl ?_, .ofBind .tags rfl rfl ?_,
    .ofBind .categories rfl rfl ?_⟩
  all_goals
    intro c a
    refine ⟨rfl, fun g hg => ?_⟩
    cases g <;> first | exact absurd rfl hg | rfl | exact ⟨rfl, rfl, rfl, rfl⟩

/-! ## What `PrepareData` makes -/

namespace UserDataService

/-- **Everything `PrepareData` can do** once the stored record is read. -/
theorem prepareFound_eq_ok {env : PrepEnv} {updater data : UserDataT} {action fields : Nat}
    {merge found f : Bool} {cdata out : UserDataT} :
    prepareFound env updater data action fields merge found cdata = .ok (f, out) ↔
      ¬ Refused updater.isAdmin found cdata.locked action ∧
        ¬ (userPerms updater cdata found action = writrIsSelf ∧ action ≠ uactionUpdate) ∧
        f = found ∧
        ((action = uactionDelete ∧ out = deleted data cdata) ∨
          (action ≠ uactionDelete ∧ ∃ c,
            setFields fields (userPerms updater cdata found action) data (fieldParts env merge)
              cdata = .ok c ∧ out = assigned found action c)) := by
  have hmask : writrIsAdmin ||| writrDeleting ≠ 0 := by decide
  rw [prepareFound, check_eq_ok, checkAction_eq_ok]
  refine and_congr_right fun _ => ?_
  by_cases hself : userPerms updater cdata found action = writrIsSelf ∧ action ≠ uactionUpdate
  · rw [if_pos hself]
    simp [hself, badData]
  · rw [if_neg hself, and_iff_right hself]
    exact deleteOrAssign_eq_ok hmask

end UserDataService

/-! ## Password reset -/

/-- `ResetRespT`. -/
structure ResetRespT where
  username : Bytes := []
  oldpass : Bytes := []
  newpass : Bytes := []
  otp : Bytes := []
  deriving DecidableEq, Repr

/-- `ResetPassAction` of users and exters up to its commit: the rows of the record with the new
    password.  Nothing is reserved. -/
def resetPassRows (t : StoreTable UserDataT) (ukey : KeyTypeE) (db : DataDb) (currtime : Nat)
    (resp : ResetRespT) : Except Exc (List TransItemT) :=
  if resp.username = [] then badData "Name cannot be empty" mInvalidParam
  else if resp.newpass = [] then badData "Newpass cannot be empty" mInvalidParam
  else if resp.oldpass = [] ∧ resp.otp = [] then badData "Need oldpass or OTP" mInvalidParam
  else do
    let (found, data) ← t.getOne db { name := resp.username } ukey
    if !found then badData "This user does not exist" mInvalidParam
    else if resp.otp = [] ∧ data.passkey ≠ resp.oldpass then
      badData "Old password is bad" mInvalidParam
    else if resp.oldpass = [] ∧ data.lastOtp ≠ resp.otp then badData "OTP mismatch" mInvalidParam
    else
      let data := { data with passkey := resp.newpass, updatedAt := currtime }
      match ← t.addRecord db data [] found with
      | none => badData "Cannot Insert passkey data"
      | some items => pure items

/-- `ResetPassAction`, for one of the two tables. -/
def resetPass (t : StoreTable UserDataT) (ukey : KeyTypeE) (st : SharedTable) (currtime : Nat)
    (resp : ResetRespT) (env : CommitEnv) : SharedTable × Except Exc Unit :=
  if !st.isMaster then (st, badCode "Reset pass is master only")
  else
    match resetPassRows t ukey st.maindb currtime resp with
    | .error e => (st, .error e)
    | .ok items =>
      let out := commit st currtime { item := items, updater := defaultAdmin } true env
      (out.table, out.result)

/-- `UserDataService::ResetPassAction`. -/
def UserDataService.resetPassAction (st : SharedTable) (currtime : Nat) (resp : ResetRespT)
    (env : CommitEnv) : SharedTable × Except Exc Unit :=
  resetPass userDataTable uUserdataName st currtime resp env

end Zapdos.Store
