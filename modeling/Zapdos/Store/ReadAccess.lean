/-
  Read access — `ReadData` and `ReadDataAction` of users and exters.

  A read copies the groups of fields that the request asks for and that the class of the reader may
  see into the payload of the request.  The class is made of the reader, and of the name and the
  manager of the stored record.

  THE CRUX.  What a part copies depends on the record only through one group, and never on the two
  groups of keys (`ReadPart.Shows`).  So two stores that agree on what the class may see give the same
  payload, whatever else is in them.
-/
import Zapdos.Store.Privileges

namespace Zapdos.Store

open Zapdos.Lib Privileges

/-! ## The parts of a read -/

/-- One guarded copy of a read: the bit of the fields, the mask of the permissions, and what is
    copied from the stored record `cdata` to `data`.  Users, exters and items are read so. -/
structure ReadPart (α : Type) where
  bit : Nat
  mask : Nat
  copy : α → α → α

/-- The copies of a read, in their order. -/
def readFields {α : Type} (fields perms : Nat) (cdata : α) (parts : List (ReadPart α))
    (data : α) : α :=
  parts.foldl (fun data part =>
    if hasBits fields part.bit && hasBits perms part.mask then part.copy cdata data else data) data

/-- The loop that adds tags to a read: a new tag gets the name and the value only. -/
def readTags (tags : List TagDataT) : List TagDataT :=
  tags.map fun tag => { name := tag.name, value := tag.value }

/-- The class of a reader of a user. -/
def UserDataService.readerType (reader cdata : UserDataT) : ReaderTypeE :=
  if reader.isAdmin then .rAdmin
  else if reader.keytype = kExterdata ∧ reader.name = cdata.manager then .rCreatr
  else if reader.keytype = kUserdata ∧ reader.name = cdata.name then .rSelf
  else if reader.keytype = kExterdata then .rOther
  else if reader.keytype = kUserdata then .rUser
  else .rPublic

/-- The copies `UserDataService::ReadData` makes. -/
def UserDataService.readParts : List (ReadPart UserDataT) :=
  -- the copies of the keys are commented out in the source
  [{ bit := udfldSignkey, mask := readudSignkey, copy := fun _ data => data },
   { bit := udfldPasskey, mask := readudPasskey, copy := fun _ data => data },
   { bit := udfldRole, mask := readudRole, copy := fun _ data => data },
   { bit := udfldInfo, mask := readudInfo
     copy := fun cdata data => { data with description := cdata.description } },
   { bit := udfldGname, mask := readudGname
     copy := fun cdata data => { data with givenName := cdata.givenName } },
   { bit := udfldSubscr, mask := readudSubscr
     copy := fun cdata data => { data with subscription := cdata.subscription } },
   { bit := udfldMobile, mask := readudMobile
     copy := fun cdata data => { data with primaryMobile := cdata.primaryMobile } },
   { bit := udfldEmail, mask := readudEmail
     copy := fun cdata data => { data with primaryEmail := cdata.primaryEmail } },
   { bit := udfldProfiles, mask := readudProfiles
     copy := fun cdata data => { data with profiles := cdata.profiles } },
   { bit := udfldInvited, mask := readudInvited
     copy := fun cdata data => { data with isInvited := cdata.isInvited } },
   { bit := udfldTags, mask := readudTags
     copy := fun cdata data => { data with tags := data.tags ++ readTags cdata.tags } },
   { bit := udfldCategories, mask := readudCategories
     copy := fun cdata data =>
       { data with categories := data.categories ++ cdata.categories } }]

/-- The class of a reader of an exter: the reader is always an exter, its key type is not tested. -/
def ExterDataService.readerType (reader cdata : ExterDataT) : ReaderTypeE :=
  if reader.isAdmin then .rAdmin
  else if reader.name = cdata.manager then .rCreatr
  else if reader.name = cdata.name then .rSelf
  else .rOther

/-- The copies `ExterDataService::ReadData` makes; it has none for subscription, invitation and
    categories. -/
def ExterDataService.readParts : List (ReadPart UserDataT) :=
  [{ bit := udfldSignkey, mask := readedSignkey, copy := fun _ data => data },
   { bit := udfldPasskey, mask := readedPasskey, copy := fun _ data => data },
   { bit := udfldRole, mask := readedRole
     copy := fun cdata data =>
       { data with
         canAddTags := cdata.canAddTags, canAddCategory := cdata.canAddCategory,
         canAddUsers := cdata.canAddUsers, canAddItems := cdata.canAddItems } },
   { bit := udfldInfo, mask := readedInfo
     copy := fun cdata data => { data with description := cdata.description } },
   { bit := udfldGname, mask := readedGname
     copy := fun cdata data => { data with givenName := cdata.givenName } },
   { bit := udfldMobile, mask := readedMobile
     copy := fun cdata data => { data with primaryMobile := cdata.primaryMobile } },
   { bit := udfldEmail, mask := readedEmail
     copy := fun cdata data => { data with primaryEmail := cdata.primaryEmail } },
   { bit := udfldProfiles, mask := readedProfiles
     copy := fun cdata data => { data with profiles := cdata.profiles } },
   { bit := udfldTags, mask := readedTags
     copy := fun cdata data => { data with tags := data.tags ++ readTags cdata.tags } }]

/-- `ReadData`: the payload `data` of a request, read from the table. -/
def readDataOf (t : StoreTable UserDataT) (ukey : KeyTypeE) (nameMsg : String)
    (readerType : UserDataT → UserDataT → ReaderTypeE) (parts : List (ReadPart UserDataT)) (db : DataDb)
    (reader data : UserDataT) (fields : Nat) : Except Exc UserDataT :=
  if data.name = [] then badData nameMsg mInvalidParam
  else do
    let (found, cdata) ← t.getOne db { name := data.name } ukey
    if !found then pure { data with notfound := true }
    else
      let perms := readerTypeFilter (readerType reader cdata)
      pure (readFields fields perms cdata parts data)

/-- `UserDataService::ReadData`. -/
def UserDataService.readData (db : DataDb) (reader data : UserDataT) (fields : Nat) :
    Except Exc UserDataT :=
  readDataOf userDataTable uUserdataName "Name is needed" UserDataService.readerType
    UserDataService.readParts db reader data fields

/-- `ExterDataService::ReadData`. -/
def ExterDataService.readData (db : DataDb) (reader data : ExterDataT) (fields : Nat) :
    Except Exc ExterDataT :=
  readDataOf exterDataTable uExterdataName "Name needed" ExterDataService.readerType
    ExterDataService.readParts db reader data fields

/-! ## The action -/

/-- What a read puts into its response. -/
structure ReadResp where
  payload : UserDataT
  payloads : List UserDataT
  inputcount : Nat
  deriving DecidableEq, Repr

/-- One payload of a request: it is left alone when it has no name.  The count goes up when the
    record is found. -/
def readPayload (readData : UserDataT → Except Exc UserDataT) (rdata : UserDataT) :
    Except Exc (UserDataT × Nat) :=
  if rdata.name = [] then .ok (rdata, 0)
  else do
    let rdata ← readData rdata
    pure (rdata, if rdata.notfound then 0 else 1)

/-- The part of `ReadDataAction` after the session is checked. -/
def readPayloads (readData : UserDataT → Except Exc UserDataT) (resp : RespT UserDataT) :
    Except Exc ReadResp := do
  let (payload, n) ← readPayload readData resp.payload
  let rs ← resp.payloads.mapM (readPayload readData)
  pure { payload := payload, payloads := rs.map Prod.fst, inputcount := n + (rs.map Prod.snd).sum }

/-- `ReadDataAction` of one of the two services. -/
def readDataActionOf (readData : DataDb → UserDataT → UserDataT → Nat → Except Exc UserDataT)
    (allowedFields : Nat → Nat) (keytype : KeyTypeE) (onlyadmin : Bool) (decode : Decode)
    (currtime : Nat) (st : SharedTable) (resp : RespT UserDataT) :
    SharedTable × Except Exc ReadResp :=
  let fields := allowedFields resp.fields
  let reader : UserDataT :=
    { name := resp.username, sessionkey := resp.sessionkey, keytype := keytype }
  match checkSession decode currtime st reader onlyadmin with
  | (st, .error e) => (st, .error e)
  | (st, .ok none) => (st, badData "Invalid reader or Invalid session" mInvalidParam)
  | (st, .ok (some reader)) =>
    (st, readPayloads (fun rdata => readData st.maindb reader rdata fields) resp)

/-- `UserDataService::ReadDataAction`. -/
def UserDataService.readDataAction (decode : Decode) (currtime : Nat) (st : SharedTable)
    (resp : RespT UserDataT) : SharedTable × Except Exc ReadResp :=
  readDataActionOf UserDataService.readData userAllowedFieldsFilter resp.keytype false decode
    currtime st resp

/-- `ExterDataService::ReadDataAction`. -/
def ExterDataService.readDataAction (decode : Decode) (currtime : Nat) (st : SharedTable)
    (resp : RespT ExterDataT) : SharedTable × Except Exc ReadResp :=
  readDataActionOf ExterDataService.readData exterAllowedFieldsFilter kExterdata true decode
    currtime st resp

/-! ## What a class of readers may see -/

namespace ReadAccess

/-- `ReadData` of a service. -/
def readData : Kind → DataDb → UserDataT → UserDataT → Nat → Except Exc UserDataT
  | .user => UserDataService.readData
  | .exter => ExterDataService.readData

def readerType : Kind → UserDataT → UserDataT → ReaderTypeE
  | .user => UserDataService.readerType
  | .exter => ExterDataService.readerType

/-- The classes that may see a group of a user: the `READUD` matrix. -/
def userMask : UdField → Nat
  | .signkey => readudSignkey
  | .passkey => readudPasskey
  | .role => readudRole
  | .info => readudInfo
  | .gname => readudGname
  | .mobile => readudMobile
  | .email => readudEmail
  | .profiles => readudProfiles
  | .invited => readudInvited
  | .tags => readudTags
  | .subscr => readudSubscr
  | .categories => readudCategories

/-- The classes that may see a group of an exter: the `READED` matrix. -/
def exterMask : UdField → Nat
  | .signkey => readedSignkey
  | .passkey => readedPasskey
  | .role => readedRole
  | .info => readedInfo
  | .gname => readedGname
  | .mobile => readedMobile
  | .email => readedEmail
  | .profiles => readedProfiles
  | .invited => readedInvited
  | .tags => readedTags
  | .subscr => readedSubscr
  | .categories => readedCategories

/-- The matrix of a kind. -/
def matrix : Kind → UdField → Nat
  | .user => userMask
  | .exter => exterMask

/-- The matrix grants a group of `cdata` to the class of the reader for it. -/
def Granted (k : Kind) (reader cdata : UserDataT) (f : UdField) : Prop :=
  hasBits (readerTypeFilter (readerType k reader cdata)) (matrix k f) = true

/-- Two records look the same to a reader: they agree on name, manager and the groups granted.  The
    keys may differ even where the matrix grants them, and so may all that is in no group. -/
structure SameView (k : Kind) (reader r r' : UserDataT) : Prop where
  name : r.name = r'.name
  manager : r.manager = r'.manager
  group : ∀ f : UdField, f ≠ .signkey → f ≠ .passkey → Granted k reader r f → f.Agree r r'

/-- The record that a store has under a name. -/
def stored (k : Kind) (db : DataDb) (name : Bytes) : Except Exc (Option UserDataT) := do
  let (found, r) ← k.table.getOne db { name := name } k.ukey
  pure (if found then some r else none)

/-- What two stores have under one name looks the same to a reader: in both a record, or in both
    none, or in both one that cannot be parsed. -/
def SameStored (k : Kind) (reader : UserDataT) :
    Except Exc (Option UserDataT) → Except Exc (Option UserDataT) → Prop
  | .ok r?, .ok r'? => Option.Rel (SameView k reader) r? r'?
  | .error _, .error _ => True
  | _, _ => False

/-- Two stores agree, for a reader, on which records exist, on their name and manager, and on what
    the matrix grants. -/
def StoresAgree (k : Kind) (reader : UserDataT) (db db' : DataDb) : Prop :=
  ∀ name, SameStored k reader (stored k db name) (stored k db' name)

/-! ## One part -/

end ReadAccess

/-- What a part copies is in one group, and not in the groups of keys. -/
def ReadPart.Shows (part : ReadPart UserDataT) (mask : UdField → Nat) : Prop :=
  ∃ f : UdField, part.bit = f.bit ∧ part.mask = mask f ∧
    ∀ r r' data, (f ≠ .signkey → f ≠ .passkey → f.Agree r r') →
      part.copy r data = part.copy r' data

namespace ReadAccess

theorem userParts_show : ∀ part ∈ UserDataService.readParts, part.Shows userMask := by
  simp only [UserDataService.readParts, List.forall_mem_cons, List.not_mem_nil, false_imp_iff,
    implies_true, and_true]
  refine ⟨⟨.signkey, rfl, rfl, fun _ _ _ _ => rfl⟩, ⟨.passkey, rfl, rfl, fun _ _ _ _ => rfl⟩,
    ⟨.role, rfl, rfl, fun _ _ _ _ => rfl⟩, ⟨.info, rfl, rfl, ?_⟩, ⟨.gname, rfl, rfl, ?_⟩,
    ⟨.subscr, rfl, rfl, ?_⟩, ⟨.mobile, rfl, rfl, ?_⟩, ⟨.email, rfl, rfl, ?_⟩,
    ⟨.profiles, rfl, rfl, ?_⟩, ⟨.invited, rfl, rfl, ?_⟩, ⟨.tags, rfl, rfl, ?_⟩,
    ⟨.categories, rfl, rfl, ?_⟩⟩
  all_goals
    intro r r' data h
    have hr := h nofun nofun
    simp only [UdField.Agree] at hr
    simp only [hr]

theorem exterParts_show : ∀ part ∈ ExterDataService.readParts, part.Shows exterMask := by
  simp only [ExterDataService.readParts, List.forall_mem_cons, List.not_mem_nil, false_imp_iff,
    implies_true, and_true]
  refine ⟨⟨.signkey, rfl, rfl, fun _ _ _ _ => rfl⟩, ⟨.passkey, rfl, rfl, fun _ _ _ _ => rfl⟩,
    ⟨.role, rfl, rfl, ?role⟩, ⟨.info, rfl, rfl, ?_⟩, ⟨.gname, rfl, rfl, ?_⟩,
    ⟨.mobile, rfl, rfl, ?_⟩, ⟨.email, rfl, rfl, ?_⟩, ⟨.profiles, rfl, rfl, ?_⟩,
    ⟨.tags, rfl, rfl, ?_⟩⟩
  case role =>
    -- the one group of several fields
    intro r r' data h
    obtain ⟨h1, h2, h3, h4⟩ := h nofun nofun
    simp only [h1, h2, h3, h4]
  all_goals
    intro r r' data h
    have hr := h nofun nofun
    simp only [UdField.Agree] at hr
    simp only [hr]

/-! ## All parts -/

/-- **The frame of a read**: the copies are the same for two records that agree on every group that
    is asked for and that the permissions open. -/
theorem readFields_congr {mask : UdField → Nat} {fields perms : Nat} {r r' : UserDataT}
    (hagree : ∀ f : UdField, f ≠ .signkey → f ≠ .passkey → hasBits fields f.bit = true →
      hasBits perms (mask f) = true → f.Agree r r')
    {parts : List (ReadPart UserDataT)} (hparts : ∀ part ∈ parts, part.Shows mask) (data : UserDataT) :
    readFields fields perms r parts data = readFields fields perms r' parts data := by
  induction parts generalizing data with
  | nil => rfl
  | cons part parts ih =>
    have htail := ih fun p hp => hparts p (List.mem_cons_of_mem _ hp)
    obtain ⟨f, hbit, hmask, hcopy⟩ := hparts part List.mem_cons_self
    simp only [readFields, List.foldl_cons] at htail ⊢
    by_cases hopen : (hasBits fields part.bit && hasBits perms part.mask) = true
    · have hboth := Bool.and_eq_true_iff.mp hopen
      have hstep : part.copy r data = part.copy r' data :=
        hcopy r r' data fun hs hp =>
          hagree f hs hp (hbit ▸ hboth.1) (hmask ▸ hboth.2)
      rw [if_pos hopen, if_pos hopen, hstep]
      exact htail _
    · rw [if_neg hopen, if_neg hopen]
      exact htail _

/-- The class of a reader depends on name and manager of the record only. -/
theorem readerType_congr (k : Kind) (reader : UserDataT) {r r' : UserDataT}
    (hname : r.name = r'.name) (hmanager : r.manager = r'.manager) :
    readerType k reader r = readerType k reader r' := by
  cases k <;>
    simp only [readerType, UserDataService.readerType, ExterDataService.readerType, hname,
      hmanager]

/-! ## Two stores -/

def readParts : Kind → List (ReadPart UserDataT)
  | .user => UserDataService.readParts
  | .exter => ExterDataService.readParts

theorem readParts_show (k : Kind) : ∀ part ∈ readParts k, part.Shows (matrix k) := by
  cases k
  · exact userParts_show
  · exact exterParts_show

/-- What a read makes of the payload, given what is stored under its name. -/
def answer (k : Kind) (reader data : UserDataT) (fields : Nat) :
    Option UserDataT → UserDataT
  | none => { data with notfound := true }
  | some cdata =>
    readFields fields (readerTypeFilter (readerType k reader cdata)) cdata (readParts k) data

/-- The record of a read is the one stored under the name of the payload. -/
theorem readData_eq (k : Kind) (db : DataDb) (reader data : UserDataT) (fields : Nat)
    (hname : data.name ≠ []) :
    readData k db reader data fields =
      (stored k db data.name).map (answer k reader data fields) := by
  have hof : ∀ msg, readDataOf k.table k.ukey msg (readerType k) (readParts k) db reader data
      fields = (stored k db data.name).map (answer k reader data fields) := by
    intro msg
    rw [readDataOf, if_neg hname, stored]
    cases k.table.getOne db { name := data.name } k.ukey with
    | error e => rfl
    | ok fr =>
      obtain ⟨found, r⟩ := fr
      cases found <;> rfl
  cases k
  · exact hof _
  · exact hof _

/-- Records that look the same to a reader give the same answer. -/
theorem answer_congr {k : Kind} {reader : UserDataT} (data : UserDataT) (fields : Nat)
    {r? r'? : Option UserDataT} (h : Option.Rel (SameView k reader) r? r'?) :
    answer k reader data fields r? = answer k reader data fields r'? := by
  cases h with
  | none => rfl
  | @some r r' hview =>
    have hclass := readerType_congr k reader hview.name hview.manager
    simp only [answer, ← hclass]
    exact readFields_congr (fun f hs hp _ hmask => hview.group f hs hp hmask) (readParts_show k) data

/-- In a store whose rows are in order, the record under a name is what the table finds. -/
theorem stored_of_inOrder {k : Kind} {db : DataDb}
    (hok : StoreTable.TableOk k.table k.ukey db) (name : Bytes) :
    stored k db name = .ok (k.table.find db (encodeSecondaryKey k.ukey name)) := by
  have hkey : k.table.getKey { name := name } k.ukey = encodeSecondaryKey k.ukey name := by
    cases k <;> rfl
  have hone := k.singleKey.getOne_unique hok { name := name }
  rw [hkey] at hone
  rw [stored]
  cases hfind : k.table.find db (encodeSecondaryKey k.ukey name) with
  | none =>
    rw [hfind] at hone
    rw [hone]
    rfl
  | some r =>
    rw [hfind] at hone
    rw [hone]
    rfl

/-- In stores whose rows are in order, agreement is about the records the tables find. -/
theorem storesAgree_iff {k : Kind} {reader : UserDataT} {db db' : DataDb}
    (hok : StoreTable.TableOk k.table k.ukey db) (hok' : StoreTable.TableOk k.table k.ukey db') :
    StoresAgree k reader db db' ↔ ∀ name, Option.Rel (SameView k reader)
      (k.table.find db (encodeSecondaryKey k.ukey name))
      (k.table.find db' (encodeSecondaryKey k.ukey name)) := by
  refine forall_congr' fun name => ?_
  rw [stored_of_inOrder hok, stored_of_inOrder hok']
  exact Iff.rfl

/-- A table fails on a name only when the record cannot be parsed. -/
theorem stored_error {k : Kind} {db : DataDb} {name : Bytes} {e : Exc}
    (h : stored k db name = .error e) : e = ⟨.badData, str "Record cannot be parsed", 0⟩ := by
  have hp : k.ukey ≠ k.table.primaryKey := by cases k <;> decide
  have hu : k.ukey ∈ k.table.uniqueKeys ∨ k.ukey ∈ k.table.indexKeys := by cases k <;> decide
  have hone : k.table.getOne db { name := name } k.ukey = .error e := by
    rw [stored] at h
    cases hget : k.table.getOne db { name := name } k.ukey with
    | error e' =>
      rw [hget] at h
      have he : (Except.error e' : Except Exc (Option UserDataT)) = .error e := h
      rw [Except.error.inj he]
    | ok fr =>
      rw [hget] at h
      cases h
  rw [StoreTable.getOne, if_neg hp, if_pos hu] at hone
  split at hone
  · cases hone
  · rw [StoreTable.readPrimary] at hone
    split at hone
    · cases hone
    · split at hone
      · exact (Except.error.inj hone).symm
      · cases hone

/-- A read looks at the record it asks for only, as far as the class of the reader may see it. -/
theorem readData_congr {k : Kind} {reader data : UserDataT} (fields : Nat) {db db' : DataDb}
    (h : SameStored k reader (stored k db data.name) (stored k db' data.name)) :
    readData k db reader data fields = readData k db' reader data fields := by
  by_cases hname : data.name = []
  · cases k <;> simp only [readData, UserDataService.readData, ExterDataService.readData,
      readDataOf, if_pos hname]
  · rw [readData_eq k db reader data fields hname, readData_eq k db' reader data fields hname]
    cases hdb : stored k db data.name with
    | error e =>
      cases hdb' : stored k db' data.name with
      | error e' => rw [stored_error hdb, stored_error hdb']
      | ok r'? =>
        rw [hdb, hdb'] at h
        exact h.elim
    | ok r? =>
      cases hdb' : stored k db' data.name with
      | error e' =>
        rw [hdb, hdb'] at h
        exact h.elim
      | ok r'? =>
        rw [hdb, hdb'] at h
        exact congrArg Except.ok (answer_congr data fields h)

/-- A user `ann` with her keys. -/
def ann (passkey otp : Bytes) : UserDataT where
  id := 5
  name := str "ann"
  passkey := passkey
  lastOtp := otp
  description := str "first user"
  manager := str "bob"

/-- A store that has this user only. -/
def annDb (passkey otp : Bytes) : DataDb :=
  (OrdMap.empty.put (encodePrimaryKey kUserdata 5) (.user (ann passkey otp))).put
    (encodeSecondaryKey uUserdataName (str "ann")) (.node { keytype := kUserdata, id := 5 })

theorem stored_annDb (passkey otp name : Bytes) :
    stored .user (annDb passkey otp) name =
      .ok (if name = str "ann" then some (ann passkey otp) else none) := by
  by_cases hn : name = str "ann"
  · subst hn
    rfl
  · have hkey : encodeSecondaryKey uUserdataName name ≠
        encodeSecondaryKey uUserdataName (str "ann") := by
      intro he
      simp only [encodeSecondaryKey, Key.secondary.injEq, List.cons.injEq, KeyPart.text.injEq] at he
      exact hn he.2.1
    have hnone : (annDb passkey otp).get (encodeSecondaryKey uUserdataName name) = none := by
      rw [annDb, OrdMap.get_put_ne _ hkey, OrdMap.get_put_ne _ (by simp [encodeSecondaryKey,
        encodePrimaryKey]), OrdMap.get_empty]
    have hget : userDataTable.getOne (annDb passkey otp) { name := name } uUserdataName =
        .ok (false, { name := name }) := by
      have hrow : (annDb passkey otp).get
          (userDataTable.getKey { name := name } uUserdataName) = none := hnone
      rw [StoreTable.getOne, hrow]
      rfl
    rw [if_neg hn, stored]
    show (userDataTable.getOne (annDb passkey otp) { name := name } uUserdataName >>= _) = _
    rw [hget]
    rfl

/-- Whatever her keys are, `ann` looks the same. -/
theorem ann_sameView (reader : UserDataT) (passkey otp passkey' otp' : Bytes) :
    SameView .user reader (ann passkey otp) (ann passkey' otp') := by
  refine ⟨rfl, rfl, fun f _ hp _ => ?_⟩
  cases f with
  | passkey => exact absurd rfl hp
  | role => exact ⟨rfl, rfl, rfl, rfl⟩
  | _ => rfl

/-- The payloads of a request are read the same by two reads that agree on them. -/
theorem readPayloads_congr {read read' : UserDataT → Except Exc UserDataT} {resp : RespT UserDataT}
    (h : ∀ rdata ∈ resp.payload :: resp.payloads, read rdata = read' rdata) :
    readPayloads read resp = readPayloads read' resp := by
  have hone : ∀ rdata ∈ resp.payload :: resp.payloads, readPayload read rdata = readPayload read' rdata := by
    intro rdata hr
    rw [readPayload, readPayload, h rdata hr]
  have hall : ∀ l ⊆ resp.payloads, l.mapM (readPayload read) = l.mapM (readPayload read') := by
    intro l
    induction l with
    | nil => exact fun _ => rfl
    | cons rdata l ih =>
      intro hl
      rw [List.mapM_cons, List.mapM_cons, hone rdata (List.mem_cons_of_mem _ (hl List.mem_cons_self)),
        ih fun x hx => hl (List.mem_cons_of_mem _ hx)]
  rw [readPayloads, readPayloads, hone _ List.mem_cons_self, hall _ (List.Subset.refl _)]

/-- A node with `ann` and an admin in its cache. -/
def annAdmin (passkey otp : Bytes) : SharedTable where
  maindb := annDb passkey otp
  dbcache := OrdMap.empty.put (encodeSecondaryKey uExterdataName (str "boss"))
    (.packed (.user { id := 7, name := str "boss", isAdmin := true }))

end ReadAccess

end Zapdos.Store
