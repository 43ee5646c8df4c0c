/-
  Privileges — what write requests can do to `is_admin` and to the `can_add_*` flags.

  A request message carries a whole record, privileged fields included, and `PrepareData` copies from
  it field by field under two masks.  The machine here runs whole requests on users and exters one
  after the other: `ManageDataAction` and `ResetPassAction`, by any updaters, with anything the
  session check, the caches and the databases may answer.

  THE CRUX.  A record that a request writes is made from the stored record of that name, or from a
  blank one; `is_admin` is in no group of fields, and the flags are in the role group, which only the
  exter service assigns, and only for an admin who writes another exter (`made_keeps`).
-/
import Zapdos.Lib.Runs
import Zapdos.Store.ManageLaws

namespace Zapdos.Store.Privileges

open Zapdos.Lib

/-! ## Users and exters -/

/-- The two tables of `UserDataT` records. -/
inductive Kind
  | user | exter
  deriving DecidableEq, Repr

namespace Kind

def table : Kind → StoreTable UserDataT
  | user => userDataTable
  | exter => exterDataTable

def ukey : Kind → KeyTypeE
  | user => uUserdataName
  | exter => uExterdataName

/-- The service, over `table` and `ukey`. -/
def service : Kind → Service UserDataT
  | user => UserDataService.service
  | exter => ExterDataService.service

theorem service_table (k : Kind) : k.service.table = k.table := by cases k <;> rfl

theorem service_ukey (k : Kind) : k.service.ukey = k.ukey := by cases k <;> rfl

theorem service_lawful (k : Kind) : k.service.Lawful := by
  cases k
  · exact UserDataService.service_lawful
  · exact ExterDataService.service_lawful

theorem singleKey (k : Kind) : k.table.SingleKey k.ukey := by
  cases k
  · exact StoreTable.userDataTable_singleKey
  · exact StoreTable.exterDataTable_singleKey

/-- The two tables share no key type. -/
theorem disjoint {k k' : Kind} (h : k ≠ k') :
    k.table.primaryKey ≠ k'.table.primaryKey ∧ k.table.primaryKey ≠ k'.ukey ∧
      k.ukey ≠ k'.table.primaryKey ∧ k.ukey ≠ k'.ukey := by
  cases k <;> cases k' <;> first | exact absurd rfl h | decide

end Kind

/-- The stored record under an id. -/
def record (k : Kind) (db : DataDb) (i : Nat) : Option UserDataT :=
  (db.get (encodePrimaryKey k.table.primaryKey i)).bind DataV.parseUser

/-- The `can_add_*` flags of a record; a record that is not there has none. -/
def flags (r : Option UserDataT) : Bool × Bool × Bool × Bool × Bool :=
  let r := r.getD {}
  (r.canAddUsers, r.canAddTags, r.canAddCategory, r.canAddItems, r.canAddProfiles)

/-! ## The machine -/

/-- A write request, with what the outside answers. -/
inductive Request
  | manageUser (env : ActionEnv) (resp : RespT UserDataT)
  | manageExter (env : ActionEnv) (resp : RespT ExterDataT)
  | resetUser (currtime : Nat) (resp : ResetRespT) (env : CommitEnv)
  | resetExter (currtime : Nat) (resp : ResetRespT) (env : CommitEnv)

/-- A request runs to its end, successful or not. -/
def step (st : SharedTable) : Request → Option SharedTable
  | .manageUser env resp => some (UserDataService.manageDataAction env st resp).table
  | .manageExter env resp => some (ExterDataService.manageDataAction env st resp).table
  | .resetUser currtime resp env => some (UserDataService.resetPassAction st currtime resp env).1
  | .resetExter currtime resp env => some (ExterDataService.resetPassAction st currtime resp env).1

/-- Both tables are in order. -/
def InOrder (db : DataDb) : Prop := ∀ k : Kind, StoreTable.TableOk k.table k.ukey db

/-- No user record is an admin. -/
def NoUserAdmin (db : DataDb) : Prop :=
  ∀ i r, record .user db i = some r → r.isAdmin = false

/-- Runs start from records in order, without an admin among the users. -/
def machine : Machine SharedTable Request where
  init st := InOrder st.maindb ∧ NoUserAdmin st.maindb
  step := step

/-- The records of a new node are a start: they are in order, and there is no admin. -/
theorem machine_init_freshDb (st : SharedTable) : machine.init { st with maindb := freshDb } := by
  have hok : InOrder freshDb := fun k => k.singleKey.tableOk_freshDb
  refine ⟨hok, fun i r hr => ?_⟩
  rw [record, get_freshDb] at hr
  split at hr
  · cases hr
    rfl
  · cases hr

/-- The updater of an exter request, as the session check of the request returns it. -/
def exterUpdater (st : SharedTable) (env : ActionEnv) (resp : RespT ExterDataT) :
    Except Exc (Option UserDataT) :=
  (checkSession env.decode env.sessionTime st
    { name := resp.username, sessionkey := resp.sessionkey, keytype := kExterdata } true).2

/-- The request may change the flags of an exter with this name: its updater is an admin with
    another name, its fields have the role bit, and it has a payload for the name. -/
def Grants (st : SharedTable) (req : Request) (name : Bytes) : Prop :=
  ∃ env resp updater, req = .manageExter env resp ∧
    exterUpdater st env resp = .ok (some updater) ∧ updater.isAdmin = true ∧
    hasBits resp.fields udfldRole = true ∧ updater.name ≠ name ∧
    ∃ data ∈ resp.payloads ++ [resp.payload], data.name = name

/-! ## The records a request writes -/

/-- The record a change replaces. -/
def before (k : Kind) (db : DataDb) (c : Change UserDataT) : Option UserDataT :=
  record k db (k.table.id c.record)

/-- From `db` to `db'` the request wrote records of one kind that fit, and all of them satisfy `P`. -/
def Wrote (k : Kind) (db db' : DataDb) (P : Change UserDataT → Prop) : Prop :=
  ∃ cs : List (Change UserDataT), (∀ c ∈ cs, StoreTable.Fits k.table k.ukey db c ∧ P c) ∧
    cs.Pairwise (StoreTable.Apart k.table k.ukey) ∧
    db' = db.write (dataBatch (cs.flatMap (k.table.rows k.ukey)))

/-- The change keeps the admin flag, and the other flags unless `G` allows it for the name. -/
def Keeps (k : Kind) (db : DataDb) (G : Bytes → Prop) (c : Change UserDataT) : Prop :=
  c.record.isAdmin = ((before k db c).getD {}).isAdmin ∧
    (flags (some c.record) ≠ flags (before k db c) → k = .exter ∧ G c.record.name)

theorem Wrote.refl (k : Kind) (db : DataDb) (P : Change UserDataT → Prop) : Wrote k db db P :=
  ⟨[], fun _ h => absurd h List.not_mem_nil, .nil, rfl⟩

theorem Wrote.mono {k : Kind} {db db' : DataDb} {P Q : Change UserDataT → Prop}
    (h : Wrote k db db' P)
    (himp : ∀ c, StoreTable.Fits k.table k.ukey db c → P c → Q c) : Wrote k db db' Q := by
  obtain ⟨cs, hcs, hap, hdb⟩ := h
  exact ⟨cs, fun c hc => ⟨(hcs c hc).1, himp c (hcs c hc).1 (hcs c hc).2⟩, hap, hdb⟩

/-- Writing records keeps both tables in order. -/
theorem Wrote.inOrder {k : Kind} {db db' : DataDb} {P : Change UserDataT → Prop}
    (h : Wrote k db db' P) (hok : InOrder db) : InOrder db' := by
  obtain ⟨cs, hcs, hap, rfl⟩ := h
  intro k'
  by_cases hk : k' = k
  · subst hk
    exact k'.singleKey.tableOk_batch (hok k') (fun c hc => (hcs c hc).1) hap
  · obtain ⟨h1, h2, h3, h4⟩ := Kind.disjoint hk
    refine k'.singleKey.tableOk_congr (hok k') fun key hkey => ?_
    have hother : key.keytype ≠ k.table.primaryKey ∧ key.keytype ≠ k.ukey := by
      rcases hkey with hkey | hkey <;> rw [hkey]
      · exact ⟨h1, h2⟩
      · exact ⟨h3, h4⟩
    exact k.singleKey.get_write_batch_other db cs hother.1 hother.2

theorem parse_serialize (k : Kind) (r : UserDataT) :
    DataV.parseUser (k.table.serialize r) = some r := by cases k <;> rfl

/-- After the step a record is one that was written, or as before. -/
theorem Wrote.record {k : Kind} {db db' : DataDb} {P : Change UserDataT → Prop}
    (h : Wrote k db db' P) (k' : Kind) (i : Nat) :
    (∃ c, P c ∧ k' = k ∧ before k db c = record k db i ∧
      Privileges.record k' db' i = some c.record) ∨
    Privileges.record k' db' i = Privileges.record k' db i := by
  obtain ⟨cs, hcs, -, rfl⟩ := h
  by_cases hk : k' = k
  · subst hk
    rcases k'.singleKey.get_write_batch db cs i with ⟨c, hc, hid, hget⟩ | ⟨-, hget⟩
    · refine .inl ⟨c, (hcs c hc).2, rfl, by rw [before, hid], ?_⟩
      rw [Privileges.record, hget, Option.bind_some, parse_serialize]
    · exact .inr (by rw [Privileges.record, hget, Privileges.record])
  · obtain ⟨h1, h2, -, -⟩ := Kind.disjoint hk
    have hget := k.singleKey.get_write_batch_other db cs
      (k := encodePrimaryKey k'.table.primaryKey i) h1 h2
    exact .inr (by rw [Privileges.record, hget, Privileges.record])

/-! ## The frame of `PrepareData` -/

theorem assigned_agree (found : Bool) (action : Nat) (c : UserDataT) (g : UdField) :
    g.Agree c (UserDataService.assigned found action c) := by
  rw [UserDataService.assigned]
  split
  · cases g <;> first | rfl | exact ⟨rfl, rfl, rfl, rfl⟩
  · exact UdField.Agree.refl g c

theorem assigned_flags (found : Bool) (action : Nat) (c : UserDataT) :
    flags (some (UserDataService.assigned found action c)) = flags (some c) := by
  rw [UserDataService.assigned]
  split <;> rfl

/-- Records that agree on the role group and outside all groups have the same flags. -/
theorem flags_eq {a b : UserDataT} (hrest : UdField.rest b = UdField.rest a)
    (hrole : UdField.role.Agree a b) : flags (some b) = flags (some a) := by
  obtain ⟨h1, h2, h3, h4⟩ := hrole
  have h5 := congrArg UserDataT.canAddProfiles hrest
  have h5 : b.canAddProfiles = a.canAddProfiles := h5
  simp only [flags, Option.getD_some, h1, h2, h3, h4, h5]

/-- **The frame of a user's `PrepareData`**: a group changes only if its bit is in the fields and
    the updater's permissions on the stored record open it. -/
theorem user_frame {env : PrepEnv} {db : DataDb} {updater data : UserDataT} {action fields : Nat}
    {merge found : Bool} {out : UserDataT} (hok : InOrder db) (hact : action ≠ uactionDelete)
    (h : UserDataService.prepareData env db updater data action fields merge = .ok (found, out))
    (g : UdField)
    (hg : ¬ (hasBits fields g.bit = true ∧
      hasBits (UserDataService.userPerms updater
        ((UserDataService.service.stored db data).getD { name := data.name }) found action)
        g.userMask = true)) :
    g.Agree ((UserDataService.service.stored db data).getD { name := data.name }) out := by
  obtain ⟨-, -, hp⟩ := (UserDataService.prepareData_eq_ok (hok .user)).mp h
  obtain ⟨-, -, rfl, ⟨hdel, -⟩ | ⟨-, c, hc, rfl⟩⟩ := UserDataService.prepareFound_eq_ok.mp hp
  · exact absurd hdel hact
  · have hframe := (setFields_frame (UserDataService.fieldParts_staysIn env merge) hc).2 g hg
    exact hframe.trans (assigned_agree _ _ _ g)

/-- **The frame of an exter's `PrepareData`.** -/
theorem exter_frame {env : PrepEnv} {db : DataDb} {updater data : ExterDataT} {action fields : Nat}
    {merge found : Bool} {out : ExterDataT} (hok : InOrder db) (hact : action ≠ uactionDelete)
    (h : ExterDataService.prepareData env db updater data action fields merge = .ok (found, out))
    (g : UdField)
    (hg : ¬ (hasBits fields g.bit = true ∧
      hasBits (ExterDataService.exterPerms updater data) g.exterMask = true)) :
    g.Agree ((ExterDataService.service.stored db data).getD { name := data.name }) out := by
  obtain ⟨-, -, hp⟩ := (ExterDataService.prepareData_eq_ok (hok .exter)).mp h
  obtain ⟨-, rfl, ⟨hdel, -⟩ | ⟨-, c, hc, rfl⟩⟩ := ExterDataService.prepareFound_eq_ok.mp hp
  · exact absurd hdel hact
  · have hframe := (setFields_frame (ExterDataService.fieldParts_staysIn env merge) hc).2 g hg
    exact hframe.trans (assigned_agree _ _ _ g)

/-! ## What the written records keep -/

/-- The record that a change replaces is the one stored under the name of the payload. -/
theorem before_eq {k : Kind} {db : DataDb} (hok : StoreTable.TableOk k.table k.ukey db)
    {c : Change UserDataT} (hfit : StoreTable.Fits k.table k.ukey db c) :
    before k db c = k.table.find db (k.table.getKey c.record k.ukey) := by
  have hk := k.singleKey.keytype_ukey c.record
  rw [StoreTable.Fits] at hfit
  split at hfit
  · obtain ⟨old, hold, hid⟩ := hfit
    obtain ⟨-, -, hget, -⟩ := (k.singleKey.find_eq_some hok hk).mp hold
    rw [before, record, hid, hget, hold, Option.bind_some, parse_serialize]
  · obtain ⟨-, hfree, hname⟩ := hfit
    rw [before, record, hfree, (k.singleKey.find_eq_none hok hk).mpr hname]
    rfl

/-- A change keeps what the record under the payload's name has. -/
theorem keeps_of_stored {k : Kind} {db : DataDb} {G : Bytes → Prop} {c : Change UserDataT}
    {stored : Option UserDataT} (name : Bytes) (hbefore : before k db c = stored)
    (hadmin : c.record.isAdmin = (stored.getD { name := name }).isAdmin)
    (hflags : flags (some c.record) ≠ flags (some (stored.getD { name := name })) →
      k = .exter ∧ G c.record.name) : Keeps k db G c := by
  rw [Keeps, hbefore]
  cases stored <;> exact ⟨hadmin, hflags⟩

theorem fillRecord_flags (m : Manage) (data : UserDataT) (found : Bool) (id : Nat) (r : UserDataT) :
    (UserDataService.fillRecord m data found id r).isAdmin = r.isAdmin ∧
      flags (some (UserDataService.fillRecord m data found id r)) = flags (some r) := by
  cases found <;> exact ⟨rfl, rfl⟩

/-- A user's `PrepareData` keeps the admin flag and all `can_add_*` flags. -/
theorem user_prepare_keeps {env : PrepEnv} {db : DataDb} {m : Manage} {data out : UserDataT}
    {found : Bool} (hok : InOrder db)
    (h : UserDataService.service.prepare env db m data = .ok (found, out)) :
    out.isAdmin = ((UserDataService.service.stored db data).getD { name := data.name }).isAdmin ∧
      flags (some out) =
        flags (some ((UserDataService.service.stored db data).getD { name := data.name })) := by
  have h' : UserDataService.prepareData env db m.updater data m.action m.fields m.merge =
      .ok (found, out) := h
  obtain ⟨-, -, hp⟩ := (UserDataService.prepareData_eq_ok (hok .user)).mp h'
  obtain ⟨-, -, -, hadmin, -⟩ := UserDataService.prepareFound_same hp
  refine ⟨hadmin, ?_⟩
  obtain ⟨-, -, -, ⟨-, rfl⟩ | ⟨-, c, hc, rfl⟩⟩ := UserDataService.prepareFound_eq_ok.mp hp
  · rfl
  · rw [assigned_flags]
    obtain ⟨hrest, hframe⟩ := setFields_frame (UserDataService.fieldParts_staysIn env m.merge) hc
    -- no permission opens the role group of a user
    refine flags_eq hrest (hframe .role fun hg => ?_)
    simp [UdField.userMask, wrtpudRole, hasBits] at hg

/-- An exter's `PrepareData` keeps the admin flag, and changes `can_add_*` flags only for an admin
    with another name who asks for the role. -/
theorem exter_prepare_keeps {env : PrepEnv} {db : DataDb} {m : Manage} {data out : ExterDataT}
    {found : Bool} (hok : InOrder db)
    (h : ExterDataService.service.prepare env db m data = .ok (found, out)) :
    out.isAdmin = ((ExterDataService.service.stored db data).getD { name := data.name }).isAdmin ∧
      (flags (some out) ≠
          flags (some ((ExterDataService.service.stored db data).getD { name := data.name })) →
        m.updater.isAdmin = true ∧ m.updater.name ≠ data.name ∧
          hasBits m.fields udfldRole = true) := by
  have h' : ExterDataService.prepareData env db m.updater data m.action m.fields m.merge =
      .ok (found, out) := h
  obtain ⟨-, -, hp⟩ := (ExterDataService.prepareData_eq_ok (hok .exter)).mp h'
  obtain ⟨-, -, -, hadmin, -⟩ := ExterDataService.prepareFound_same hp
  refine ⟨hadmin, ?_⟩
  obtain ⟨-, -, ⟨-, rfl⟩ | ⟨-, c, hc, rfl⟩⟩ := ExterDataService.prepareFound_eq_ok.mp hp
  · exact fun hne => absurd rfl hne
  · rw [assigned_flags]
    obtain ⟨hrest, hframe⟩ := setFields_frame (ExterDataService.fieldParts_staysIn env m.merge) hc
    intro hne
    by_cases hg : hasBits m.fields udfldRole = true ∧
        hasBits (ExterDataService.exterPerms m.updater data) wrtpedRole = true
    · obtain ⟨hfields, hperms⟩ := hg
      rw [ExterDataService.exterPerms] at hperms
      split_ifs at hperms with hself hadm
      · exact absurd hperms (by decide)
      · exact ⟨hadm, hself, hfields⟩
      · exact absurd hperms (by decide)
    · exact absurd (flags_eq hrest (hframe .role hg)) hne

/-! ## What one request does -/

theorem manage_wrote {k : Kind} {st : SharedTable} (hm : st.isMaster = true)
    (hok : InOrder st.maindb) (m : Manage) (input : List (UserDataT × PrepEnv)) (env : CommitEnv) :
    Wrote k st.maindb (k.service.manage st m input env).table.maindb
      (fun c => ∃ p ∈ input, k.service.Made m st.maindb p c) := by
  have hok' : k.service.TableOk st.maindb := by
    rw [Service.TableOk, k.service_table, k.service_ukey]
    exact hok k
  rcases k.service_lawful.manage_maindb hm hok' m input env with
    hsame | ⟨cs, hmade, -, hfit, hap, hdb⟩
  · rw [hsame]
    exact Wrote.refl _ _ _
  · rw [k.service_table, k.service_ukey] at hfit hap hdb
    exact ⟨cs, fun c hc => ⟨hfit c hc, forall₂_mem hmade hc⟩, hap, hdb⟩

/-- The record a payload leads to has the payload's name, and replaces the one stored under it. -/
theorem made_before {k : Kind} {db : DataDb} (hok : InOrder db) {m : Manage}
    {p : UserDataT × PrepEnv} {c : Change UserDataT}
    (hfit : StoreTable.Fits k.table k.ukey db c) (hmade : k.service.Made m db p c) :
    before k db c = k.service.stored db p.1 ∧ c.record.name = p.1.name := by
  obtain ⟨-, cdata, id, hp, -, hfill⟩ := hmade
  have hok' : k.service.TableOk db := by
    rw [Service.TableOk, k.service_table, k.service_ukey]
    exact hok k
  have hkey : k.service.key c.record = k.service.key p.1 := by
    rw [hfill, k.service_lawful.fill_key]
    exact (k.service_lawful.prepare hok' hp).1
  constructor
  · rw [before_eq (hok k) hfit, Service.stored, ← hkey, Service.key, k.service_table,
      k.service_ukey]
  · cases k <;> simpa [Kind.service, UserDataService.key_eq, ExterDataService.key_eq,
      encodeSecondaryKey] using hkey

theorem user_made_keeps {db : DataDb} (hok : InOrder db) {m : Manage} {p : UserDataT × PrepEnv}
    {c : Change UserDataT} (hfit : StoreTable.Fits userDataTable uUserdataName db c)
    (hmade : UserDataService.service.Made m db p c) (G : Bytes → Prop) : Keeps .user db G c := by
  obtain ⟨hbefore, -⟩ := made_before (k := .user) hok hfit hmade
  obtain ⟨-, cdata, id, hp, -, hfill⟩ := hmade
  obtain ⟨hadmin, hflags⟩ := user_prepare_keeps hok hp
  obtain ⟨hfa, hff⟩ := fillRecord_flags m p.1 c.found id cdata
  have hrec : c.record = UserDataService.fillRecord m p.1 c.found id cdata := hfill
  refine keeps_of_stored p.1.name hbefore ?_ ?_
  · rw [hrec, hfa]
    exact hadmin
  · intro hne
    rw [hrec, hff] at hne
    exact absurd hflags hne

theorem exter_made_keeps {db : DataDb} (hok : InOrder db) {m : Manage} {p : ExterDataT × PrepEnv}
    {c : Change UserDataT} (hfit : StoreTable.Fits exterDataTable uExterdataName db c)
    (hmade : ExterDataService.service.Made m db p c) :
    Keeps .exter db (fun name => m.updater.isAdmin = true ∧ m.updater.name ≠ name ∧
      hasBits m.fields udfldRole = true ∧ p.1.name = name) c := by
  obtain ⟨hbefore, hname⟩ := made_before (k := .exter) hok hfit hmade
  obtain ⟨-, cdata, id, hp, -, hfill⟩ := hmade
  obtain ⟨hadmin, hflags⟩ := exter_prepare_keeps hok hp
  obtain ⟨hfa, hff⟩ := fillRecord_flags m p.1 c.found id cdata
  have hrec : c.record = UserDataService.fillRecord m p.1 c.found id cdata := hfill
  refine keeps_of_stored p.1.name hbefore ?_ ?_
  · rw [hrec, hfa]
    exact hadmin
  · intro hne
    rw [hname]
    rw [hrec, hff] at hne
    obtain ⟨h1, h2, h3⟩ := hflags hne
    exact ⟨rfl, h1, h2, h3, rfl⟩

/-- A password reset keeps all flags. -/
theorem reset_wrote {k : Kind} {st : SharedTable} (hok : InOrder st.maindb) (currtime : Nat)
    (resp : ResetRespT) (env : CommitEnv) (G : Bytes → Prop) :
    Wrote k st.maindb (resetPass k.table k.ukey st currtime resp env).1.maindb
      (Keeps k st.maindb G) := by
  rw [resetPass]
  by_cases hm : st.isMaster = true
  · rw [if_neg (by simp [hm])]
    cases hrows : resetPassRows k.table k.ukey st.maindb currtime resp with
    | error e => exact Wrote.refl _ _ _
    | ok items =>
      have hold : ∃ old, k.table.find st.maindb (encodeSecondaryKey k.ukey resp.username) =
          some old ∧ items = k.table.updateRows
            { old with passkey := resp.newpass, updatedAt := currtime } := by
        cases k
        · exact resetPassRows_ok StoreTable.userDataTable_singleKey (hok .user) hrows
        · exact resetPassRows_ok StoreTable.exterDataTable_singleKey (hok .exter) hrows
      obtain ⟨old, hold, hitems⟩ := hold
      have hcommit := commit_result hm currtime { item := items, updater := defaultAdmin } true env
      simp only
      rcases hcommit.maindb with ⟨hdb, -⟩ | ⟨hdb, -⟩
      · rw [hdb]
        exact Wrote.refl _ _ _
      · obtain ⟨hk, -, hget, -⟩ := (k.singleKey.find_eq_some (hok k) rfl).mp hold
        have hid : k.table.id { old with passkey := resp.newpass, updatedAt := currtime } =
            k.table.id old := by cases k <;> rfl
        have hkey : k.table.getKey { old with passkey := resp.newpass, updatedAt := currtime }
            k.ukey = k.table.getKey old k.ukey := by cases k <;> rfl
        have hfit : StoreTable.Fits k.table k.ukey st.maindb
            ⟨true, { old with passkey := resp.newpass, updatedAt := currtime }⟩ :=
          ⟨old, by rw [hkey, hk, hold], hid⟩
        have hbefore := before_eq (hok k) hfit
        rw [hkey, hk, hold] at hbefore
        refine ⟨[⟨true, { old with passkey := resp.newpass, updatedAt := currtime }⟩], ?_,
          List.pairwise_singleton _ _, ?_⟩
        · refine List.forall_mem_singleton.mpr ⟨hfit, keeps_of_stored [] hbefore rfl ?_⟩
          exact fun hne => absurd rfl hne
        · rw [hdb, applyItems, hitems]
          rfl
  · rw [if_pos (by simpa using hm)]
    exact Wrote.refl _ _ _

/-- **The step lemma**: a request writes records of one kind, and each keeps its admin flag, and its
    other flags unless the request grants them. -/
theorem step_wrote {st st' : SharedTable} (hok : InOrder st.maindb) {req : Request}
    (hs : step st req = some st') :
    ∃ k, Wrote k st.maindb st'.maindb (Keeps k st.maindb (Grants st req)) := by
  cases req with
  | manageUser env resp =>
    cases hs
    refine ⟨.user, ?_⟩
    rw [UserDataService.manageDataAction]
    rcases manageDataAction_cases UserDataService.head UserDataService.service env st resp with
      ⟨dbcache, e, hout⟩ | ⟨hm, action, merge, dbcache, updater, -, -, -, hout⟩
    · rw [hout]
      exact Wrote.refl _ _ _
    · rw [hout]
      exact (manage_wrote (k := .user)
          (show ({ st with dbcache := dbcache } : SharedTable).isMaster = true from hm) hok _ _
          _).mono
        fun c hfit hmade => by
          obtain ⟨p, -, hmade⟩ := hmade
          exact user_made_keeps hok hfit hmade _
  | manageExter env resp =>
    cases hs
    refine ⟨.exter, ?_⟩
    rw [ExterDataService.manageDataAction]
    rcases manageDataAction_cases ExterDataService.head ExterDataService.service env st resp with
      ⟨dbcache, e, hout⟩ | ⟨hm, action, merge, dbcache, updater, -, hsess, -, hout⟩
    · rw [hout]
      exact Wrote.refl _ _ _
    · rw [hout]
      refine (manage_wrote (k := .exter)
          (show ({ st with dbcache := dbcache } : SharedTable).isMaster = true from hm) hok _ _
          _).mono
        fun c hfit hmade => ?_
      obtain ⟨p, hp, hmade⟩ := hmade
      obtain ⟨hadmin, hflags⟩ := exter_made_keeps hok hfit hmade
      refine ⟨hadmin, fun hne => ?_⟩
      obtain ⟨hk, hadm, hname, hrole, hpname⟩ := hflags hne
      have hupd : exterUpdater st env resp = .ok (some updater) := congrArg Prod.snd hsess
      exact ⟨hk, env, resp, updater, rfl, hupd, hadm, hasBits_role_of_exterFilter hrole, hname,
        p.1, ActionHead.mem_payloadsOf (mem_withEnv hp), hpname⟩
  | resetUser currtime resp env =>
    cases hs
    exact ⟨.user, reset_wrote (k := .user) hok currtime resp env _⟩
  | resetExter currtime resp env =>
    cases hs
    exact ⟨.exter, reset_wrote (k := .exter) hok currtime resp env _⟩

/-- No request turns `is_admin` on. -/
theorem step_isAdmin {st st' : SharedTable} (hok : InOrder st.maindb) {req : Request}
    (hs : step st req = some st') {k : Kind} {i : Nat} {r' : UserDataT}
    (hr' : record k st'.maindb i = some r') (hadmin : r'.isAdmin = true) :
    ∃ r, record k st.maindb i = some r ∧ r.isAdmin = true := by
  obtain ⟨k₀, hw⟩ := step_wrote hok hs
  rcases hw.record k i with ⟨c, ⟨hc, -⟩, rfl, hbefore, hrec⟩ | hrec
  · rw [hrec, Option.some.injEq] at hr'
    rw [hr', hadmin, hbefore] at hc
    cases hr : record k st.maindb i with
    | none => simp [hr] at hc
    | some r => exact ⟨r, rfl, by simpa [hr] using hc.symm⟩
  · exact ⟨r', hrec ▸ hr', hadmin⟩

/-- The `can_add_*` flags of a record change only if the request grants it. -/
theorem step_flags {st st' : SharedTable} (hok : InOrder st.maindb) {req : Request}
    (hs : step st req = some st') {k : Kind} {i : Nat}
    (hne : flags (record k st'.maindb i) ≠ flags (record k st.maindb i)) :
    k = .exter ∧ ∃ r', record k st'.maindb i = some r' ∧ Grants st req r'.name := by
  obtain ⟨k₀, hw⟩ := step_wrote hok hs
  rcases hw.record k i with ⟨c, ⟨-, hc⟩, rfl, hbefore, hrec⟩ | hrec
  · rw [hrec, ← hbefore] at hne
    obtain ⟨hk, hgrant⟩ := hc hne
    exact ⟨hk, c.record, hrec, hgrant⟩
  · exact absurd (congrArg flags hrec) hne

/-- **The run lemma.** -/
theorem inOrder_reach {st : SharedTable} (h : machine.Reach st) :
    InOrder st.maindb ∧ NoUserAdmin st.maindb := by
  refine h.invariant (fun _ h => h) fun s l s' hi _ hs => ?_
  obtain ⟨hok, hadmin⟩ := hi
  obtain ⟨k, hw⟩ := step_wrote hok hs
  refine ⟨hw.inOrder hok, fun i r' hr' => ?_⟩
  by_contra hne
  obtain ⟨r, hr, hr1⟩ := step_isAdmin hok hs hr' (by simpa using hne)
  rw [hadmin i r hr] at hr1
  cases hr1

/-- **No privilege escalation.** -/
theorem no_escalation {st : SharedTable} (h : machine.Reach st) :
    NoUserAdmin st.maindb ∧
    (∀ req st', machine.step st req = some st' →
      (∀ k i r', record k st'.maindb i = some r' → r'.isAdmin = true →
        ∃ r, record k st.maindb i = some r ∧ r.isAdmin = true) ∧
      ∀ k i, flags (record k st'.maindb i) ≠ flags (record k st.maindb i) →
        k = .exter ∧ ∃ r', record k st'.maindb i = some r' ∧ Grants st req r'.name) ∧
    (∀ env updater data action fields merge found out, action ≠ uactionDelete →
      UserDataService.prepareData env st.maindb updater data action fields merge =
          .ok (found, out) →
        ∀ g : UdField, ¬ (hasBits fields g.bit = true ∧
            hasBits (UserDataService.userPerms updater
              ((UserDataService.service.stored st.maindb data).getD { name := data.name }) found
              action) g.userMask = true) →
          g.Agree ((UserDataService.service.stored st.maindb data).getD { name := data.name })
            out) ∧
    ∀ env updater data action fields merge found out, action ≠ uactionDelete →
      ExterDataService.prepareData env st.maindb updater data action fields merge =
          .ok (found, out) →
        ∀ g : UdField, ¬ (hasBits fields g.bit = true ∧
            hasBits (ExterDataService.exterPerms updater data) g.exterMask = true) →
          g.Agree ((ExterDataService.service.stored st.maindb data).getD { name := data.name })
            out := by
  obtain ⟨hok, hadmin⟩ := inOrder_reach h
  refine ⟨hadmin, fun req st' hs => ⟨?_, ?_⟩, ?_, ?_⟩
  · exact fun k i r' hr' hr1 => step_isAdmin hok hs hr' hr1
  · exact fun k i hne => step_flags hok hs hne
  · exact fun _ _ _ _ _ _ _ _ hact hp g hg => user_frame hok hact hp g hg
  · exact fun _ _ _ _ _ _ _ _ hact hp g hg => exter_frame hok hact hp g hg

/-- A master with no records, and an admin exter in its cache. -/
def blankMaster : SharedTable where
  isMaster := true
  dbcache := OrdMap.empty.put (encodeSecondaryKey uExterdataName (str "boss"))
    (.packed (.user { id := 7, name := str "boss", isAdmin := true }))

/-- The admin creates an exter who may add users. -/
def createHelper : Request :=
  .manageExter { decode := fun _ _ => .ok { name := str "boss" } }
    { username := str "boss", sessionkey := str "k", action := .wCreate, fields := udfldRole,
      payload := { name := str "helper", canAddUsers := true, isAdmin := true } }

theorem blankMaster_init : machine.init blankMaster := by
  refine ⟨fun k => ⟨?_, ?_⟩, ?_⟩
  · intro key v hv
    cases hv
  · intro i v hv
    cases hv
  · intro i r hr
    cases hr

/-- The helper gets the privilege the admin asked for, and not the admin flag of the message. -/
theorem no_escalation_createHelper :
    ∃ st, machine.exec blankMaster [createHelper] = some st ∧
      (record .exter st.maindb 1).map (fun r => (r.canAddUsers, r.isAdmin)) = some (true, false) ∧
      NoUserAdmin st.maindb := by
  have hrun : ∃ st, machine.exec blankMaster [createHelper] = some st ∧
      (record .exter st.maindb 1).map (fun r => (r.canAddUsers, r.isAdmin)) = some (true, false) :=
    ⟨_, rfl, by decide⟩
  obtain ⟨st, he, hr⟩ := hrun
  exact ⟨st, he, hr, (no_escalation (Machine.Reach.of_exec blankMaster_init he)).1⟩

end Zapdos.Store.Privileges
