/-
  Who may write — the documented privileges, and what the write requests enforce of them.

  A record may be written by an admin, by its owner (who may not delete it), and, for users and
  items, by an exter with the privilege to add such records who creates the record or manages it.

  THE CRUX.  `PrepareData` computes the permissions of the updater on the record and tests them for
  each group of fields, but never tests that there are any: without permissions the assignments are
  skipped and the record is written all the same, and the guard of the delete branch is a constant.
  So a request keeps the policy exactly when no payload falls through, or when it is refused for a
  reason that has nothing to do with permissions (`write_authorisation`).
-/
import Zapdos.Store.Acceptance
import Zapdos.Store.RecordKinds

namespace Zapdos.Store.Access

open Zapdos.Lib

/-! ## The policy -/

/-- Who may write the records of one kind. -/
structure Policy (T : Type) where
  /-- the record is the updater's own -/
  Owns : UserDataT → T → Prop
  /-- the updater may add such records -/
  Privileged : UserDataT → Prop
  manager : T → Bytes

namespace Policy

variable {T : Type} (pol : Policy T)

/-- The privilege of the updater covers the record: it is new, or the updater is its manager. -/
def Covers (updater : UserDataT) (stored : Option T) : Prop :=
  pol.Privileged updater ∧ ∀ old, stored = some old → pol.manager old = updater.name

/-- The updater may do this with the record stored under the name of `data`. -/
def Authorised (updater : UserDataT) (action : Nat) (stored : Option T) (data : T) : Prop :=
  updater.isAdmin = true ∨ (pol.Owns updater data ∧ action ≠ uactionDelete) ∨
    pol.Covers updater stored

/-- The updater has no permission on the record that anything tests: it is no admin, has no
    privilege that covers the record, and does not own it (or owns and deletes it, where an owner is
    not held to updates). -/
def FallsThrough (ownerOnlyUpdates : Bool) (updater : UserDataT) (action : Nat)
    (stored : Option T) (data : T) : Prop :=
  updater.isAdmin = false ∧ ¬ pol.Covers updater stored ∧
    (pol.Owns updater data → action = uactionDelete ∧ ownerOnlyUpdates = false)

end Policy

/-- Users belong to themselves and to the exters who add users. -/
def userPolicy : Policy UserDataT where
  Owns updater data := updater.keytype = kUserdata ∧ updater.name = data.name
  Privileged updater := updater.canAddUsers = true
  manager := UserDataT.manager

/-- Exters belong to themselves. -/
def exterPolicy : Policy ExterDataT where
  Owns updater data := updater.name = data.name
  Privileged _ := False
  manager := UserDataT.manager

/-- Items belong to the exters who add items. -/
def itemPolicy : Policy ItemDataT where
  Owns _ _ := False
  Privileged updater := updater.canAddItems = true
  manager := ItemDataT.manager

/-! ## What `PrepareData` refuses -/

/-- Everything that makes a user's `PrepareData` fail. -/
def userRefuses (env : PrepEnv) (db : DataDb) (m : Manage) (data : UserDataT) : Prop :=
  let stored := UserDataService.service.stored db data
  let old := stored.getD { name := data.name }
  m.updater.id = 0 ∨ data.name = [] ∨
    Refused m.updater.isAdmin stored.isSome old.locked m.action ∨
    (userPolicy.Owns m.updater data ∧ m.action ≠ uactionUpdate) ∨
    (m.action ≠ uactionDelete ∧ ∃ e,
      setFields m.fields (UserDataService.userPerms m.updater old stored.isSome m.action) data
        (UserDataService.fieldParts env m.merge) old = .error e)

/-- Everything that makes an exter's `PrepareData` fail. -/
def exterRefuses (env : PrepEnv) (db : DataDb) (m : Manage) (data : ExterDataT) : Prop :=
  let stored := ExterDataService.service.stored db data
  let old := stored.getD { name := data.name }
  m.updater.id = 0 ∨ data.name = [] ∨
    Refused m.updater.isAdmin stored.isSome old.locked m.action ∨
    (m.action ≠ uactionDelete ∧ ∃ e,
      setFields m.fields (ExterDataService.exterPerms m.updater data) data
        (ExterDataService.fieldParts env m.merge) old = .error e)

/-- Everything that makes an item's `PrepareData` fail. -/
def itemRefuses (s : Service ItemDataT) (env : PrepEnv) (db : DataDb) (m : Manage)
    (data : ItemDataT) : Prop :=
  let stored := s.stored db data
  let old := stored.getD { uniqueId := data.uniqueId }
  m.updater.id = 0 ∨ data.uniqueId = [] ∨
    Refused m.updater.isAdmin stored.isSome old.locked m.action ∨
    (m.action ≠ uactionDelete ∧ ∃ e,
      setFields m.fields (ItemDataService.itemPerms m.updater old stored.isSome m.action) data
        (ItemDataService.fieldParts env db s.table.primaryKey m.merge)
        (ItemDataService.rememberOld stored.isSome old) = .error e)

/-- The end of a `PrepareData` succeeds unless a field is refused. -/
theorem outcome_iff {T : Type} {action : Nat} {x : Except Exc T} {del : T} {g : T → T} :
    (∃ out, (action = uactionDelete ∧ out = del) ∨
        (action ≠ uactionDelete ∧ ∃ c, x = .ok c ∧ out = g c)) ↔
      ¬ (action ≠ uactionDelete ∧ ∃ e, x = .error e) := by
  by_cases hdel : action = uactionDelete
  · exact ⟨fun _ h => h.1 hdel, fun _ => ⟨del, .inl ⟨hdel, rfl⟩⟩⟩
  · cases x with
    | error e =>
      refine ⟨?_, fun h => absurd ⟨hdel, e, rfl⟩ h⟩
      rintro ⟨out, ⟨h, -⟩ | ⟨-, c, ⟨⟩, -⟩⟩
      exact absurd h hdel
    | ok c => exact ⟨fun _ ⟨_, e, he⟩ => (nomatch he), fun _ => ⟨g c, .inr ⟨hdel, c, rfl, rfl⟩⟩⟩

theorem userPerms_self_iff {updater cdata : UserDataT} {found : Bool} {action : Nat} :
    UserDataService.userPerms updater cdata found action = writrIsSelf ↔
      updater.keytype = kUserdata ∧ updater.name = cdata.name := by
  rw [UserDataService.userPerms]
  split_ifs with h <;> simp [h, writrIsSelf, writrIsAdmin, writrCreating, writrUpdating,
    writrDeleting]

/-- The record a `PrepareData` starts from has the name of the payload. -/
theorem base_name {u : KeyTypeE} {t : StoreTable UserDataT} (ht : t.SingleKey u)
    (hkey : ∀ r, t.getKey r u = encodeSecondaryKey u r.name) {db : DataDb}
    (hok : StoreTable.TableOk t u db) (data : UserDataT) :
    ((t.find db (t.getKey data u)).getD { name := data.name }).name = data.name := by
  cases hst : t.find db (t.getKey data u) with
  | none => rfl
  | some old =>
    have hk := ((ht.find_eq_some hok (ht.keytype_ukey data)).mp hst).1
    rw [hkey, hkey] at hk
    simpa [encodeSecondaryKey] using hk

theorem user_prepare_iff {env : PrepEnv} {db : DataDb} {m : Manage} {data : UserDataT}
    (hok : UserDataService.service.TableOk db) :
    (∃ out, UserDataService.service.prepare env db m data = .ok out) ↔
      ¬ userRefuses env db m data := by
  have hbase : ((UserDataService.service.stored db data).getD { name := data.name }).name =
      data.name := base_name StoreTable.userDataTable_singleKey (fun _ => rfl) hok data
  have hprep : ∀ out, UserDataService.service.prepare env db m data = .ok out ↔ _ := fun out =>
    UserDataService.prepareData_eq_ok hok
  simp only [hprep, userRefuses, userPolicy, not_or, Prod.exists,
    UserDataService.prepareFound_eq_ok, userPerms_self_iff, hbase, exists_and_left, exists_eq_left,
    outcome_iff, ne_eq]

theorem exter_prepare_iff {env : PrepEnv} {db : DataDb} {m : Manage} {data : ExterDataT}
    (hok : ExterDataService.service.TableOk db) :
    (∃ out, ExterDataService.service.prepare env db m data = .ok out) ↔
      ¬ exterRefuses env db m data := by
  have hprep : ∀ out, ExterDataService.service.prepare env db m data = .ok out ↔ _ := fun out =>
    ExterDataService.prepareData_eq_ok hok
  simp only [hprep, exterRefuses, not_or, Prod.exists, ExterDataService.prepareFound_eq_ok,
    exists_and_left, exists_eq_left, outcome_iff, ne_eq]

theorem item_prepare_iff {t : StoreTable ItemDataT} {u : KeyTypeE} (ht : t.SingleKey u)
    (hkey : ∀ r, t.getKey r u = encodeSecondaryKey u r.uniqueId) {env : PrepEnv} {db : DataDb}
    {m : Manage} {data : ItemDataT} (hok : (ItemDataService.service t u).TableOk db) :
    (∃ out, (ItemDataService.service t u).prepare env db m data = .ok out) ↔
      ¬ itemRefuses (ItemDataService.service t u) env db m data := by
  have hprep : ∀ out, (ItemDataService.service t u).prepare env db m data = .ok out ↔ _ :=
    fun out => ItemDataService.prepareData_eq_ok ht hok hkey
  have htable : (ItemDataService.service t u).table = t := rfl
  simp only [hprep, itemRefuses, not_or, Prod.exists, ItemDataService.prepareFound_eq_ok,
    exists_and_left, exists_eq_left, outcome_iff, ne_eq, htable]

/-! ## What `PrepareData` decides -/

/-- A record is marked as not found if the one it is made from is, and a new one never is. -/
theorem notfound_of_base {T : Type} {f : T → Bool} {stored : Option T} {q r : T}
    (hq : f q = false)
    (hr : f r = f (stored.getD q) ∨ (stored.isSome = false ∧ f r = false)) :
    f r = (stored.map f).getD false := by
  cases stored with
  | none =>
    rcases hr with hr | ⟨-, hr⟩
    · exact hr.trans hq
    · exact hr
  | some old =>
    rcases hr with hr | ⟨hno, -⟩
    · exact hr
    · cases hno

theorem user_assigned_notfound (found : Bool) (action : Nat) (c : UserDataT) :
    (UserDataService.assigned found action c).notfound = c.notfound ∨
      (found = false ∧ (UserDataService.assigned found action c).notfound = false) := by
  rw [UserDataService.assigned]
  split
  · rename_i h
    rw [Bool.and_eq_true, Bool.not_eq_true'] at h
    exact .inr ⟨h.1, rfl⟩
  · exact .inl rfl

theorem item_assigned_notfound (found : Bool) (action : Nat) (c : ItemDataT) :
    (ItemDataService.assigned found action c).notfound = c.notfound ∨
      (found = false ∧ (ItemDataService.assigned found action c).notfound = false) := by
  rw [ItemDataService.assigned]
  split
  · rename_i h
    rw [Bool.and_eq_true, Bool.not_eq_true'] at h
    exact .inr ⟨h.1, rfl⟩
  · exact .inl rfl

theorem user_decides : UserDataService.service.Decides userRefuses where
  readFirst := rfl
  prepare hok := user_prepare_iff hok
  notfound := by
    intro env db m data found r hok hp id
    have hp' := (UserDataService.prepareData_eq_ok hok).mp hp
    refine ((UserDataService.fillRecord_same m data found id r).2.2).trans
      (notfound_of_base (f := UserDataT.notfound) (q := { name := data.name }) rfl ?_)
    obtain ⟨-, -, hfound, ⟨-, rfl⟩ | ⟨-, c, hc, rfl⟩⟩ :=
      UserDataService.prepareFound_eq_ok.mp hp'.2.2
    · exact .inl rfl
    · obtain ⟨-, -, -, -, hnf⟩ := UdField.rest_eq
        (setFields_frame (UserDataService.fieldParts_staysIn env m.merge) hc).1
      rw [← hnf, ← hfound]
      exact user_assigned_notfound found m.action c
  mayInsert := by
    intro env db m data found r hok hp
    have hkey := (UserDataService.service_prepare hok hp).1
    have hname : r.name = data.name := by
      simpa [UserDataService.key_eq, encodeSecondaryKey] using hkey
    show UserDataService.admitName r = UserDataService.admitName data
    rw [UserDataService.admitName, UserDataService.admitName, hname]

theorem exter_decides : ExterDataService.service.Decides exterRefuses where
  readFirst := rfl
  prepare hok := exter_prepare_iff hok
  notfound := by
    intro env db m data found r hok hp id
    have hp' := (ExterDataService.prepareData_eq_ok hok).mp hp
    refine ((UserDataService.fillRecord_same m data found id r).2.2).trans
      (notfound_of_base (f := UserDataT.notfound) (q := { name := data.name }) rfl ?_)
    obtain ⟨-, hfound, ⟨-, rfl⟩ | ⟨-, c, hc, rfl⟩⟩ :=
      ExterDataService.prepareFound_eq_ok.mp hp'.2.2
    · exact .inl rfl
    · obtain ⟨-, -, -, -, hnf⟩ := UdField.rest_eq
        (setFields_frame (ExterDataService.fieldParts_staysIn env m.merge) hc).1
      rw [← hnf, ← hfound]
      exact user_assigned_notfound found m.action c
  mayInsert := by
    intro env db m data found r hok hp
    have hkey := (ExterDataService.service_prepare hok hp).1
    have hname : r.name = data.name := by
      simpa [ExterDataService.key_eq, encodeSecondaryKey] using hkey
    show UserDataService.admitName r = UserDataService.admitName data
    rw [UserDataService.admitName, UserDataService.admitName, hname]

theorem item_decides {pkey ukey : Nat} (hp : kNonode < pkey ∧ pkey < kLognode)
    (hu : kMaxnode < ukey) :
    (ItemDataService.service (itemTable pkey ukey) ukey).Decides
      (itemRefuses (ItemDataService.service (itemTable pkey ukey) ukey)) := by
  have ht := StoreTable.itemTable_singleKey hp hu
  have hkey : ∀ r, (itemTable pkey ukey).getKey r ukey = encodeSecondaryKey ukey r.uniqueId :=
    fun r => if_pos rfl
  refine { readFirst := rfl, prepare := fun hok => item_prepare_iff ht hkey hok,
           notfound := ?_, mayInsert := fun _ _ => rfl }
  intro env db m data found r hok hprep id
  have hp' := (ItemDataService.prepareData_eq_ok ht hok hkey).mp hprep
  refine ((ItemDataService.fillRecord_same m data found id r).2.2).trans
    (notfound_of_base (f := ItemDataT.notfound) (q := { uniqueId := data.uniqueId }) rfl ?_)
  obtain ⟨-, hfound, ⟨-, rfl⟩ | ⟨-, c, hc, rfl⟩⟩ := ItemDataService.prepareFound_eq_ok.mp hp'.2.2
  · exact .inl rfl
  · have hkeep : ItemDataService.SameItem
        (((ItemDataService.service (itemTable pkey ukey) ukey).stored db data).getD
          { uniqueId := data.uniqueId }) c :=
      setFields_keeps (fun part hpart _ _ x x' hset hx => hx.trans
        (ItemDataService.fieldParts_same env db _ m.merge part hpart data x x' hset)) hc
        (ItemDataService.rememberOld_same _ _)
    rw [← hkeep.2.2.2, ← hfound]
    exact item_assigned_notfound found m.action c

/-! ## The guarded kinds -/

/-- The kinds of records with a policy of their own. -/
inductive Kind
  | user | exter | localdata | wikidata
  deriving DecidableEq, Repr

namespace Kind

def toRec : Kind → RecKind
  | user => .user
  | exter => .exter
  | localdata => .localdata
  | wikidata => .wikidata

def policy : (k : Kind) → Policy k.toRec.Rec
  | user => userPolicy
  | exter => exterPolicy
  | localdata => itemPolicy
  | wikidata => itemPolicy

/-- Only users are held to updates of their own record. -/
def ownerOnlyUpdates : Kind → Bool
  | user => true
  | _ => false

def refuses : (k : Kind) → PrepEnv → DataDb → Manage → k.toRec.Rec → Prop
  | user => userRefuses
  | exter => exterRefuses
  | localdata => itemRefuses ItemDataService.localService
  | wikidata => itemRefuses ItemDataService.wikiService

theorem decides (k : Kind) : k.toRec.service.Decides k.refuses := by
  cases k
  · exact user_decides
  · exact exter_decides
  · exact item_decides (by decide) (by decide)
  · exact item_decides (by decide) (by decide)

end Kind

/-! ## Policy and permissions -/

/-- Who falls through is not authorised. -/
theorem not_authorised_of_fallsThrough {T : Type} {pol : Policy T} {b : Bool} {updater : UserDataT}
    {action : Nat} {stored : Option T} {data : T}
    (h : pol.FallsThrough b updater action stored data) :
    ¬ pol.Authorised updater action stored data := by
  obtain ⟨hadmin, hcovers, howns⟩ := h
  rintro (hadm | ⟨hown, hact⟩ | hcov)
  · rw [hadmin] at hadm
    cases hadm
  · exact hact (howns hown).1
  · exact hcovers hcov

/-- Who does not fall through is authorised, or deletes a user record of its own, which is
    refused. -/
theorem authorised_or_refused {k : Kind} {env : PrepEnv} {db : DataDb} {m : Manage}
    {data : k.toRec.Rec}
    (h : ¬ k.policy.FallsThrough k.ownerOnlyUpdates m.updater m.action
      (k.toRec.service.stored db data) data) :
    k.policy.Authorised m.updater m.action (k.toRec.service.stored db data) data ∨
      k.refuses env db m data := by
  by_cases hadmin : m.updater.isAdmin = true
  · exact .inl (.inl hadmin)
  · by_cases hcov : k.policy.Covers m.updater (k.toRec.service.stored db data)
    · exact .inl (.inr (.inr hcov))
    · have howns : ¬ (k.policy.Owns m.updater data →
          m.action = uactionDelete ∧ k.ownerOnlyUpdates = false) :=
        fun ho => h ⟨by simpa using hadmin, hcov, ho⟩
      obtain ⟨hown, hnot⟩ := Classical.not_imp.mp howns
      by_cases hdel : m.action = uactionDelete
      · refine .inr ?_
        cases k with
        | user =>
          have hupd : m.action ≠ uactionUpdate := by
            rw [hdel]
            decide
          exact .inr (.inr (.inr (.inl ⟨hown, hupd⟩)))
        | exter => exact absurd ⟨hdel, rfl⟩ hnot
        | localdata => exact hown.elim
        | wikidata => exact hown.elim
      · exact .inl (.inr (.inl ⟨hown, hdel⟩))

/-! ## Rejected requests -/

/-- The request ended with an error and wrote nothing. -/
def Rejected {T : Type} (st : SharedTable) (out : ActionOut T) : Prop :=
  (∃ e, out.result = .error e) ∧ out.table.maindb = st.maindb ∧ out.table.logdb = st.logdb

/-- **A request with payloads** is rejected when they are not acceptable, or when the log cannot be
    written. -/
theorem manage_rejected_iff {k : Kind} {st : SharedTable} (hm : st.isMaster = true)
    (hok : k.toRec.service.TableOk st.maindb)
    (hlog : ∀ i, st.logcounter < i → st.logdb.get (encodePrimaryKey kLognode i) = none)
    (m : Manage) {input : List (k.toRec.Rec × PrepEnv)} (hinput : input ≠ []) (env : CommitEnv) :
    Rejected st (k.toRec.service.manage st m input env) ↔
      ¬ k.toRec.service.Accepts k.refuses m { table := st } input ∨ env.logOk = false := by
  have hlaw := k.toRec.service_lawful
  rw [← hlaw.payloads_ok_iff k.decides (w := { table := st }) hok]
  by_cases hrun : ∃ w, k.toRec.service.payloads m input { table := st } = (w, .ok ())
  · rw [or_iff_right (not_not.mpr hrun)]
    obtain ⟨w, hrun⟩ := hrun
    obtain ⟨cs, res, hmade, -, -, -, hcommit, hres⟩ := hlaw.manage_of_ok hm hok hrun env
    rw [Rejected, hres]
    -- a request that throws with its entry in the log is not rejected
    have hentered : ∀ {res : Prop} {st' : SharedTable}, env.logOk = true →
        st'.logdb = st.logdb.write (logBatch (stamp m.currtime
          { item := cs.flatMap (k.toRec.service.table.rows k.toRec.service.ukey),
            updater := m.updater.name } true (st.logcounter + 1))) →
        (res ∧ st'.maindb = st.maindb ∧ st'.logdb = st.logdb ↔ env.logOk = false) := by
      intro res st' henv hl
      refine ⟨fun h => ?_, fun h => by rw [henv] at h; cases h⟩
      have hself := logBatch_self (stamp m.currtime
        { item := cs.flatMap (k.toRec.service.table.rows k.toRec.service.ukey),
          updater := m.updater.name } true (st.logcounter + 1)) st.logdb
      rw [← hl, h.2.2, stamp_id, hlog _ (Nat.lt_succ_self _)] at hself
      cases hself
    cases hcommit with
    | empty hitem =>
      cases cs with
      | nil => exact absurd (List.forall₂_nil_right_iff.mp hmade) hinput
      | cons c cs =>
        rw [List.flatMap_cons] at hitem
        exact absurd (List.append_eq_nil_iff.mp hitem).1 (StoreTable.rows_ne_nil _ _ c)
    | noLog hitem henv hdb hl => exact ⟨fun _ => henv, fun _ => ⟨⟨_, rfl⟩, hdb, hl⟩⟩
    | noData hitem henv hdb hl => exact hentered henv.1 hl
    | thrown hitem henv hno hdb hl => exact hentered henv.1 hl
    | done hitem henv =>
      exact ⟨fun h => (nomatch h.1.choose_spec), fun h => by rw [henv.1] at h; cases h⟩
  · obtain ⟨he, hdb, hl, -⟩ := hlaw.manage_of_not_ok hrun env
    exact ⟨fun _ => .inl hrun, fun _ => ⟨he, hdb, hl⟩⟩

/-- The cache of names plays no part in acceptance. -/
theorem accepts_dbcache {T : Type} {s : Service T} {refuses : PrepEnv → DataDb → Manage → T → Prop}
    {m : Manage} {st : SharedTable} {dbcache : OrdMap Key CacheV} {input : List (T × PrepEnv)} :
    s.Accepts refuses m { table := { st with dbcache := dbcache } } input ↔
      s.Accepts refuses m { table := st } input :=
  ⟨fun h => ⟨h.check, h.prepare, h.unused, h.free, h.distinct, h.mayInsert, h.stored, h.ids⟩,
    fun h => ⟨h.check, h.prepare, h.unused, h.free, h.distinct, h.mayInsert, h.stored, h.ids⟩⟩

/-! ## Requests -/

/-- The updater of a request, as its session check returns it. -/
def sessionUpdater (k : Kind) (st : SharedTable) (env : ActionEnv) (resp : RespT k.toRec.Rec) :
    Except Exc (Option UserDataT) :=
  (checkSession env.decode env.sessionTime st
    { name := resp.username, sessionkey := resp.sessionkey,
      keytype := k.toRec.head.updaterKeytype resp } k.toRec.head.onlyadmin).2

/-- A request of an updater with a valid session either changes only records that the updater may
    write, or is rejected and writes nothing. -/
def Respects (k : Kind) (st : SharedTable) (env : ActionEnv) (resp : RespT k.toRec.Rec) : Prop :=
  ∀ updater action merge, sessionUpdater k st env resp = .ok (some updater) →
    writeActionFilter resp.action = .ok (action, merge) →
    (∀ data ∈ k.toRec.head.payloadsOf resp,
      k.policy.Authorised updater action (k.toRec.service.stored st.maindb data) data) ∨
    Rejected st (k.toRec.manageDataAction env st resp)

/-- No payload falls through, or the request is refused for another reason: the node is no master,
    a payload is not acceptable, or the log cannot be written. -/
def NoneFallsThrough (k : Kind) (st : SharedTable) (env : ActionEnv) (resp : RespT k.toRec.Rec) :
    Prop :=
  st.isMaster = false ∨
  ∀ updater action merge, sessionUpdater k st env resp = .ok (some updater) →
    writeActionFilter resp.action = .ok (action, merge) →
    (∀ data ∈ k.toRec.head.payloadsOf resp, ¬ k.policy.FallsThrough k.ownerOnlyUpdates updater
      action (k.toRec.service.stored st.maindb data) data) ∨
    ¬ k.toRec.service.Accepts k.refuses
      ⟨updater, action, k.toRec.head.allowedFields resp.fields, merge, env.currtime⟩
      { table := st } (withEnv env.prep (k.toRec.head.payloadsOf resp)) ∨
    env.commit.logOk = false

/-- A request on a master, with a valid session and action, goes on to its payloads. -/
theorem manageDataAction_master {k : Kind} {st : SharedTable} (hm : st.isMaster = true)
    {env : ActionEnv} {resp : RespT k.toRec.Rec} {updater : UserDataT} {action : Nat} {merge : Bool}
    (hsess : sessionUpdater k st env resp = .ok (some updater))
    (hact : writeActionFilter resp.action = .ok (action, merge)) :
    ∃ dbcache, k.toRec.manageDataAction env st resp =
      k.toRec.service.manage { st with dbcache := dbcache }
        ⟨updater, action, k.toRec.head.allowedFields resp.fields, merge, env.currtime⟩
        (withEnv env.prep (k.toRec.head.payloadsOf resp)) env.commit := by
  obtain ⟨dbcache, hst⟩ := checkSession_same env.decode env.sessionTime st
    { name := resp.username, sessionkey := resp.sessionkey,
      keytype := k.toRec.head.updaterKeytype resp } k.toRec.head.onlyadmin
  refine ⟨dbcache, ?_⟩
  have hcheck : k.toRec.head.checkUpdater updater = .ok () := by cases k <;> rfl
  rw [sessionUpdater] at hsess
  rw [k.toRec.manageDataAction_eq, Zapdos.Store.manageDataAction, if_neg (by rw [hm]; decide), hact]
  simp only
  generalize checkSession env.decode env.sessionTime st
    { name := resp.username, sessionkey := resp.sessionkey,
      keytype := k.toRec.head.updaterKeytype resp } k.toRec.head.onlyadmin = sess at hsess hst ⊢
  obtain ⟨st', res⟩ := sess
  simp only at hsess hst
  subst hsess hst
  simp only [hcheck]
  rfl

/-- A master without records, and an exter without any privilege in its cache. -/
def plainExter : OrderedStore where
  st := { isMaster := true
          dbcache := OrdMap.empty.put (encodeSecondaryKey uExterdataName (str "plain"))
            (.packed (.user { id := 7, name := str "plain" })) }
  tables := fun _ => ⟨fun _ _ h => (nomatch h), fun _ _ h => (nomatch h)⟩
  log := fun _ _ => rfl

/-- Its session. -/
def plainEnv : ActionEnv where
  decode _ _ := .ok { name := str "plain" }

/-- It creates a user. -/
def createUser : RespT UserDataT where
  username := str "plain"
  sessionkey := str "k"
  action := .wCreate
  keytype := kExterdata
  payload := { name := str "mallory" }

end Zapdos.Store.Access
