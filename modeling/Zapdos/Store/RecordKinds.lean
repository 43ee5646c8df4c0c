/-
  The six kinds of records — their services side by side.

  The services share one database, one counter for new ids, and one cache of reservations.  Their
  key types are all different, so a request on one kind leaves the tables of the others alone.
-/
import Zapdos.Store.ManageLaws

namespace Zapdos.Store

open Zapdos.Lib

/-- The kinds of records. -/
inductive RecKind
  | user | exter | localdata | wikidata | tag | category
  deriving DecidableEq, Repr

namespace RecKind

/-- The message of a kind. -/
abbrev Rec : RecKind → Type
  | user => UserDataT
  | exter => ExterDataT
  | localdata => ItemDataT
  | wikidata => ItemDataT
  | tag => TagDataT
  | category => CategoryT

def service : (k : RecKind) → Service k.Rec
  | user => UserDataService.service
  | exter => ExterDataService.service
  | localdata => ItemDataService.localService
  | wikidata => ItemDataService.wikiService
  | tag => TagDataService.service
  | category => CategoryService.service

def head : (k : RecKind) → ActionHead k.Rec
  | user => UserDataService.head
  | exter => ExterDataService.head
  | localdata => ItemDataService.head localAllowedFieldsFilter
  | wikidata => ItemDataService.head wikiAllowedFieldsFilter
  | tag => TagDataService.head
  | category => CategoryService.head

/-- `ManageDataAction` of each service. -/
def manageDataAction : (k : RecKind) → ActionEnv → SharedTable → RespT k.Rec → ActionOut k.Rec
  | user => UserDataService.manageDataAction
  | exter => ExterDataService.manageDataAction
  | localdata => ItemDataService.localManageDataAction
  | wikidata => ItemDataService.wikiManageDataAction
  | tag => TagDataService.manageDataAction
  | category => CategoryService.manageDataAction

theorem manageDataAction_eq (k : RecKind) :
    k.manageDataAction = Zapdos.Store.manageDataAction k.head k.service := by
  cases k <;> rfl

theorem service_lawful (k : RecKind) : k.service.Lawful := by
  cases k
  · exact UserDataService.service_lawful
  · exact ExterDataService.service_lawful
  · exact ItemDataService.localService_lawful
  · exact ItemDataService.wikiService_lawful
  · exact TagDataService.service_lawful
  · exact CategoryService.service_lawful

/-- The key type of the records. -/
def pkey (k : RecKind) : KeyTypeE := k.service.table.primaryKey

/-- The key type of the names. -/
def ukey (k : RecKind) : KeyTypeE := k.service.ukey

theorem pkey_inj {k k' : RecKind} (h : k.pkey = k'.pkey) : k = k' := by
  revert h
  cases k <;> cases k' <;> decide

theorem ukey_inj {k k' : RecKind} (h : k.ukey = k'.ukey) : k = k' := by
  revert h
  cases k <;> cases k' <;> decide

theorem pkey_ne_ukey (k k' : RecKind) : k.pkey ≠ k'.ukey := by
  cases k <;> cases k' <;> decide

end RecKind

/-- All tables are in order. -/
def StoreOk (db : DataDb) : Prop := ∀ k : RecKind, k.service.TableOk db

/-- The records of a new node. -/
theorem storeOk_freshDb : StoreOk freshDb := fun k => k.service_lawful.single.tableOk_freshDb

/-- No records. -/
theorem storeOk_empty : StoreOk OrdMap.empty :=
  fun _ => ⟨fun _ _ h => (nomatch h), fun _ _ h => (nomatch h)⟩

/-- Rows of one kind are no rows of another. -/
theorem RecKind.get_write_other {k k' : RecKind} (h : k' ≠ k) (db : DataDb)
    (cs : List (Change k.Rec)) {key : Key} (hkey : key.keytype = k'.pkey ∨ key.keytype = k'.ukey) :
    (db.write (dataBatch (cs.flatMap (k.service.table.rows k.service.ukey)))).get key =
      db.get key := by
  refine k.service_lawful.single.get_write_batch_other db cs ?_ ?_
  · rcases hkey with hkey | hkey <;> rw [hkey]
    · exact fun he => h (RecKind.pkey_inj he)
    · exact fun he => RecKind.pkey_ne_ukey k k' he.symm
  · rcases hkey with hkey | hkey <;> rw [hkey]
    · exact RecKind.pkey_ne_ukey k' k
    · exact fun he => h (RecKind.ukey_inj he)

/-- Writing records of one kind keeps all tables in order. -/
theorem StoreOk.write {db : DataDb} (hok : StoreOk db) {k : RecKind} {cs : List (Change k.Rec)}
    (hfit : ∀ c ∈ cs, StoreTable.Fits k.service.table k.service.ukey db c)
    (hap : cs.Pairwise (StoreTable.Apart k.service.table k.service.ukey)) :
    StoreOk (db.write (dataBatch (cs.flatMap (k.service.table.rows k.service.ukey)))) := by
  intro k'
  by_cases h : k' = k
  · subst h
    exact k'.service_lawful.single.tableOk_batch (hok k') hfit hap
  · exact k'.service_lawful.single.tableOk_congr (hok k') fun key hkey =>
      RecKind.get_write_other h db cs hkey

/-- **A request keeps all tables in order**, whatever becomes of it. -/
theorem StoreOk.manageDataAction {k : RecKind} {st : SharedTable} (hok : StoreOk st.maindb)
    (env : ActionEnv) (resp : RespT k.Rec) :
    StoreOk (k.manageDataAction env st resp).table.maindb := by
  rw [k.manageDataAction_eq]
  rcases manageDataAction_cases k.head k.service env st resp with
    ⟨dbcache, e, hout⟩ | ⟨hm, action, merge, dbcache, updater, -, -, -, hout⟩
  · rw [hout]
    exact hok
  · rw [hout]
    rcases k.service_lawful.manage_maindb
      (show ({ st with dbcache := dbcache } : SharedTable).isMaster = true from hm) (hok k)
      ⟨updater, action, k.head.allowedFields resp.fields, merge, env.currtime⟩
      (withEnv env.prep (k.head.payloadsOf resp)) env.commit with
      hsame | ⟨cs, -, -, hfit, hap, hdb⟩
    · rw [hsame]
      exact hok
    · rw [hdb]
      exact hok.write hfit hap

/-- **What a request makes of a record**: it stays, or it is replaced by one that a payload leads
    to. -/
theorem RecKind.find_manage {k rk : RecKind} {st : SharedTable} (hok : StoreOk st.maindb)
    (env : ActionEnv) (resp : RespT rk.Rec) {key : Key} (hkey : key.keytype = k.ukey) :
    k.service.table.find (rk.manageDataAction env st resp).table.maindb key =
        k.service.table.find st.maindb key ∨
      ∃ (c : Change k.Rec) (m : Manage) (p : k.Rec × PrepEnv), k.service.Made m st.maindb p c ∧
        k.service.table.notfound c.record = false ∧ k.service.key c.record = key ∧
        k.service.table.find (rk.manageDataAction env st resp).table.maindb key =
          some c.record := by
  rw [rk.manageDataAction_eq]
  rcases manageDataAction_cases rk.head rk.service env st resp with
    ⟨dbcache, e, hout⟩ | ⟨hm, action, merge, dbcache, updater, -, -, -, hout⟩
  · rw [hout]
    exact .inl rfl
  · rw [hout]
    rcases rk.service_lawful.manage_maindb
      (show ({ st with dbcache := dbcache } : SharedTable).isMaster = true from hm) (hok rk)
      ⟨updater, action, rk.head.allowedFields resp.fields, merge, env.currtime⟩
      (withEnv env.prep (rk.head.payloadsOf resp)) env.commit with
      hsame | ⟨cs, hmade, hflag, hfit, hap, hdb⟩
    · exact .inl (by rw [hsame])
    · rw [hdb]
      by_cases hk : k = rk
      · subst hk
        by_cases hwritten : ∃ c ∈ cs, k.service.key c.record = key
        · obtain ⟨c, hc, rfl⟩ := hwritten
          obtain ⟨p, -, hp⟩ := forall₂_mem hmade hc
          exact .inr ⟨c, _, p, hp, hflag c hc, rfl,
            k.service_lawful.single.find_batch (hok k) hfit hap hc⟩
        · exact .inl (k.service_lawful.single.find_batch_other (hok k) hfit hap hkey
            fun c hc he => hwritten ⟨c, hc, he⟩)
      · exact .inl (StoreTable.SingleKey.find_congr hkey fun key' hkey' =>
          RecKind.get_write_other hk st.maindb cs hkey')

/-! ## Stores in order -/

/-- The shared table of a node whose tables are in order and whose log ends at its counter. -/
structure OrderedStore where
  st : SharedTable
  tables : StoreOk st.maindb
  log : ∀ i, st.logcounter < i → st.logdb.get (encodePrimaryKey kLognode i) = none

/-- Whatever becomes of a commit, the log ends at the counter. -/
theorem CommitResult.log {st st' : SharedTable} {now : Nat} {t : TransactionT} {isMaster : Bool}
    {env : CommitEnv} {res : Except Exc Unit} (h : CommitResult st now t isMaster env st' res)
    (hlog : ∀ i, st.logcounter < i → st.logdb.get (encodePrimaryKey kLognode i) = none) :
    ∀ i, st'.logcounter < i → st'.logdb.get (encodePrimaryKey kLognode i) = none := by
  have hwrite : ∀ i, st.logcounter + 1 < i →
      (st.logdb.write (logBatch (stamp now t isMaster (st.logcounter + 1)))).get
        (encodePrimaryKey kLognode i) = none := by
    intro i hi
    rw [logBatch_entry_ne (by rw [stamp_id]; omega)]
    exact hlog i (by omega)
  cases h with
  | empty _ _ hl hc =>
    rw [hl, hc]
    exact hlog
  | noLog _ _ _ hl hc =>
    rw [hl, hc]
    exact fun i hi => hlog i (by omega)
  | noData _ _ _ hl hc =>
    rw [hl, hc]
    exact hwrite
  | thrown _ _ _ _ hl hc =>
    rw [hl, hc]
    exact hwrite
  | done _ _ _ _ hl hc =>
    rw [hl, hc]
    exact hwrite

/-- A request takes a store in order to a store in order. -/
def OrderedStore.manageDataAction (s : OrderedStore) {k : RecKind} (env : ActionEnv)
    (resp : RespT k.Rec) : OrderedStore where
  st := (k.manageDataAction env s.st resp).table
  tables := s.tables.manageDataAction env resp
  log := by
    rw [k.manageDataAction_eq]
    rcases manageDataAction_cases k.head k.service env s.st resp with
      ⟨dbcache, e, hout⟩ | ⟨hm, action, merge, dbcache, updater, -, -, -, hout⟩
    · rw [hout]
      exact s.log
    · rw [hout]
      by_cases hrun : ∃ w, k.service.payloads
          ⟨updater, action, k.head.allowedFields resp.fields, merge, env.currtime⟩
          (withEnv env.prep (k.head.payloadsOf resp))
          { table := { s.st with dbcache := dbcache } } = (w, .ok ())
      · obtain ⟨w, hrun⟩ := hrun
        obtain ⟨cs, res, -, -, -, -, hcommit, -⟩ := k.service_lawful.manage_of_ok
          (show ({ s.st with dbcache := dbcache } : SharedTable).isMaster = true from hm)
          (s.tables k) hrun env.commit
        exact hcommit.log s.log
      · obtain ⟨-, -, hl, hc⟩ := k.service_lawful.manage_of_not_ok hrun env.commit
        rw [hl, hc]
        exact s.log

/-- A master without records, and an exter in its cache. -/
def OrderedStore.withExter (r : ExterDataT) : OrderedStore where
  st := { isMaster := true
          dbcache := OrdMap.empty.put (encodeSecondaryKey uExterdataName r.name)
            (.packed (.user r)) }
  tables := fun _ => ⟨fun _ _ h => (nomatch h), fun _ _ h => (nomatch h)⟩
  log := fun _ _ => rfl

/-! ## The records of a successful request -/

/-- Each payload of a request comes with what the outside answers for it. -/
theorem exists_mem_withEnv {T : Type} (prep : Nat → PrepEnv) {ps : List T} {p : T} (hp : p ∈ ps) :
    ∃ penv, (p, penv) ∈ withEnv prep ps := by
  obtain ⟨i, hi, rfl⟩ := List.mem_iff_getElem.mp hp
  exact ⟨prep i, List.mem_map.mpr ⟨(ps[i], i), List.mem_zipIdx_iff_getElem?.mpr
    (List.getElem?_eq_getElem hi), rfl⟩⟩

/-- **Every payload of a successful request is written**: after it, the record its payload led to is
    found under its key. -/
theorem RecKind.written_of_ok {k : RecKind} {st : SharedTable} (hok : StoreOk st.maindb)
    {env : ActionEnv} {resp : RespT k.Rec} {out : StatusT × List k.Rec}
    (hres : (k.manageDataAction env st resp).result = .ok out) {p : k.Rec}
    (hp : p ∈ k.head.payloadsOf resp) :
    ∃ action merge dbcache updater penv c,
      writeActionFilter resp.action = .ok (action, merge) ∧
      checkSession env.decode env.sessionTime st
          { name := resp.username, sessionkey := resp.sessionkey,
            keytype := k.head.updaterKeytype resp } k.head.onlyadmin =
        ({ st with dbcache := dbcache }, .ok (some updater)) ∧
      k.service.Made ⟨updater, action, k.head.allowedFields resp.fields, merge, env.currtime⟩
        st.maindb (p, penv) c ∧
      k.service.key c.record = k.service.key p ∧
      k.service.stored (k.manageDataAction env st resp).table.maindb p = some c.record := by
  have hlaw := k.service_lawful
  rw [k.manageDataAction_eq] at hres ⊢
  rcases manageDataAction_cases k.head k.service env st resp with
    ⟨dbcache, e, hout⟩ | ⟨hm, action, merge, dbcache, updater, hact, hsess, -, hout⟩
  · rw [hout] at hres
    cases hres
  · rw [hout] at hres ⊢
    obtain ⟨penv, hmem⟩ := exists_mem_withEnv env.prep hp
    have hrun : ∃ w, k.service.payloads
        ⟨updater, action, k.head.allowedFields resp.fields, merge, env.currtime⟩
        (withEnv env.prep (k.head.payloadsOf resp))
        { table := { st with dbcache := dbcache } } = (w, .ok ()) := by
      by_contra hno
      obtain ⟨⟨e, he⟩, -⟩ := hlaw.manage_of_not_ok hno env.commit
      rw [he] at hres
      cases hres
    obtain ⟨w, hrun⟩ := hrun
    obtain ⟨cs, res, hmade, -, hfit, hap, hcommit, herr⟩ := hlaw.manage_of_ok
      (show ({ st with dbcache := dbcache } : SharedTable).isMaster = true from hm) (hok k) hrun
      env.commit
    obtain ⟨c, hc, hcp⟩ := forall₂_mem hmade.flip hmem
    have hkey : k.service.key c.record = k.service.key p := hlaw.made_key (hok k) hcp
    have hnoerr : ∀ e, res ≠ .error e := by
      intro e he
      obtain ⟨e', he'⟩ := herr.mpr ⟨e, he⟩
      rw [he'] at hres
      cases hres
    refine ⟨action, merge, dbcache, updater, penv, c, hact, hsess, hcp, hkey, ?_⟩
    have hfind := hlaw.single.find_batch (hok k) hfit hap hc
    cases hcommit with
    | empty hitem =>
      -- a record has rows
      have hrows := List.flatMap_eq_nil_iff.mp hitem c hc
      rw [StoreTable.rows] at hrows
      split at hrows <;> cases hrows
    | noLog => exact absurd rfl (hnoerr _)
    | noData => exact absurd rfl (hnoerr _)
    | thrown => exact absurd rfl (hnoerr _)
    | done _ _ _ hdb =>
      rw [Service.stored, hdb, ← hkey]
      exact hfind

/-- A result that is not an error. -/
theorem exists_of_isOk {A : Type} {x : Except Exc A} (h : x.isOk = true) : ∃ a, x = .ok a := by
  cases x with
  | error e => cases h
  | ok a => exact ⟨a, rfl⟩

end Zapdos.Store
