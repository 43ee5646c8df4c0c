/-
  A request with many payloads — all or nothing.

  The loop over the payloads can throw at any of them, with names reserved and ids taken for the ones
  before.  Its rows are only collected on the way: a single commit at the end writes all of them, and
  the destructor of `TempNameCache` gives the names back on every way out.

  THE CRUX.  `Work.given`, the reservations that will be left when the request ends, is the same after
  every payload, successful or not (`payload_given`): what a payload reserves was free before.  And
  the commit has one way out that is neither all nor nothing: `AddToCache` runs when both databases
  are written, and throws for an item without a place (`Stranded`).
-/
import Mathlib.Data.List.Nodup
import Zapdos.Store.Access
import Zapdos.Store.ItemPlaces

namespace Zapdos.Store

open Zapdos.Lib

/-! ## Specification -/

/-- The rows write one record for every payload, each row once. -/
structure WritesEach {T : Type} (s : Service T) (db : DataDb) (m : Manage)
    (ps : List (T × PrepEnv)) (items : List TransItemT) : Prop where
  each : ∃ cs : List (Change T),
    List.Forall₂ (fun p c => s.Made m db p c ∧ s.key c.record = s.key p.1) ps cs ∧
      (∀ c ∈ cs, StoreTable.Fits s.table s.ukey db c) ∧ items = cs.flatMap (s.table.rows s.ukey)
  names : (ps.map fun p => s.key p.1).Nodup
  rows : (items.map TransItemT.key).Nodup

/-- One entry more in the log, and its rows in the records. -/
structure Appended (st st' : SharedTable) (t : TransactionT) : Prop where
  logcounter : st'.logcounter = st.logcounter + 1
  free : st.logdb.get (encodePrimaryKey kLognode (st.logcounter + 1)) = none
  entry : st'.logdb.get (encodePrimaryKey kLognode (st.logcounter + 1)) = some (.trans t)
  others : ∀ i, i ≠ st.logcounter + 1 →
    st'.logdb.get (encodePrimaryKey kLognode i) = st.logdb.get (encodePrimaryKey kLognode i)
  maindb : st'.maindb = applyItems st.maindb t

/-- Log and records are as they were. -/
structure Untouched (st st' : SharedTable) : Prop where
  logcounter : st'.logcounter = st.logcounter
  logdb : st'.logdb = st.logdb
  maindb : st'.maindb = st.maindb

/-- **All or nothing**: a request that succeeds appends one entry with the rows of all its payloads
    (none if it has no payload), one that throws leaves log and records alone, and no name stays
    reserved. -/
structure AllOrNothing (k : RecKind) (env : ActionEnv) (st : SharedTable) (resp : RespT k.Rec)
    (out : ActionOut k.Rec) : Prop where
  reservations : out.table.tmpcache = st.tmpcache
  outcome :
    (∃ status, out.result = .ok status ∧
      (k.head.payloadsOf resp = [] ∧ Untouched st out.table ∨
        k.head.payloadsOf resp ≠ [] ∧ ∃ updater action merge t,
          writeActionFilter resp.action = .ok (action, merge) ∧
          WritesEach k.service st.maindb
            ⟨updater, action, k.head.allowedFields resp.fields, merge, env.currtime⟩
            (withEnv env.prep (k.head.payloadsOf resp)) t.item ∧
          Appended st out.table t)) ∨
    ∃ e, out.result = .error e ∧ Untouched st out.table

/-! ## Reservations -/

namespace Service

variable {T : Type} {s : Service T}

/-- The reservations that are left when this request ends. -/
def Work.given (w : Work T) : OrdMap Key Bytes := (w.nc.destroy w.table).tmpcache

theorem add_tmpcache (st : SharedTable) (m : Manage) (data : T) (found : Bool) (cdata : T)
    (items : List TransItemT) : (s.add st m data found cdata items).1.tmpcache = st.tmpcache := by
  rw [Service.add]
  cases found with
  | true => rfl
  | false =>
    simp only [Bool.false_eq_true, if_false]
    cases s.mayInsert cdata with
    | error e => rfl
    | ok => rfl

namespace Lawful

variable (h : s.Lawful)

include h

/-- A name that is reserved was free, and is given back before the others. -/
theorem reserve_given {st st' : SharedTable} {nc nc' : TempNameCache} {r : T}
    (hr : s.reserve st nc r = .ok (st', nc')) :
    (nc'.destroy st').tmpcache = (nc.destroy st).tmpcache := by
  obtain ⟨hnot, hfree, rfl, rfl⟩ := h.reserve_eq_ok.mp hr
  have hback := CacheContainer.delAssoc_setAssoc hfree []
  show ((nc.inset.insert (s.lock r)).foldl CacheContainer.delAssoc
    (st.tmpcache.put (s.lock r) [])) = nc.inset.foldl CacheContainer.delAssoc st.tmpcache
  rw [List.insert_of_not_mem hnot, List.foldl_cons]
  exact congrArg (nc.inset.foldl CacheContainer.delAssoc) hback

/-- **One payload**, successful or not. -/
theorem payload_given (m : Manage) (w : Work T) (data : T) (env : PrepEnv) :
    (s.payload m w data env).1.given = w.given := by
  rcases payload_stages (s := s) m w data env with ⟨hst, hnc⟩ | ⟨r, st₁, hr, hst⟩
  · rw [Work.given, hst, hnc, Work.given]
  · have htmp : (s.payload m w data env).1.table.tmpcache = st₁.tmpcache := by
      rcases hst with hst | ⟨found, cdata, hst⟩
      · rw [hst]
      · rw [hst]
        exact add_tmpcache st₁ m data found cdata w.items
    have hgiven := h.reserve_given hr
    simp only [Work.given, TempNameCache.destroy] at hgiven ⊢
    rw [htmp]
    exact hgiven

/-- **All payloads**, as far as the loop comes. -/
theorem payloads_given (m : Manage) (input : List (T × PrepEnv)) (w : Work T) :
    (s.payloads m input w).1.given = w.given := by
  induction input generalizing w with
  | nil => rfl
  | cons p rest ih =>
    obtain ⟨data, env⟩ := p
    have hstep := h.payload_given m w data env
    rw [Service.payloads]
    split
    · rename_i w' e heq
      rw [heq] at hstep
      exact hstep
    · rename_i w' heq
      rw [heq] at hstep
      exact (ih w').trans hstep

end Lawful

end Service

/-- A commit on a master leaves the reservations alone. -/
theorem commit_tmpcache {st : SharedTable} (hm : st.isMaster = true) (now : Nat)
    (t : TransactionT) (isMaster : Bool) (env : CommitEnv) :
    (commit st now t isMaster env).table.tmpcache = st.tmpcache := by
  rw [commit, if_pos hm]
  have hbody := commitBody_cases st now t isMaster env
  generalize commitBody st now t isMaster env = out at hbody ⊢
  cases hbody with
  | empty _ => rfl
  | noLog _ _ => rfl
  | noData _ _ _ => rfl
  | done _ _ _ hwritten =>
    subst hwritten
    exact commitTail_tmpcache _ _ _ _

namespace Service.Lawful

variable {T : Type} {s : Service T} (h : s.Lawful)

include h

/-- Whatever becomes of a request, its reservations are gone. -/
theorem manage_tmpcache {st : SharedTable} (hm : st.isMaster = true) (m : Manage)
    (input : List (T × PrepEnv)) (env : CommitEnv) :
    (s.manage st m input env).table.tmpcache = st.tmpcache := by
  have hgiven := h.payloads_given m input { table := st }
  have hsame := h.payloads_same m input { table := st }
  rw [Service.manage]
  split
  · rename_i w e heq
    rw [heq] at hgiven
    exact hgiven
  · rename_i w heq
    rw [heq] at hgiven hsame
    obtain ⟨tmp, n, -, hst⟩ := hsame
    have hmaster : w.table.isMaster = true := by
      rw [show w.table = { st with tmpcache := tmp, maincounter := n } from hst]
      exact hm
    have htmp := commit_tmpcache hmaster m.currtime { item := w.items, updater := m.updater.name }
      true env
    show (w.nc.inset.foldl CacheContainer.delAssoc _) = _
    rw [htmp]
    exact hgiven

end Service.Lawful

/-! ## The rows of a request -/

namespace StoreTable.SingleKey

variable {T : Type} {t : StoreTable T} {u : KeyTypeE} (ht : t.SingleKey u)

include ht

theorem nodup_rows (c : Change T) : ((t.rows u c).map TransItemT.key).Nodup := by
  rw [rows]
  split
  · exact List.nodup_singleton _
  · refine List.nodup_cons.mpr ⟨?_, List.nodup_singleton _⟩
    intro hmem
    exact ht.ukey_ne_primary c.record t.primaryKey (t.id c.record) (List.mem_singleton.mp hmem)

/-- Records that are apart have no key in common. -/
theorem nodup_batch {cs : List (Change T)} (hap : cs.Pairwise (Apart t u)) :
    ((cs.flatMap (t.rows u)).map TransItemT.key).Nodup := by
  rw [List.map_flatMap]
  refine List.nodup_flatMap.mpr ⟨fun c _ => ht.nodup_rows c, hap.imp ?_⟩
  intro c c' happ k hk hk'
  rcases StoreTable.mem_keys_rows hk with hid | hname
  · rcases StoreTable.mem_keys_rows hk' with hid' | hname'
    · exact happ.2 (encodePrimaryKey_inj.mp (hid.symm.trans hid'))
    · exact ht.ukey_ne_primary _ _ _ (hname'.symm.trans hid)
  · rcases StoreTable.mem_keys_rows hk' with hid' | hname'
    · exact ht.ukey_ne_primary _ _ _ (hname.symm.trans hid')
    · exact happ.1 (hname.symm.trans hname')

end StoreTable.SingleKey

namespace Service

variable {T : Type} {s : Service T}

/-- Two payloads of one request never have the same name. -/
theorem nodup_names {m : Manage} {db : DataDb} {ps : List (T × PrepEnv)} {cs : List (Change T)}
    (h : List.Forall₂ (fun p c => s.Made m db p c ∧ s.key c.record = s.key p.1) ps cs)
    (hap : cs.Pairwise (StoreTable.Apart s.table s.ukey)) :
    (ps.map fun p => s.key p.1).Nodup := by
  have hnames : ps.map (fun p => s.key p.1) = cs.map fun c => s.key c.record := by
    induction h with
    | nil => rfl
    | cons hpc _ ih =>
      rw [List.map_cons, List.map_cons, hpc.2, ih (List.pairwise_cons.mp hap).2]
  rw [hnames]
  exact List.pairwise_map.mpr (hap.imp fun happ => happ.1)

theorem Lawful.writesEach (h : s.Lawful) {m : Manage} {db : DataDb} (hok : s.TableOk db)
    {ps : List (T × PrepEnv)} {cs : List (Change T)} (hmade : List.Forall₂ (s.Made m db) ps cs)
    (hfit : ∀ c ∈ cs, StoreTable.Fits s.table s.ukey db c)
    (hap : cs.Pairwise (StoreTable.Apart s.table s.ukey)) :
    WritesEach s db m ps (cs.flatMap (s.table.rows s.ukey)) := by
  have hkeys : List.Forall₂ (fun p c => s.Made m db p c ∧ s.key c.record = s.key p.1) ps cs :=
    hmade.imp fun _ _ hc => ⟨hc, h.made_key hok hc⟩
  exact ⟨⟨cs, hkeys, hfit, rfl⟩, nodup_names hkeys hap, h.single.nodup_batch hap⟩

end Service

/-! ## All or nothing -/

/-- What a commit whose writes succeed makes of the log. -/
theorem appended_of_done {st st' : SharedTable} {now : Nat} {t : TransactionT} {isMaster : Bool}
    (hfree : ∀ i, st.logcounter < i → st.logdb.get (encodePrimaryKey kLognode i) = none)
    (hdb : st'.maindb = applyItems st.maindb t)
    (hlog : st'.logdb = st.logdb.write (logBatch (stamp now t isMaster (st.logcounter + 1))))
    (hcount : st'.logcounter = st.logcounter + 1) :
    Appended st st' (stamp now t isMaster (st.logcounter + 1)) := by
  refine ⟨hcount, hfree _ (Nat.lt_succ_self _), ?_, ?_, ?_⟩
  · rw [hlog]
    have hself := logBatch_self (stamp now t isMaster (st.logcounter + 1)) st.logdb
    rwa [stamp_id] at hself
  · intro i hi
    rw [hlog, logBatch_entry_ne (by rw [stamp_id]; exact hi)]
  · rw [hdb, applyItems, applyItems, stamp_item]

/-- A request has as many records as payloads, and each of them has rows. -/
theorem items_eq_nil_iff {T : Type} {s : Service T} {R : T × PrepEnv → Change T → Prop}
    {ps : List (T × PrepEnv)} {cs : List (Change T)} (h : List.Forall₂ R ps cs) :
    cs.flatMap (s.table.rows s.ukey) = [] ↔ ps = [] := by
  rw [List.flatMap_eq_nil_iff]
  cases h with
  | nil => simp
  | cons _ _ =>
    rename_i p c _ _ _ _
    constructor
    · intro hall
      have hc := hall c List.mem_cons_self
      rw [StoreTable.rows] at hc
      split at hc <;> cases hc
    · intro hps
      cases hps

/-- **Everything a request can do** to log and records while the writes of the databases succeed: a
    request that is refused does nothing, one without payloads neither, and any other appends its
    entry, even if `AddToCache` then throws. -/
inductive BatchEnd {T : Type} (s : Service T) (st : SharedTable) (m : Manage)
    (input : List (T × PrepEnv)) (env : CommitEnv) (out : ActionOut T) : Prop
  | refused {e : Exc} (hrun : ¬ ∃ w, s.payloads m input { table := st } = (w, .ok ()))
      (hres : out.result = .error e) (hsame : Untouched st out.table)
  | nothing {status : StatusT × List T} (hinput : input = []) (hres : out.result = .ok status)
      (hsame : Untouched st out.table)
  | appended {cs : List (Change T)} {t : TransactionT} (hinput : input ≠ [])
      (hrun : ∃ w, s.payloads m input { table := st } = (w, .ok ()))
      (hmade : List.Forall₂ (s.Made m st.maindb) input cs)
      (hitem : t.item = cs.flatMap (s.table.rows s.ukey))
      (hwrites : WritesEach s st.maindb m input t.item) (happ : Appended st out.table t)
      (hres : (∃ status, out.result = .ok status) ↔ CacheTakes st.noXapian env t.item)

theorem Service.Lawful.manage_end {T : Type} {s : Service T} (h : s.Lawful) {st : SharedTable}
    (hm : st.isMaster = true) (hok : s.TableOk st.maindb)
    (hfree : ∀ i, st.logcounter < i → st.logdb.get (encodePrimaryKey kLognode i) = none)
    (m : Manage) (input : List (T × PrepEnv)) {env : CommitEnv} (hlogOk : env.logOk = true)
    (hdataOk : env.dataOk = true) : BatchEnd s st m input env (s.manage st m input env) := by
  by_cases hrun : ∃ w, s.payloads m input { table := st } = (w, .ok ())
  · obtain ⟨w, hw⟩ := hrun
    obtain ⟨cs, res, hmade, -, hfit, hap, hcommit, herr⟩ := h.manage_of_ok hm hok hw env
    have hnil := items_eq_nil_iff (s := s) hmade
    have hwrites := h.writesEach hok hmade hfit hap
    generalize s.manage st m input env = out at hcommit herr ⊢
    have hres : (∃ status, out.result = .ok status) ↔ ¬ ∃ e, res = .error e := by
      rw [← herr]
      cases out.result with
      | error e => exact iff_of_false nofun fun hno => hno ⟨e, rfl⟩
      | ok status => exact iff_of_true ⟨status, rfl⟩ nofun
    have happend : cs.flatMap (s.table.rows s.ukey) ≠ [] → Appended st out.table
        (stamp m.currtime { item := cs.flatMap (s.table.rows s.ukey), updater := m.updater.name }
          true (st.logcounter + 1)) →
        ((∃ status, out.result = .ok status) ↔
          CacheTakes st.noXapian env (cs.flatMap (s.table.rows s.ukey))) →
        BatchEnd s st m input env out := by
      intro hitem happ hiff
      refine .appended (fun hinput => hitem (hnil.mpr hinput)) ⟨w, hw⟩ hmade (stamp_item _ _ _ _) ?_
        happ ?_
      · rw [stamp_item]
        exact hwrites
      · rw [stamp_item]
        exact hiff
    cases hcommit with
    | empty hitem hdb hlog hcount =>
      obtain ⟨status, hstatus⟩ := hres.mpr nofun
      exact .nothing (hnil.mp hitem) hstatus ⟨hcount, hlog, hdb⟩
    | noLog hitem hfail =>
      rw [hlogOk] at hfail
      cases hfail
    | noData hitem hfail =>
      rw [hdataOk] at hfail
      cases hfail.2
    | thrown hitem _ hno hdb hlog hcount =>
      exact happend hitem (appended_of_done hfree hdb hlog hcount)
        (hres.trans (iff_of_false (fun h => h ⟨_, rfl⟩) hno))
    | done hitem _ htakes hdb hlog hcount =>
      exact happend hitem (appended_of_done hfree hdb hlog hcount)
        (hres.trans (iff_of_true nofun htakes))
  · obtain ⟨⟨e, he⟩, hdb, hlog, hcount⟩ := h.manage_of_not_ok hrun env
    exact .refused hrun he ⟨hcount, hlog, hdb⟩

/-- An entry that was appended did not leave the log alone. -/
theorem Appended.not_untouched {st st' : SharedTable} {t : TransactionT} (h : Appended st st' t) :
    ¬ Untouched st st' := by
  intro hsame
  have hcount := h.logcounter
  rw [hsame.logcounter] at hcount
  omega

/-- **The gap**: the request comes to its commit, on a store that indexes, with a payload that leads to
    an item without a place. -/
def Strands (k : Access.Kind) (env : ActionEnv) (st : SharedTable) (resp : RespT k.toRec.Rec) :
    Prop :=
  st.isMaster = true ∧ st.noXapian = false ∧ ∃ updater action merge,
    Access.sessionUpdater k st env resp = .ok (some updater) ∧
    writeActionFilter resp.action = .ok (action, merge) ∧
    k.toRec.service.Accepts k.refuses
      ⟨updater, action, k.toRec.head.allowedFields resp.fields, merge, env.currtime⟩
      { table := st } (withEnv env.prep (k.toRec.head.payloadsOf resp)) ∧
    ∃ p ∈ k.toRec.head.payloadsOf resp, k.toRec.Unplaceable
      ⟨updater, action, k.toRec.head.allowedFields resp.fields, merge, env.currtime⟩ st.maindb p

/-- Only items are indexed. -/
def RecKind.Stranded : (k : RecKind) → ActionEnv → SharedTable → RespT k.Rec → Prop
  | localdata => Strands .localdata
  | wikidata => Strands .wikidata
  | _ => fun _ _ _ => False

/-- A request that comes to its commit with a payload that leads to an item without a place. -/
theorem RecKind.stranded_of_run {k : RecKind} {st : SharedTable} (hok : StoreOk st.maindb)
    (hm : st.isMaster = true) (hindex : st.noXapian = false) {env : ActionEnv} {resp : RespT k.Rec}
    {updater : UserDataT} {action : Nat} {merge : Bool} {dbcache : OrdMap Key CacheV}
    (hact : writeActionFilter resp.action = .ok (action, merge))
    (hsess : checkSession env.decode env.sessionTime st
        { name := resp.username, sessionkey := resp.sessionkey,
          keytype := k.head.updaterKeytype resp } k.head.onlyadmin =
      ({ st with dbcache := dbcache }, .ok (some updater)))
    (hrun : ∃ w, k.service.payloads
      ⟨updater, action, k.head.allowedFields resp.fields, merge, env.currtime⟩
      (withEnv env.prep (k.head.payloadsOf resp)) { table := { st with dbcache := dbcache } } =
        (w, .ok ()))
    {p : k.Rec} (hp : p ∈ k.head.payloadsOf resp)
    (hun : k.Unplaceable ⟨updater, action, k.head.allowedFields resp.fields, merge, env.currtime⟩
      st.maindb p) : k.Stranded env st resp := by
  have hsess' := congrArg Prod.snd hsess
  have haccepts : ∀ (k : Access.Kind) (m : Manage) (input : List (k.toRec.Rec × PrepEnv)),
      (∃ w, k.toRec.service.payloads m input { table := { st with dbcache := dbcache } } =
        (w, .ok ())) → k.toRec.service.Accepts k.refuses m { table := st } input :=
    fun k m input hrun => Access.accepts_dbcache.mp
      ((k.toRec.service_lawful.payloads_ok_iff k.decides (hok k.toRec)).mp hrun)
  cases k with
  | localdata =>
    exact ⟨hm, hindex, updater, action, merge, hsess', hact, haccepts .localdata _ _ hrun, p, hp, hun⟩
  | wikidata =>
    exact ⟨hm, hindex, updater, action, merge, hsess', hact, haccepts .wikidata _ _ hrun, p, hp, hun⟩
  | user => exact hun.elim
  | exter => exact hun.elim
  | tag => exact hun.elim
  | category => exact hun.elim

/-- In the gap the entry is appended and the request throws. -/
theorem not_allOrNothing_of_strands (k : Access.Kind) (s : OrderedStore) {env : ActionEnv}
    (henv : env.commit.logOk = true ∧ env.commit.dataOk = true ∧ env.commit.indexFails = none)
    {resp : RespT k.toRec.Rec} (h : Strands k env s.st resp) :
    ¬ AllOrNothing k.toRec env s.st resp (k.toRec.manageDataAction env s.st resp) := by
  obtain ⟨hm, hindex, updater, action, merge, hsess, hact, haccepts, p, hp, hun⟩ := h
  obtain ⟨dbcache, hout⟩ := Access.manageDataAction_master hm hsess hact
  have hlaw := k.toRec.service_lawful
  set st : SharedTable := { s.st with dbcache := dbcache } with hst
  have hmaster : st.isMaster = true := hm
  have hend := hlaw.manage_end hmaster (s.tables k.toRec) s.log
    ⟨updater, action, k.toRec.head.allowedFields resp.fields, merge, env.currtime⟩
    (withEnv env.prep (k.toRec.head.payloadsOf resp)) henv.1 henv.2.1
  rw [hout]
  intro hall
  cases hend with
  | refused hrun _ _ =>
    exact hrun ((hlaw.payloads_ok_iff k.decides (s.tables k.toRec)).mpr
      (Access.accepts_dbcache.mpr haccepts))
  | nothing hinput _ _ =>
    rw [withEnv_eq_nil_iff.mp hinput] at hp
    cases hp
  | appended hinput hrun hmade hitem hwrites happ hres =>
    rcases hall.outcome with ⟨status, hstatus, -⟩ | ⟨e, -, hsame⟩
    · -- it would have a place
      obtain ⟨penv, hmem⟩ := exists_mem_withEnv env.prep hp
      obtain ⟨c, hc, hcp⟩ := forall₂_mem hmade.flip hmem
      have htakes := hres.mp ⟨status, hstatus⟩
      rw [hitem, k.toRec.cacheTakes_rows_iff _ henv.2.2] at htakes
      exact (RecKind.made_placed_iff s.tables hcp).mp (htakes hindex c hc) hun
    · exact happ.not_untouched ⟨hsame.logcounter, hsame.logdb, hsame.maindb⟩

/-- An admin, and the way it is recognised. -/
def desk : ExterDataT := { id := 7, name := str "desk", isAdmin := true }

def deskEnv : ActionEnv := { decode := fun _ _ => .ok { name := str "desk" } }

/-- It creates these users. -/
def createUsers (names : List String) : RespT UserDataT where
  username := str "desk"
  sessionkey := str "k"
  action := .wCreate
  keytype := kExterdata
  payload := {}
  payloads := names.map fun name => { name := str name }

/-- It creates these places. -/
def createPlaces (places : List (String × Rat)) : RespT ItemDataT where
  username := str "desk"
  sessionkey := str "k"
  action := .wCreate
  keytype := kExterdata
  fields := idfldLocalfields
  payload := {}
  payloads := places.map fun p => { uniqueId := str p.1, lat := p.2 }

/-- Of three users, two of them with one name, none is created. -/
example : ((RecKind.user.manageDataAction deskEnv (OrderedStore.withExter desk).st
      (createUsers ["ann", "bob"])).table.logcounter,
    (RecKind.user.manageDataAction deskEnv (OrderedStore.withExter desk).st
      (createUsers ["ann", "bob", "ann"])).table.logcounter) = (1, 0) := by decide

end Zapdos.Store
