/-
  The cache of accounts — copies of users and exters under their name keys.

  `Get` fills the cache from the table, and a commit drops the copies of the records it writes.  As
  long as requests run one after the other this keeps every copy equal to what `Pack` makes of the
  stored record (`CacheOk`).

  THE CRUX.  A commit changes what the table finds under a name only if one of its rows is the record
  of that name, and `AddToCache` drops the copies of exactly these (`cacheOk_write`).
-/
import Zapdos.Store.ItemPlaces
import Zapdos.Store.PasswordReset

namespace Zapdos.Store

open Zapdos.Lib Privileges PasswordReset

/-! ## Looking an account up -/

/-- `Pack` of the two services. -/
def Privileges.Kind.pack : Kind → UserDataT → UserDataT
  | .user => userPack
  | .exter => exterPack

/-- `Get` of the two services. -/
def Privileges.Kind.get : Kind → SharedTable → UserDataT → Except Exc (UserDataT × SharedTable)
  | .user => userCredGet
  | .exter => exterCredGet

/-- Every cached copy of an account is the packed record. -/
def CacheOk (st : SharedTable) : Prop :=
  ∀ (k : Kind) (name : Bytes) (v : CacheV),
    st.dbcache.get (encodeSecondaryKey k.ukey name) = some v →
      ∃ r, stored k st.maindb name = some r ∧ v = .packed (.user (k.pack r))

/-- What `Get` returns of a stored record: all of it, or what the cache keeps of it. -/
def Fetched (k : Kind) (r r' : UserDataT) : Prop :=
  ∃ kt, r' = { r with keytype := kt } ∨ r' = { k.pack r with keytype := kt }

theorem Fetched.same {k : Kind} {r r' : UserDataT} (h : Fetched k r r') :
    r'.name = r.name ∧ r'.passkey = r.passkey ∧ r'.signkey = r.signkey := by
  obtain ⟨kt, rfl | rfl⟩ := h
  · exact ⟨rfl, rfl, rfl⟩
  · cases k <;> exact ⟨rfl, rfl, rfl⟩

theorem stored_name {k : Kind} {db : DataDb} (hok : StoreTable.TableOk k.table k.ukey db)
    {name : Bytes} {r : UserDataT} (h : stored k db name = some r) : r.name = name := by
  obtain ⟨hk, -⟩ := (k.singleKey.find_eq_some hok rfl).mp h
  cases k <;>
  · have hkey : encodeSecondaryKey _ r.name = encodeSecondaryKey _ name := hk
    simpa [encodeSecondaryKey] using hkey

/-- The keys of the copies of different accounts differ. -/
theorem accountKey_inj {k k' : Kind} {name name' : Bytes} :
    encodeSecondaryKey k.ukey name = encodeSecondaryKey k'.ukey name' ↔ k = k' ∧ name = name' := by
  constructor
  · intro h
    simp only [encodeSecondaryKey, Key.secondary.injEq, List.cons.injEq, KeyPart.text.injEq,
      and_true] at h
    refine ⟨?_, h.2⟩
    by_contra hne
    exact (Kind.disjoint hne).2.2.2 h.1
  · rintro ⟨rfl, rfl⟩
    rfl

theorem CacheContainer.get_setAssoc {A : Type} (c : OrdMap Key A) (hash key : Key) (a : A) :
    (setAssoc c hash a false).get key = if key = hash then some a else c.get key := by
  rw [setAssoc]
  simp [OrdMap.get_put]

/-- The category entries of a user have keys of their own. -/
theorem get_categories_fill (categories : List Bytes) (name : Bytes) (ts : Nat)
    (c : OrdMap Key CacheV) {hash : Key} (hk : hash.keytype ≠ fUserdataNameCategory) :
    (categories.foldl (fun c category => CacheContainer.setAssoc c
        (.secondary fUserdataNameCategory [.text name, .text category]) (.tsText ts) false) c).get
      hash = c.get hash := by
  induction categories generalizing c with
  | nil => rfl
  | cons category categories ih =>
    rw [List.foldl_cons, ih, CacheContainer.get_setAssoc, if_neg]
    rintro rfl
    exact hk rfl

/-- What `Get` leaves in the cache when it has read a record. -/
def Privileges.Kind.fill : Kind → UserDataT → OrdMap Key CacheV → OrdMap Key CacheV
  | .exter, r, dbcache =>
    CacheContainer.setAssoc dbcache (encodeSecondaryKey uExterdataName r.name)
      (.packed (.user (exterPack r))) false
  | .user, r, dbcache =>
    r.categories.foldl (fun c category => CacheContainer.setAssoc c
        (.secondary fUserdataNameCategory [.text r.name, .text category])
        (.tsText r.updatedAt) false)
      (CacheContainer.setAssoc dbcache (encodeSecondaryKey uUserdataName r.name)
        (.packed (.user (userPack r))) false)

/-- The key type `Get` sets. -/
def Privileges.Kind.keytype : Kind → KeyTypeE
  | .user => kUserdata
  | .exter => kExterdata

theorem Privileges.Kind.get_eq (k : Kind) : k.get = credGet k.table k.ukey k.keytype k.fill := by
  cases k <;> rfl

theorem Privileges.Kind.get_fill (k k' : Kind) (r : UserDataT) (dbcache : OrdMap Key CacheV) (name : Bytes) :
    (k.fill r dbcache).get (encodeSecondaryKey k'.ukey name) =
      if k' = k ∧ name = r.name then some (.packed (.user (k.pack r)))
      else dbcache.get (encodeSecondaryKey k'.ukey name) := by
  have hput : (CacheContainer.setAssoc dbcache (encodeSecondaryKey k.ukey r.name)
      (.packed (.user (k.pack r))) false).get (encodeSecondaryKey k'.ukey name) =
      if k' = k ∧ name = r.name then some (.packed (.user (k.pack r)))
      else dbcache.get (encodeSecondaryKey k'.ukey name) := by
    rw [CacheContainer.get_setAssoc]
    simp only [accountKey_inj]
  cases k with
  | exter => exact hput
  | user =>
    have hk : (encodeSecondaryKey k'.ukey name).keytype ≠ fUserdataNameCategory := by
      rw [show (encodeSecondaryKey k'.ukey name).keytype = k'.ukey from rfl]
      cases k' <;> decide
    exact (get_categories_fill _ _ _ _ hk).trans hput

/-- **`Get`** with a sound cache: the record of that name or its copy, or notfound; the cache stays
    sound. -/
theorem Privileges.Kind.get_spec (k : Kind) {st : SharedTable}
    (hok : StoreTable.TableOk k.table k.ukey st.maindb) (hc : CacheOk st) (data : UserDataT) :
    ∃ r' dbcache, k.get st data = .ok (r', { st with dbcache := dbcache }) ∧
      CacheOk { st with dbcache := dbcache } ∧
      ((stored k st.maindb data.name = none ∧ r'.notfound = true) ∨
        ∃ r, stored k st.maindb data.name = some r ∧ Fetched k r r') := by
  have hkey : k.table.getKey data k.ukey = encodeSecondaryKey k.ukey data.name := by
    cases k <;> rfl
  rw [k.get_eq, credGet]
  cases hcached : st.dbcache.get (encodeSecondaryKey k.ukey data.name) with
  | some v =>
    obtain ⟨r, hr, rfl⟩ := hc k data.name v hcached
    refine ⟨_, st.dbcache, rfl, hc, Or.inr ⟨r, hr, k.keytype, Or.inr rfl⟩⟩
  | none =>
    simp only [k.singleKey.getOne_unique hok, hkey, bind, Except.bind]
    cases hr : k.table.find st.maindb (encodeSecondaryKey k.ukey data.name) with
    | none => exact ⟨_, st.dbcache, rfl, hc, Or.inl ⟨hr, rfl⟩⟩
    | some r =>
      refine ⟨_, k.fill r st.dbcache, rfl, fun k' name v hv => ?_, Or.inr ⟨r, hr, _, Or.inl rfl⟩⟩
      rw [k.get_fill] at hv
      split at hv
      · rename_i hsame
        obtain ⟨rfl, rfl⟩ := hsame
        rw [stored_name hok hr]
        exact ⟨r, hr, (Option.some.inj hv).symm⟩
      · exact hc k' name v hv

/-! ## Sessions -/

/-- A check of a session keeps the cache sound. -/
theorem credCheckSession_cacheOk (k : Kind) {st : SharedTable}
    (hok : StoreTable.TableOk k.table k.ukey st.maindb) (hc : CacheOk st) (decode : Decode)
    (currtime : Nat) (data : UserDataT) :
    ∃ dbcache, (credCheckSession k.get decode currtime st data).1 = { st with dbcache := dbcache } ∧
      CacheOk { st with dbcache := dbcache } := by
  obtain ⟨r', dbcache, hget, hc', -⟩ := k.get_spec hok hc data
  rw [credCheckSession, hget]
  split
  · exact ⟨st.dbcache, rfl, hc⟩
  · split
    · exact ⟨st.dbcache, rfl, hc⟩
    · exact ⟨dbcache, rfl, hc'⟩

theorem checkSession_cacheOk {st : SharedTable} (hok : StoreOk st.maindb) (hc : CacheOk st)
    (decode : Decode) (currtime : Nat) (data : UserDataT) (onlyadmin : Bool) :
    ∃ dbcache, (checkSession decode currtime st data onlyadmin).1 = { st with dbcache := dbcache } ∧
      CacheOk { st with dbcache := dbcache } := by
  rw [checkSession]
  split
  · exact credCheckSession_cacheOk .exter (hok.table .exter) hc decode currtime data
  · split
    · exact ⟨st.dbcache, rfl, hc⟩
    · split
      · exact credCheckSession_cacheOk .user (hok.table .user) hc decode currtime data
      · exact ⟨st.dbcache, rfl, hc⟩

/-! ## Commits -/

/-- **What a commit leaves in the cache**: with nothing written all copies stay; else the copies of
    the rows that `AddToCache` gets through are dropped. -/
theorem commit_dbcache {st : SharedTable} (hm : st.isMaster = true) (now : Nat) (t : TransactionT)
    (isMaster : Bool) (env : CommitEnv) :
    ((commit st now t isMaster env).table.maindb = st.maindb ∧
        (commit st now t isMaster env).table.dbcache = st.dbcache) ∨
      ((commit st now t isMaster env).table.maindb = applyItems st.maindb t ∧
        (commit st now t isMaster env).table.dbcache =
          ((cacheRows st.noXapian env.indexFails t.item).1.filterMap cacheKeyOf).foldl
            CacheContainer.delAssoc st.dbcache) := by
  rw [commit, if_pos hm]
  have hbody := commitBody_cases st now t isMaster env
  generalize commitBody st now t isMaster env = out at hbody ⊢
  cases hbody with
  | empty _ => exact .inl ⟨rfl, rfl⟩
  | noLog _ _ => exact .inl ⟨rfl, rfl⟩
  | noData _ _ _ => exact .inl ⟨rfl, rfl⟩
  | done _ _ _ hwritten =>
    subst hwritten
    refine .inr ⟨(commitTail_same _ _ _ _).maindb, ?_⟩
    rw [commitTail]
    split
    · cases env.pushOk <;> simp [addToCache]
    · simp [addToCache]

/-- The records that are cached. -/
inductive GetKind
  | user | exter | tag | category
  deriving DecidableEq, Repr

def GetKind.recKind : GetKind → RecKind
  | user => .user
  | exter => .exter
  | tag => .tag
  | category => .category

/-- The record of a cached kind makes a commit drop the copy under its key. -/
theorem GetKind.cacheKeyOf_rows (k : GetKind) (c : Change k.recKind.Rec) :
    k.recKind.service.key c.record ∈
      (k.recKind.service.table.rows k.recKind.service.ukey c).filterMap cacheKeyOf := by
  have hrow : cacheKeyOf
      { key := encodePrimaryKey k.recKind.pkey (k.recKind.service.table.id c.record)
        value := k.recKind.service.table.serialize c.record } =
      some (k.recKind.service.key c.record) := by
    cases k <;> rfl
  refine List.mem_filterMap.mpr ⟨_, ?_, hrow⟩
  rw [StoreTable.rows]
  split
  · exact List.mem_singleton_self _
  · exact List.mem_cons_of_mem _ (List.mem_singleton_self _)

/-- **A commit drops what it changes**: under a key that is not dropped, a table of cached records
    finds what it found before. -/
theorem GetKind.find_write_other {db : DataDb} (hok : StoreOk db) {rk : RecKind}
    {cs : List (Change rk.Rec)}
    (hfit : ∀ c ∈ cs, StoreTable.Fits rk.service.table rk.service.ukey db c)
    (hap : cs.Pairwise (StoreTable.Apart rk.service.table rk.service.ukey)) {k : GetKind} {key : Key}
    (hk : key.keytype = k.recKind.ukey)
    (hno : key ∉ (cs.flatMap (rk.service.table.rows rk.service.ukey)).filterMap cacheKeyOf) :
    k.recKind.service.table.find
        (db.write (dataBatch (cs.flatMap (rk.service.table.rows rk.service.ukey)))) key =
      k.recKind.service.table.find db key := by
  by_cases hkind : k.recKind = rk
  · subst hkind
    refine k.recKind.service_lawful.single.find_batch_other (hok _) hfit hap hk fun c hc hkey => ?_
    obtain ⟨i, hi, hki⟩ := List.mem_filterMap.mp (k.cacheKeyOf_rows c)
    exact hno (List.mem_filterMap.mpr
      ⟨i, List.mem_flatMap.mpr ⟨c, hc, hi⟩, hki.trans (congrArg some hkey)⟩)
  · exact StoreTable.SingleKey.find_congr hk fun key' hkey =>
      RecKind.get_write_other hkind db cs hkey

/-- **Written records leave sound copies**: the copies a commit does not drop are of accounts it does
    not write. -/
theorem cacheOk_write {st st' : SharedTable} (hok : StoreOk st.maindb) (hc : CacheOk st)
    {rk : RecKind} {cs : List (Change rk.Rec)}
    (hfit : ∀ c ∈ cs, StoreTable.Fits rk.service.table rk.service.ukey st.maindb c)
    (hap : cs.Pairwise (StoreTable.Apart rk.service.table rk.service.ukey))
    (hdb : st'.maindb = st.maindb.write
      (dataBatch (cs.flatMap (rk.service.table.rows rk.service.ukey))))
    (hcache : st'.dbcache = ((cs.flatMap (rk.service.table.rows rk.service.ukey)).filterMap
      cacheKeyOf).foldl CacheContainer.delAssoc st.dbcache) : CacheOk st' := by
  intro k name v hv
  rw [hcache, get_foldl_delAssoc] at hv
  split at hv
  · cases hv
  · rename_i hno
    have hsame : stored k st'.maindb name = stored k st.maindb name := by
      rw [hdb]
      cases k
      · exact GetKind.find_write_other hok hfit hap (k := .user) rfl hno
      · exact GetKind.find_write_other hok hfit hap (k := .exter) rfl hno
    rw [hsame]
    exact hc k name v hv

theorem cacheOk_of_same {st st' : SharedTable} (hc : CacheOk st) (hdb : st'.maindb = st.maindb)
    (hcache : st'.dbcache = st.dbcache) : CacheOk st' := by
  intro k name v hv
  rw [hcache] at hv
  rw [hdb]
  exact hc k name v hv

/-- **A request keeps the cache sound.** -/
theorem RecKind.manage_cacheOk {rk : RecKind} {st : SharedTable} (hm : st.isMaster = true)
    (hok : StoreOk st.maindb) (hc : CacheOk st) (m : Manage) (input : List (rk.Rec × PrepEnv))
    (env : CommitEnv) : CacheOk (rk.service.manage st m input env).table := by
  have h := rk.service_lawful
  have hsame := h.payloads_same m input { table := st }
  rw [Service.manage]
  split
  · rename_i w e heq
    rw [heq] at hsame
    obtain ⟨t, n, -, hst⟩ := hsame
    have hst' : w.table = { st with tmpcache := t, maincounter := n } := hst
    refine cacheOk_of_same hc ?_ ?_ <;> simp only [TempNameCache.destroy, hst']
  · rename_i w heq
    rw [heq] at hsame
    obtain ⟨t, n, -, hst⟩ := hsame
    have hst' : w.table = { st with tmpcache := t, maincounter := n } := hst
    obtain ⟨cs, hw, -⟩ := h.payloads_staged_nil (hok rk) heq
    have hmaster : w.table.isMaster = true := by
      rw [hst']
      exact hm
    rcases commit_dbcache hmaster m.currtime { item := w.items, updater := m.updater.name } true
      env with ⟨hdb, hcache⟩ | ⟨hdb, hcache⟩
    · refine cacheOk_of_same hc ?_ ?_
      · simp only [TempNameCache.destroy]
        rw [hdb, hst']
      · simp only [TempNameCache.destroy]
        rw [hcache, hst']
    · refine cacheOk_write hok hc hw.fits hw.apart ?_ ?_
      · simp only [TempNameCache.destroy]
        rw [hdb, hst', applyItems, hw.items]
      · simp only [TempNameCache.destroy]
        rw [hcache, hst', hw.items]
        exact congrArg (List.foldl CacheContainer.delAssoc st.dbcache) (rk.cacheRows_keys _ _ _)

theorem RecKind.manageDataAction_cacheOk {rk : RecKind} {st : SharedTable}
    (hok : StoreOk st.maindb) (hc : CacheOk st) (env : ActionEnv) (resp : RespT rk.Rec) :
    CacheOk (rk.manageDataAction env st resp).table := by
  rw [rk.manageDataAction_eq, Zapdos.Store.manageDataAction]
  by_cases hm : st.isMaster = true
  · rw [if_neg (by rw [hm]; decide)]
    cases hact : writeActionFilter resp.action with
    | error e => exact hc
    | ok am =>
      obtain ⟨action, merge⟩ := am
      obtain ⟨dbcache, hsame, hc'⟩ := checkSession_cacheOk hok hc env.decode env.sessionTime
        { name := resp.username, sessionkey := resp.sessionkey,
          keytype := rk.head.updaterKeytype resp } rk.head.onlyadmin
      simp only
      generalize checkSession env.decode env.sessionTime st
        { name := resp.username, sessionkey := resp.sessionkey,
          keytype := rk.head.updaterKeytype resp } rk.head.onlyadmin = sess at hsame ⊢
      obtain ⟨st', res⟩ := sess
      have hst' : st' = { st with dbcache := dbcache } := hsame
      subst hst'
      cases res with
      | error e => exact hc'
      | ok found =>
        cases found with
        | none => exact hc'
        | some updater =>
          simp only
          cases rk.head.checkUpdater updater with
          | error e => exact hc'
          | ok =>
            exact RecKind.manage_cacheOk
              (show ({ st with dbcache := dbcache } : SharedTable).isMaster = true from hm) hok hc'
              _ _ _
  · rw [if_pos (by simpa using hm)]
    exact hc

/-- A password reset keeps the cache sound. -/
theorem resetPassAction_cacheOk (k : Kind) {st : SharedTable} (hok : StoreOk st.maindb)
    (hc : CacheOk st) (currtime : Nat) (resp : ResetRespT) (env : CommitEnv) :
    CacheOk (resetPassAction k st currtime resp env).1 := by
  rw [resetPassAction_eq, resetPass]
  cases hm : st.isMaster with
  | false => exact hc
  | true =>
    cases hrows : resetPassRows k.table k.ukey st.maindb currtime resp with
    | error e => exact hc
    | ok items =>
      obtain ⟨old, hold, -, rfl⟩ := (rows_eq_ok (hok.table k)).mp hrows
      have hfit := (renewed_fits (hok.table k) hold currtime resp).1
      have hone : k.table.rows k.ukey ⟨true, renewed currtime resp old⟩ =
          [(⟨true, renewed currtime resp old⟩ : Change UserDataT)].flatMap
            (k.table.rows k.ukey) := (List.flatMap_singleton _ _).symm
      rcases commit_dbcache hm currtime
        { item := k.table.rows k.ukey ⟨true, renewed currtime resp old⟩, updater := defaultAdmin }
        true env with ⟨hdb, hcache⟩ | ⟨hdb, hcache⟩
      · exact cacheOk_of_same hc hdb hcache
      · rw [applyItems, hone] at hdb
        rw [hone] at hcache
        cases k
        · refine @cacheOk_write _ _ hok hc .user [⟨true, renewed currtime resp old⟩]
            (List.forall_mem_singleton.mpr hfit) (List.pairwise_singleton _ _) hdb (hcache.trans ?_)
          exact congrArg (List.foldl CacheContainer.delAssoc st.dbcache)
            (RecKind.user.cacheRows_keys _ _ _)
        · refine @cacheOk_write _ _ hok hc .exter [⟨true, renewed currtime resp old⟩]
            (List.forall_mem_singleton.mpr hfit) (List.pairwise_singleton _ _) hdb (hcache.trans ?_)
          exact congrArg (List.foldl CacheContainer.delAssoc st.dbcache)
            (RecKind.exter.cacheRows_keys _ _ _)

/-! ## Stores with a sound cache -/

/-- A store in order whose cached copies are sound. -/
structure CachedStore extends OrderedStore where
  cache : CacheOk st

namespace CachedStore

def manageDataAction (s : CachedStore) {rk : RecKind} (env : ActionEnv) (resp : RespT rk.Rec) :
    CachedStore where
  toOrderedStore := s.toOrderedStore.manageDataAction env resp
  cache := RecKind.manageDataAction_cacheOk s.tables s.cache env resp

def resetPassAction (s : CachedStore) (k : Kind) (currtime : Nat) (resp : ResetRespT)
    (env : CommitEnv) : CachedStore where
  toOrderedStore := s.toOrderedStore.resetPass k currtime resp env
  cache := resetPassAction_cacheOk k s.tables s.cache currtime resp env

/-- The store after a read that only touched the cache. -/
def read (s : CachedStore) (st : SharedTable)
    (h : ∃ dbcache, st = { s.st with dbcache := dbcache } ∧ CacheOk { s.st with dbcache := dbcache }) :
    CachedStore where
  st := st
  tables := by
    obtain ⟨dbcache, rfl, -⟩ := h
    exact s.tables
  log := by
    obtain ⟨dbcache, rfl, -⟩ := h
    exact s.log
  cache := by
    obtain ⟨dbcache, rfl, hc⟩ := h
    exact hc

end CachedStore

end Zapdos.Store
