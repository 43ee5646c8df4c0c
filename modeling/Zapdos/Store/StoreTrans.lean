/-
  Transactions — `StoreTrans`: `Commit`, `CommitLog`, `CommitData`, `ReadLog`, `ReadOne`,
  `AddToCache`.

  A commit is a counter increment followed by two separate batch writes, one into the log and one
  into the records.  The statuses the databases and the network return are inputs (`CommitEnv`).  A
  batch whose write returns a non-ok status leaves its database as it was.  Of the search index that
  `AddToCache` feeds for items, only its exceptions are here: they leave `Commit` after both writes.
  The flush of the index that an operator can ask for (`force_commit`) is not part of the model.
-/
import Zapdos.Lib.Consecutive
import Zapdos.Store.TempNameCache

namespace Zapdos.Store

open Zapdos.Lib

/-! ## Writing -/

/-- What the outside answers during one commit. -/
structure CommitEnv where
  /-- status of `logdb->Write` -/
  logOk : Bool := true
  /-- status of `maindb->Write` -/
  dataOk : Bool := true
  /-- status of the push to `lastslave` -/
  pushOk : Bool := true
  /-- the row from which on the search index refuses documents -/
  indexFails : Option Nat := none
  deriving DecidableEq, Repr

/-- The batch `CommitLog` writes. -/
def logBatch (trans : TransactionT) : List (OrdMap.BatchOp Key LogV) :=
  [.put (encodePrimaryKey kLognode trans.id) (.trans trans),
   .put (encodeSecondaryKeyTs iLognodeTs trans.ts trans.id) (.idText trans.id)]

/-- The batch `CommitData` writes. -/
def dataBatch (items : List TransItemT) : List (OrdMap.BatchOp Key DataV) :=
  items.map (fun i => if i.toDel then .delete i.key else .put i.key i.value)

/-- The entry `CommitLog` makes of a transaction: numbered by the log counter, and stamped with the
    commit's own time on the master. -/
def stamp (useCurrtime : Nat) (trans : TransactionT) (isMaster : Bool) (id : Nat) : TransactionT :=
  if isMaster then { trans with id := id, ts := useCurrtime } else { trans with id := id }

/-- `CommitLog`. -/
def commitLog (st : SharedTable) (useCurrtime : Nat) (trans : TransactionT) (isMaster : Bool)
    (logOk : Bool) : SharedTable × TransactionT × Bool :=
  if trans.item = [] then (st, trans, true)
  else
    -- the logcounter is incremented just before writing, whatever the write returns
    let (id, st) := st.logcounterGetNext
    let trans := stamp useCurrtime trans isMaster id
    if logOk then ({ st with logdb := st.logdb.write (logBatch trans) }, trans, true)
    else (st, trans, false)

/-- `CommitData`. -/
def commitData (st : SharedTable) (trans : TransactionT) (dataOk : Bool) : SharedTable × Bool :=
  if trans.item = [] then (st, true)
  else if dataOk then ({ st with maindb := st.maindb.write (dataBatch trans.item) }, true)
  else (st, false)

/-- The cache key `AddToCache` drops for one row: the name key of a tag, category, exter or user. -/
def cacheKeyOf (i : TransItemT) : Option Key :=
  match i.key with
  | .primary kt _ =>
    if kt = kTagdata then
      i.value.parseTag.map (fun r => encodeSecondaryKeyNum uTagdataKeytypeName r.keytype r.name)
    else if kt = kCategory then
      i.value.parseCategory.map (fun r => encodeSecondaryKey uCategoryName r.name)
    else if kt = kExterdata then
      i.value.parseUser.map (fun r => encodeSecondaryKey uExterdataName r.name)
    else if kt = kUserdata then
      i.value.parseUser.map (fun r => encodeSecondaryKey uUserdataName r.name)
    else none
  | .secondary _ _ => none

/-- `Xapian::LatLongCoord`: a latitude out of range is an exception. -/
def latLongCoord (lat lon : Rat) : Option (Rat × Rat) :=
  if -90 ≤ lat ∧ lat ≤ 90 then some (lat, lon) else none

/-- The record `AddToCache` gives to the search index for one row: an item, unless `no_xapian` is set. -/
def indexedItem (noXapian : Bool) (i : TransItemT) : Option ItemDataT :=
  match i.key with
  | .primary kt _ =>
    if (kt = kLocaldata ∨ kt = kWikidata) ∧ noXapian = false then i.value.parseItem else none
  | .secondary _ _ => none

/-- A row for the search index whose document cannot be made: `IndexGeo` throws outside of its
    `try`. -/
def unplaced (noXapian : Bool) (i : TransItemT) : Bool :=
  match indexedItem noXapian i with
  | none => false
  | some record => !i.toDel && (latLongCoord record.lat record.lon).isNone

/-- The loop of `AddToCache` as far as exceptions go: the rows it gets through, and how it ends. -/
def cacheRows (noXapian : Bool) : Option Nat → List TransItemT → List TransItemT × Except Exc Unit
  | _, [] => ([], .ok ())
  | indexFails, i :: items =>
    if unplaced noXapian i ∨ (indexFails = some 0 ∧ (indexedItem noXapian i).isSome) then
      ([], .error xapianError)
    else
      let (rows, result) := cacheRows noXapian (indexFails.map Nat.pred) items
      (i :: rows, result)

/-- `AddToCache` gets through the rows: every item has a place, and the search index takes it. -/
def CacheTakes (noXapian : Bool) (env : CommitEnv) (items : List TransItemT) : Prop :=
  (∀ i ∈ items, unplaced noXapian i = false) ∧
    ∀ n ∈ env.indexFails, ∀ i ∈ items.drop n, indexedItem noXapian i = none

instance (noXapian : Bool) (env : CommitEnv) (items : List TransItemT) :
    Decidable (CacheTakes noXapian env items) := instDecidableAnd

/-- `AddToCache`, without what the search index then holds: it drops the cached copies of the rows it
    gets through. -/
def addToCache (st : SharedTable) (trans : TransactionT) (indexFails : Option Nat) :
    SharedTable × Except Exc Unit :=
  let (rows, result) := cacheRows st.noXapian indexFails trans.item
  ({ st with dbcache := (rows.filterMap cacheKeyOf).foldl CacheContainer.delAssoc st.dbcache }, result)

/-- `ZPDS_LOCK_SLAVE_UPDATES`. -/
def lockSlaveUpdates : Nat := 999

/-- A transaction on its way to another node (`R_BUFFTRANS`). -/
structure Push where
  dest : Bytes
  trans : TransactionT
  deriving DecidableEq, Repr

/-- How a commit ended. -/
structure CommitOut where
  table : SharedTable
  /-- the transaction as `CommitLog` left it -/
  trans : TransactionT
  /-- the push to the last slave, if there was one -/
  push : Option Push
  result : Except Exc Unit
  /-- both databases have the transaction -/
  written : Bool

/-- The part of `Commit` after both writes: push to the last slave, then `AddToCache`, whose exception
    nothing catches here. -/
def commitTail (st : SharedTable) (trans : TransactionT) (isMaster : Bool) (env : CommitEnv) :
    CommitOut :=
  if isMaster && st.isMaster && st.lastslave ≠ [] then
    let st' := if env.pushOk then st else { st with lastslave := [] }
    let (st', result) := addToCache st' trans env.indexFails
    ⟨st', trans, some ⟨st.lastslave, trans⟩, result, true⟩
  else
    let (st, result) := addToCache st trans env.indexFails
    ⟨st, trans, none, result, true⟩

/-- The two writes of `Commit` and what follows them. -/
def commitBody (st : SharedTable) (useCurrtime : Nat) (trans : TransactionT) (isMaster : Bool)
    (env : CommitEnv) : CommitOut :=
  if trans.item = [] then ⟨st, trans, none, .ok (), false⟩
  else
    let (st, trans, ok) := commitLog st useCurrtime trans isMaster env.logOk
    if !ok then ⟨st, trans, none, badData "Insert failed for log", false⟩
    else
      let (st, ok) := commitData st trans env.dataOk
      if !ok then ⟨st, trans, none, badData "Insert failed for data", false⟩
      else commitTail st trans isMaster env

/-- `Commit`.  On a slave it holds the lock on slave updates while it works; the result of taking
    the lock is ignored. -/
def commit (st : SharedTable) (useCurrtime : Nat) (trans : TransactionT) (isMaster : Bool)
    (env : CommitEnv) : CommitOut :=
  if st.isMaster then commitBody st useCurrtime trans isMaster env
  else
    let (_, st, namecache) := TempNameCache.multiTypeLock st {} lockSlaveUpdates
    let out := commitBody st useCurrtime trans isMaster env
    { out with table := namecache.destroy out.table }

/-! ## The effect of a commit -/

/-- What an entry does to the records. -/
def applyItems (db : DataDb) (t : TransactionT) : DataDb := db.write (dataBatch t.item)

/-- The two tables differ at most in caches, reservations and followers. -/
structure SameStore (a b : SharedTable) : Prop where
  logcounter : b.logcounter = a.logcounter
  maincounter : b.maincounter = a.maincounter
  logdb : b.logdb = a.logdb
  maindb : b.maindb = a.maindb
  isMaster : b.isMaster = a.isMaster
  noXapian : b.noXapian = a.noXapian
  transactions : b.transactions = a.transactions
  thisurl : b.thisurl = a.thisurl

theorem SameStore.refl (a : SharedTable) : SameStore a a := ⟨rfl, rfl, rfl, rfl, rfl, rfl, rfl, rfl⟩

/-- `b` is `a` with the entry `e` committed. -/
structure Committed (a b : SharedTable) (e : TransactionT) : Prop where
  logcounter : b.logcounter = a.logcounter + 1
  maincounter : b.maincounter = a.maincounter
  logdb : b.logdb = a.logdb.write (logBatch e)
  maindb : b.maindb = applyItems a.maindb e
  isMaster : b.isMaster = a.isMaster
  noXapian : b.noXapian = a.noXapian
  transactions : b.transactions = a.transactions
  thisurl : b.thisurl = a.thisurl

theorem SameStore.trans {a b c : SharedTable} (h : SameStore a b) (h' : SameStore b c) :
    SameStore a c :=
  ⟨h'.logcounter.trans h.logcounter, h'.maincounter.trans h.maincounter, h'.logdb.trans h.logdb,
    h'.maindb.trans h.maindb, h'.isMaster.trans h.isMaster, h'.noXapian.trans h.noXapian,
    h'.transactions.trans h.transactions, h'.thisurl.trans h.thisurl⟩

theorem SameStore.committed {a a' b' b : SharedTable} {e : TransactionT} (h : SameStore a a')
    (hc : Committed a' b' e) (h' : SameStore b' b) : Committed a b e := by
  refine ⟨?_, ?_, ?_, ?_, ?_, ?_, ?_, ?_⟩
  · rw [h'.logcounter, hc.logcounter, h.logcounter]
  · rw [h'.maincounter, hc.maincounter, h.maincounter]
  · rw [h'.logdb, hc.logdb, h.logdb]
  · rw [h'.maindb, hc.maindb, h.maindb]
  · rw [h'.isMaster, hc.isMaster, h.isMaster]
  · rw [h'.noXapian, hc.noXapian, h.noXapian]
  · rw [h'.transactions, hc.transactions, h.transactions]
  · rw [h'.thisurl, hc.thisurl, h.thisurl]

@[simp] theorem stamp_item (now : Nat) (t : TransactionT) (isMaster : Bool) (id : Nat) :
    (stamp now t isMaster id).item = t.item := by
  cases isMaster <;> rfl

@[simp] theorem stamp_id (now : Nat) (t : TransactionT) (isMaster : Bool) (id : Nat) :
    (stamp now t isMaster id).id = id := by
  cases isMaster <;> rfl

@[simp] theorem stamp_notfound (now : Nat) (t : TransactionT) (isMaster : Bool) (id : Nat) :
    (stamp now t isMaster id).notfound = t.notfound := by
  cases isMaster <;> rfl

theorem cacheRows_ok_iff {noXapian : Bool} {indexFails : Option Nat} {items : List TransItemT} :
    (cacheRows noXapian indexFails items).2 = .ok () ↔
      (∀ i ∈ items, unplaced noXapian i = false) ∧
        ∀ n ∈ indexFails, ∀ i ∈ items.drop n, indexedItem noXapian i = none := by
  induction items generalizing indexFails with
  | nil => simp [cacheRows]
  | cons i items ih =>
    rw [cacheRows, List.forall_mem_cons]
    split
    · rename_i hstop
      refine iff_of_false nofun ?_
      rintro ⟨⟨hplaced, -⟩, hdocs⟩
      rcases hstop with hu | ⟨rfl, hi⟩
      · rw [hplaced] at hu
        cases hu
      · rw [hdocs 0 rfl i List.mem_cons_self] at hi
        cases hi
    · rename_i hgo
      obtain ⟨hplaced, hdoc⟩ := not_or.mp hgo
      rw [Bool.not_eq_true] at hplaced
      refine ih.trans (and_congr ?_ ?_)
      · simp [hplaced]
      · cases indexFails with
        | none => simp
        | some n =>
          cases n with
          | zero =>
            -- the index already refuses, and this row is none of its own
            have hno : indexedItem noXapian i = none := by simpa using hdoc
            simp [hno]
          | succ n => simp

/-- `AddToCache` ends as said, and any exception is that of the search index. -/
theorem cacheRows_result (noXapian : Bool) (env : CommitEnv) (items : List TransItemT) :
    (cacheRows noXapian env.indexFails items).2 =
      if CacheTakes noXapian env items then .ok () else .error xapianError := by
  have herror : ∀ indexFails, (cacheRows noXapian indexFails items).2 = .ok () ∨
      (cacheRows noXapian indexFails items).2 = .error xapianError := by
    induction items with
    | nil => exact fun _ => Or.inl rfl
    | cons i items ih =>
      intro indexFails
      rw [cacheRows]
      split
      · exact Or.inr rfl
      · exact ih _
  split
  · rename_i htakes
    exact cacheRows_ok_iff.mpr htakes
  · rename_i hno
    exact (herror _).resolve_left fun h => hno (cacheRows_ok_iff.mp h)

/-- The rows that `AddToCache` gets through are the first ones, and all when nothing is thrown. -/
theorem cacheRows_prefix (noXapian : Bool) (indexFails : Option Nat) (items : List TransItemT) :
    (cacheRows noXapian indexFails items).1 <+: items ∧
      ((cacheRows noXapian indexFails items).2 = .ok () →
        (cacheRows noXapian indexFails items).1 = items) := by
  induction items generalizing indexFails with
  | nil => exact ⟨List.prefix_rfl, fun _ => rfl⟩
  | cons i items ih =>
    rw [cacheRows]
    split
    · exact ⟨List.nil_prefix, fun h => by cases h⟩
    · obtain ⟨hfront, hall⟩ := ih (indexFails.map Nat.pred)
      exact ⟨List.cons_prefix_cons.mpr ⟨rfl, hfront⟩, fun h => congrArg (i :: ·) (hall h)⟩

/-- Only the key types of items are indexed. -/
theorem indexedItem_of_keytype {noXapian : Bool} {i : TransItemT} (hl : i.key.keytype ≠ kLocaldata)
    (hw : i.key.keytype ≠ kWikidata) : indexedItem noXapian i = none := by
  rw [indexedItem]
  split
  · rename_i kt id hkey
    rw [hkey] at hl hw
    exact if_neg fun h => h.1.elim hl hw
  · rfl

/-- Rows of other records never make `AddToCache` throw. -/
theorem cacheTakes_of_not_indexed {noXapian : Bool} {items : List TransItemT} (env : CommitEnv)
    (h : ∀ i ∈ items, indexedItem noXapian i = none) : CacheTakes noXapian env items := by
  refine ⟨fun i hi => ?_, fun n _ i hi => h i (List.mem_of_mem_drop hi)⟩
  rw [unplaced, h i hi]

theorem commitTail_result (s : SharedTable) (e : TransactionT) (isMaster : Bool) (env : CommitEnv) :
    (commitTail s e isMaster env).result =
      if CacheTakes s.noXapian env e.item then .ok () else .error xapianError := by
  rw [← cacheRows_result, commitTail]
  split
  · cases env.pushOk <;> rfl
  · rfl

@[simp] theorem commitTail_written (s : SharedTable) (e : TransactionT) (isMaster : Bool)
    (env : CommitEnv) : (commitTail s e isMaster env).written = true := by
  rw [commitTail]
  split <;> rfl

@[simp] theorem commitTail_trans (s : SharedTable) (e : TransactionT) (isMaster : Bool)
    (env : CommitEnv) : (commitTail s e isMaster env).trans = e := by
  rw [commitTail]
  split <;> rfl

theorem commitTail_same (s : SharedTable) (e : TransactionT) (isMaster : Bool) (env : CommitEnv) :
    SameStore s (commitTail s e isMaster env).table := by
  rw [commitTail]
  split
  · cases env.pushOk <;> exact ⟨rfl, rfl, rfl, rfl, rfl, rfl, rfl, rfl⟩
  · exact ⟨rfl, rfl, rfl, rfl, rfl, rfl, rfl, rfl⟩

@[simp] theorem commitTail_tmpcache (s : SharedTable) (e : TransactionT) (isMaster : Bool)
    (env : CommitEnv) : (commitTail s e isMaster env).table.tmpcache = s.tmpcache := by
  rw [commitTail]
  split
  · cases env.pushOk <;> rfl
  · rfl

theorem acquire_same (s : SharedTable) (nc : TempNameCache) (key : Key) :
    SameStore s (TempNameCache.acquire s nc key).2.1 := by
  rw [TempNameCache.acquire]
  by_cases hc : CacheContainer.checkAssoc s.tmpcache key = true
  · rw [if_pos hc]
    exact SameStore.refl s
  · rw [if_neg hc]
    exact ⟨rfl, rfl, rfl, rfl, rfl, rfl, rfl, rfl⟩

theorem destroy_same (s : SharedTable) (nc : TempNameCache) : SameStore s (nc.destroy s) :=
  ⟨rfl, rfl, rfl, rfl, rfl, rfl, rfl, rfl⟩

/-- **Everything the body of a commit can do**: nothing without items, else take a log id and stop
    when the log write fails, or with the log written when the data write fails, or write both and
    come to its end, with the exception of `AddToCache` if there is one. -/
inductive CommitBody (st : SharedTable) (now : Nat) (t : TransactionT) (isMaster : Bool)
    (env : CommitEnv) : CommitOut → Prop
  | empty (hitem : t.item = []) : CommitBody st now t isMaster env ⟨st, t, none, .ok (), false⟩
  | noLog (hitem : t.item ≠ []) (hlog : env.logOk = false) :
      CommitBody st now t isMaster env
        ⟨{ st with logcounter := st.logcounter + 1 }, stamp now t isMaster (st.logcounter + 1), none,
          badData "Insert failed for log", false⟩
  | noData (hitem : t.item ≠ []) (hlog : env.logOk = true) (hdata : env.dataOk = false) :
      CommitBody st now t isMaster env
        ⟨{ st with
            logcounter := st.logcounter + 1
            logdb := st.logdb.write (logBatch (stamp now t isMaster (st.logcounter + 1))) },
          stamp now t isMaster (st.logcounter + 1), none, badData "Insert failed for data", false⟩
  | done {written : SharedTable} (hitem : t.item ≠ []) (hlog : env.logOk = true)
      (hdata : env.dataOk = true)
      (hwritten : written = { st with
        logcounter := st.logcounter + 1
        logdb := st.logdb.write (logBatch (stamp now t isMaster (st.logcounter + 1)))
        maindb := st.maindb.write (dataBatch t.item) }) :
      CommitBody st now t isMaster env
        (commitTail written (stamp now t isMaster (st.logcounter + 1)) isMaster env)

theorem commitBody_cases (st : SharedTable) (now : Nat) (t : TransactionT) (isMaster : Bool)
    (env : CommitEnv) :
    CommitBody st now t isMaster env (commitBody st now t isMaster env) := by
  by_cases hitem : t.item = []
  · rw [commitBody, if_pos hitem]
    exact .empty hitem
  · cases hlog : env.logOk with
    | false =>
      simp only [commitBody, commitLog, if_neg hitem, hlog, SharedTable.logcounterGetNext,
        Bool.false_eq_true, if_false, Bool.not_false, if_true]
      exact .noLog hitem hlog
    | true =>
      cases hdata : env.dataOk with
      | false =>
        simp only [commitBody, commitLog, commitData, if_neg hitem, hlog, hdata, stamp_item,
          SharedTable.logcounterGetNext, Bool.false_eq_true, if_false, Bool.not_false,
          Bool.not_true, if_true]
        exact .noData hitem hlog hdata
      | true =>
        simp only [commitBody, commitLog, commitData, if_neg hitem, hlog, hdata, stamp_item,
          SharedTable.logcounterGetNext, Bool.false_eq_true, if_false, Bool.not_true, if_true]
        exact .done hitem hlog hdata rfl

/-- A commit is its body, between tables that differ in caches and reservations. -/
theorem commit_body (st : SharedTable) (now : Nat) (t : TransactionT) (isMaster : Bool)
    (env : CommitEnv) :
    ∃ st₁, SameStore st st₁ ∧
      SameStore (commitBody st₁ now t isMaster env).table (commit st now t isMaster env).table ∧
      (commit st now t isMaster env).result = (commitBody st₁ now t isMaster env).result ∧
      (commit st now t isMaster env).written = (commitBody st₁ now t isMaster env).written := by
  rw [commit]
  by_cases hm : st.isMaster = true
  · rw [if_pos hm]
    exact ⟨st, SameStore.refl st, SameStore.refl _, rfl, rfl⟩
  · rw [if_neg hm]
    exact ⟨_, acquire_same st {} (encodePrimaryKey kNonode lockSlaveUpdates), destroy_same _ _, rfl,
      rfl⟩

/-- **A commit whose writes succeed**, of a transaction with items: the log gets the transaction
    under the next id, the records get its items, nothing else of the store changes, and it ends as
    `AddToCache` does. -/
theorem commit_committed (st : SharedTable) (now : Nat) (t : TransactionT) (isMaster : Bool)
    {env : CommitEnv} (hitem : t.item ≠ []) (hlog : env.logOk = true) (hdata : env.dataOk = true) :
    (commit st now t isMaster env).result =
        (if CacheTakes st.noXapian env t.item then .ok () else .error xapianError) ∧
      Committed st (commit st now t isMaster env).table
        (stamp now t isMaster (st.logcounter + 1)) := by
  obtain ⟨st₁, hsame, htable, hres, -⟩ := commit_body st now t isMaster env
  rw [hres, ← hsame.logcounter]
  have hbody := commitBody_cases st₁ now t isMaster env
  generalize commitBody st₁ now t isMaster env = out at htable hbody
  cases hbody with
  | empty hempty => exact absurd hempty hitem
  | noLog _ hno => exact absurd (hlog.symm.trans hno) (by simp)
  | noData _ _ hno => exact absurd (hdata.symm.trans hno) (by simp)
  | done _ _ _ hwritten =>
    constructor
    · rw [commitTail_result, stamp_item, hwritten, ← hsame.noXapian]
    · refine hsame.committed ?_ ((commitTail_same _ _ _ _).trans htable)
      subst hwritten
      refine ⟨rfl, rfl, rfl, ?_, rfl, rfl, rfl, rfl⟩
      rw [applyItems, stamp_item]

/-- `b` is `a` with the entry `e` in the log; its rows may be missing. -/
structure Logged (a b : SharedTable) (e : TransactionT) : Prop where
  logcounter : b.logcounter = a.logcounter + 1
  logdb : b.logdb = a.logdb.write (logBatch e)
  maindb : b.maindb = a.maindb ∨ b.maindb = applyItems a.maindb e
  isMaster : b.isMaster = a.isMaster

/-- **A commit whose log write succeeds** has its entry in the log, whatever becomes of the rows. -/
theorem commit_logged (st : SharedTable) (now : Nat) (t : TransactionT) (isMaster : Bool)
    {env : CommitEnv} (hitem : t.item ≠ []) (hlog : env.logOk = true) :
    Logged st (commit st now t isMaster env).table (stamp now t isMaster (st.logcounter + 1)) := by
  obtain ⟨st₁, hsame, htable, -, -⟩ := commit_body st now t isMaster env
  have hbody := commitBody_cases st₁ now t isMaster env
  generalize commitBody st₁ now t isMaster env = out at htable hbody
  cases hbody with
  | empty hempty => exact absurd hempty hitem
  | noLog _ hno => exact absurd (hlog.symm.trans hno) (by simp)
  | noData _ _ _ =>
    refine ⟨?_, ?_, Or.inl ?_, htable.isMaster.trans hsame.isMaster⟩
    · rw [htable.logcounter, hsame.logcounter]
    · rw [htable.logdb, hsame.logdb, hsame.logcounter]
    · rw [htable.maindb, hsame.maindb]
  | done _ _ hdata _ =>
    obtain ⟨-, hc⟩ := commit_committed st now t isMaster hitem hlog hdata
    exact ⟨hc.logcounter, hc.logdb, Or.inr hc.maindb, hc.isMaster⟩

/-- A transaction without items changes nothing of the store. -/
theorem commit_empty (st : SharedTable) (now : Nat) (t : TransactionT) (isMaster : Bool)
    (env : CommitEnv) (hitem : t.item = []) :
    SameStore st (commit st now t isMaster env).table ∧
      (commit st now t isMaster env).result = .ok () := by
  obtain ⟨st₁, hsame, htable, hres, -⟩ := commit_body st now t isMaster env
  rw [commitBody, if_pos hitem] at htable hres
  exact ⟨hsame.trans htable, hres⟩

/-- What a commit writes, whatever the outside answers: all rows or none, and all when it succeeds. -/
theorem commit_written (st : SharedTable) (now : Nat) (t : TransactionT) (isMaster : Bool)
    (env : CommitEnv) :
    ((commit st now t isMaster env).written = true →
        (commit st now t isMaster env).table.maindb = st.maindb.write (dataBatch t.item)) ∧
      ((commit st now t isMaster env).written = false →
        (commit st now t isMaster env).table.maindb = st.maindb) ∧
      ((commit st now t isMaster env).result = .ok () →
        (commit st now t isMaster env).table.maindb = st.maindb.write (dataBatch t.item)) := by
  obtain ⟨st₁, hsame, htable, hres, hwritten⟩ := commit_body st now t isMaster env
  rw [hres, hwritten, htable.maindb, ← hsame.maindb]
  have hbody := commitBody_cases st₁ now t isMaster env
  generalize commitBody st₁ now t isMaster env = out at hbody
  cases hbody with
  | empty hitem =>
    rw [hitem]
    exact ⟨nofun, fun _ => rfl, fun _ => rfl⟩
  | noLog _ _ => exact ⟨nofun, fun _ => rfl, nofun⟩
  | noData _ _ _ => exact ⟨nofun, fun _ => rfl, nofun⟩
  | done _ _ _ hdone =>
    rw [commitTail_written, (commitTail_same _ _ _ _).maindb, hdone]
    exact ⟨fun _ => rfl, nofun, fun _ => rfl⟩

/-- Where a node looks for its master is no business of a commit. -/
theorem commitBody_master (st : SharedTable) (now : Nat) (t : TransactionT) (isMaster : Bool)
    (env : CommitEnv) : (commitBody st now t isMaster env).table.master = st.master := by
  have hbody := commitBody_cases st now t isMaster env
  generalize commitBody st now t isMaster env = out at hbody
  cases hbody with
  | empty _ => rfl
  | noLog _ _ => rfl
  | noData _ _ _ => rfl
  | done _ _ _ hwritten =>
    subst hwritten
    rw [commitTail]
    split
    · cases env.pushOk <;> rfl
    · rfl

theorem commit_master (st : SharedTable) (now : Nat) (t : TransactionT) (isMaster : Bool)
    (env : CommitEnv) : (commit st now t isMaster env).table.master = st.master := by
  have hlock : (TempNameCache.multiTypeLock st {} lockSlaveUpdates).2.1.master = st.master := by
    rw [TempNameCache.multiTypeLock, TempNameCache.acquire]
    split <;> rfl
  rw [commit]
  split
  · exact commitBody_master st now t isMaster env
  · exact (commitBody_master _ now t isMaster env).trans hlock

/-! ## Reading -/

/-- The loop of `ReadLog` over the rows of the iterator; `counter` counts the entries added. -/
def readLogLoop : List (Key × LogV) → TransListT → Nat → TransListT × Nat
  | [], tlist, counter => (tlist, counter)
  | (key, value) :: rows, tlist, counter =>
    if key.keytype ≠ kLognode then (tlist, counter)
    else match value.parseTrans with
      | none => readLogLoop rows tlist counter
      | some record =>
        if record.id = tlist.lastid then readLogLoop rows tlist counter
        else if tlist.lastid + 1 ≠ record.id then (tlist, counter)
        else
          let tlist := { tlist with lastid := record.id, trans := tlist.trans ++ [record] }
          if counter + 1 > tlist.limit then (tlist, counter + 1)
          else readLogLoop rows tlist (counter + 1)

/-- `ReadLog`. -/
def readLog (st : SharedTable) (tlist : TransListT) (now : Nat) : Except Exc TransListT :=
  if tlist.lastid > st.logcounter then badData "Remote Log Counter ahead"
  else if tlist.lastid = st.logcounter then
    .ok { tlist with ts := now, currid := st.logcounter, limit := 0 }
  else
    let (tlist, counter) :=
      readLogLoop (st.logdb.seek (encodePrimaryKey kLognode tlist.lastid)) tlist 0
    let tlist := { tlist with currid := st.logcounter, ts := now }
    .ok (if counter = 0 then tlist else { tlist with limit := counter - 1 })

/-- `ReadOne`. -/
def readOne (st : SharedTable) (trans : TransactionT) : TransactionT :=
  match st.logdb.get (encodePrimaryKey kLognode trans.id) with
  | none => { trans with notfound := true }
  | some value => value.parseTrans.getD { trans with notfound := true }

/-! ## What a log database holds -/

/-- `db` holds, under the log node keys, the fence at `0` and exactly the entries `f`, each under
    its own id. -/
structure HoldsEntries (db : LogDb) (f : Nat → Option TransactionT) : Prop where
  fence : db.get (encodePrimaryKey kLognode 0) = some .blank
  entry : ∀ i, 0 < i → db.get (encodePrimaryKey kLognode i) = (f i).map LogV.trans
  numbered : ∀ i t, f i = some t → t.id = i
  only : ∀ k v, db.get k = some v → k.keytype = kLognode → ∃ i, k = encodePrimaryKey kLognode i

/-- The entries after `l`, in a row without a gap, at most `n` of them. -/
def contig (f : Nat → Option TransactionT) : Nat → Nat → List TransactionT
  | _, 0 => []
  | l, n + 1 =>
    match f (l + 1) with
    | none => []
    | some t => t :: contig f (l + 1) n

/-- Of a whole run, as many entries as the bound allows. -/
theorem contig_eq_take {f : Nat → Option TransactionT} {pos : Nat} {run : List TransactionT}
    (h : IsRun f pos run) (n : Nat) : contig f pos n = run.take n := by
  induction n generalizing pos run with
  | zero => rw [contig, List.take_zero]
  | succ n ih =>
    cases run with
    | nil =>
      rw [isRun_nil] at h
      rw [contig, h, List.take_nil]
    | cons t run =>
      rw [contig, h.1, List.take_succ_cons, ← ih h.2]

theorem logBatch_other {t : TransactionT} {k : Key} (h : k ≠ encodePrimaryKey kLognode t.id)
    (hk : k.keytype ≠ iLognodeTs) (db : LogDb) : (db.write (logBatch t)).get k = db.get k := by
  refine OrdMap.get_write_of_not_mem db ?_
  intro op hop
  simp only [logBatch, List.mem_cons, List.not_mem_nil, or_false] at hop
  rcases hop with rfl | rfl
  · exact fun e => h e.symm
  · exact fun e => hk (e ▸ rfl)

/-- An entry leaves the other entries alone. -/
theorem logBatch_entry_ne {t : TransactionT} {i : Nat} (hi : i ≠ t.id) (db : LogDb) :
    (db.write (logBatch t)).get (encodePrimaryKey kLognode i) =
      db.get (encodePrimaryKey kLognode i) := by
  have hne : encodePrimaryKey kLognode i ≠ encodePrimaryKey kLognode t.id := by
    intro he
    exact hi (by simpa [encodePrimaryKey] using he)
  have hkt : (encodePrimaryKey kLognode i).keytype ≠ iLognodeTs := by
    show kLognode ≠ iLognodeTs
    decide
  exact logBatch_other hne hkt db

theorem logBatch_self (t : TransactionT) (db : LogDb) :
    (db.write (logBatch t)).get (encodePrimaryKey kLognode t.id) = some (.trans t) := by
  have hne : encodePrimaryKey kLognode t.id ≠ encodeSecondaryKeyTs iLognodeTs t.ts t.id := by
    simp [encodePrimaryKey, encodeSecondaryKeyTs]
  simp [logBatch, OrdMap.apply, OrdMap.get_put_ne _ hne]

/-- Writing an entry under a positive id adds it to what the log holds. -/
theorem HoldsEntries.write {db : LogDb} {f : Nat → Option TransactionT} (h : HoldsEntries db f)
    (t : TransactionT) (hid : 0 < t.id) :
    HoldsEntries (db.write (logBatch t)) (Function.update f t.id (some t)) := by
  refine ⟨?_, ?_, ?_, ?_⟩
  · rw [logBatch_entry_ne (by omega), h.fence]
  · intro i hi
    by_cases he : i = t.id
    · rw [he, logBatch_self, Function.update_self]
      rfl
    · rw [logBatch_entry_ne he, h.entry i hi, Function.update_of_ne he]
  · intro i u hu
    by_cases he : i = t.id
    · rw [he, Function.update_self] at hu
      rw [← Option.some.inj hu, he]
    · rw [Function.update_of_ne he] at hu
      exact h.numbered i u hu
  · intro k v hk hkt'
    by_cases he : k = encodePrimaryKey kLognode t.id
    · exact ⟨t.id, he⟩
    · rw [logBatch_other he (by rw [hkt']; simp [kLognode, iLognodeTs])] at hk
      exact h.only k v hk hkt'

theorem readOne_holds {st : SharedTable} {f : Nat → Option TransactionT}
    (h : HoldsEntries st.logdb f) (trans : TransactionT) (hid : 0 < trans.id) :
    readOne st trans = (f trans.id).getD { trans with notfound := true } := by
  rw [readOne, h.entry _ hid]
  cases f trans.id <;> rfl

/-- The fence of the log reads as an entry without a timestamp. -/
theorem readOne_fence {st : SharedTable} {f : Nat → Option TransactionT}
    (h : HoldsEntries st.logdb f) (trans : TransactionT) (hid : trans.id = 0) :
    readOne st trans = {} := by
  rw [readOne, hid, h.fence]
  rfl

/-! ## `ReadLog` reads the entries in a row -/

/-- `rows` is what an iterator over `db` reads from the log node `lo` on. -/
structure RowsFrom (db : LogDb) (lo : Nat) (rows : List (Key × LogV)) : Prop where
  sorted : rows.Pairwise (fun a b => a.1 < b.1)
  mem : ∀ k v, (k, v) ∈ rows ↔ encodePrimaryKey kLognode lo ≤ k ∧ db.get k = some v

theorem rowsFrom_seek (db : LogDb) (lo : Nat) :
    RowsFrom db lo (db.seek (encodePrimaryKey kLognode lo)) :=
  ⟨db.seek_sorted _, fun _ _ => db.mem_seek⟩

/-- Past the node `i`, the iterator reads from the node `i + 1` on. -/
theorem RowsFrom.tail {db : LogDb} {f : Nat → Option TransactionT} (hf : HoldsEntries db f)
    {lo i : Nat} {v : LogV} {rows : List (Key × LogV)}
    (h : RowsFrom db lo ((encodePrimaryKey kLognode i, v) :: rows)) : RowsFrom db (i + 1) rows := by
  refine ⟨h.sorted.of_cons, fun k w => ⟨fun hm => ?_, fun hm => ?_⟩⟩
  · have hlt : encodePrimaryKey kLognode i < k := List.rel_of_pairwise_cons h.sorted hm
    have hget := ((h.mem k w).mp (List.mem_cons_of_mem _ hm)).2
    refine ⟨?_, hget⟩
    rcases (keytype_le_of_le hlt.le).lt_or_eq with hkt | hkt
    · have hkt' : (encodePrimaryKey kLognode (i + 1)).keytype < k.keytype := hkt
      exact (lt_of_keytype_lt hkt').le
    · obtain ⟨j, rfl⟩ := hf.only k w hget hkt.symm
      exact primary_le_primary.mpr (primary_lt_primary.mp hlt)
  · have hlt : encodePrimaryKey kLognode i < k :=
      lt_of_lt_of_le (primary_lt_primary.mpr (Nat.lt_succ_self i)) hm.1
    have hlo : encodePrimaryKey kLognode lo ≤ encodePrimaryKey kLognode i :=
      ((h.mem _ v).mp List.mem_cons_self).1
    have hmem := (h.mem k w).mpr ⟨hlo.trans hlt.le, hm.2⟩
    rcases List.mem_cons.mp hmem with he | hmem
    · exact absurd (congrArg Prod.fst he) (ne_of_gt hlt)
    · exact hmem

/-- If the first row read is past the node `n`, there is no entry `n`. -/
theorem RowsFrom.entry_none {db : LogDb} {f : Nat → Option TransactionT} (hf : HoldsEntries db f)
    {lo n : Nat} {rows : List (Key × LogV)} (h : RowsFrom db lo rows) (hn : 0 < n) (hlo : lo ≤ n)
    (hhd : ∀ r ∈ rows.head?, encodePrimaryKey kLognode n < r.1) : f n = none := by
  cases hfn : f n with
  | none => rfl
  | some t =>
    have hget : db.get (encodePrimaryKey kLognode n) = some (.trans t) := by
      rw [hf.entry n hn, hfn]
      rfl
    have hmem := (h.mem _ _).mpr ⟨primary_le_primary.mpr hlo, hget⟩
    cases rows with
    | nil => cases hmem
    | cons r rs =>
      have hr := hhd r rfl
      rcases List.mem_cons.mp hmem with he | he
      · rw [← he] at hr
        exact absurd hr (lt_irrefl _)
      · exact absurd (hr.trans (List.rel_of_pairwise_cons h.sorted he)) (lt_irrefl _)

/-- **The loop of `ReadLog`**: it appends the entries that follow `lastid` without a gap, up to one
    more than the limit. -/
theorem readLogLoop_spec {db : LogDb} {f : Nat → Option TransactionT} (hf : HoldsEntries db f)
    (rows : List (Key × LogV)) (tlist : TransListT) (counter lo : Nat) (h : RowsFrom db lo rows)
    (hlo : lo = tlist.lastid ∨ lo = tlist.lastid + 1) (hc : counter ≤ tlist.limit) :
    readLogLoop rows tlist counter =
      ({ tlist with
          lastid := tlist.lastid + (contig f tlist.lastid (tlist.limit + 1 - counter)).length
          trans := tlist.trans ++ contig f tlist.lastid (tlist.limit + 1 - counter) },
       counter + (contig f tlist.lastid (tlist.limit + 1 - counter)).length) := by
  obtain ⟨n, hn⟩ : ∃ n, tlist.limit + 1 - counter = n + 1 := ⟨tlist.limit - counter, by omega⟩
  -- stopping here is right when there is no next entry
  have hstop : f (tlist.lastid + 1) = none → (tlist, counter) =
      ({ tlist with
          lastid := tlist.lastid + (contig f tlist.lastid (tlist.limit + 1 - counter)).length
          trans := tlist.trans ++ contig f tlist.lastid (tlist.limit + 1 - counter) },
       counter + (contig f tlist.lastid (tlist.limit + 1 - counter)).length) := by
    intro hnone
    simp [hn, contig, hnone]
  induction rows generalizing tlist counter lo n with
  | nil =>
    rw [readLogLoop]
    exact hstop (h.entry_none hf (Nat.succ_pos _) (by omega) (by simp))
  | cons r rows ih =>
    obtain ⟨key, value⟩ := r
    obtain ⟨hge, hget⟩ := (h.mem key value).mp List.mem_cons_self
    rw [readLogLoop]
    by_cases hkt : key.keytype = kLognode
    · rw [if_neg (not_not.mpr hkt)]
      obtain ⟨i, rfl⟩ := hf.only key value hget hkt
      have hloi : lo ≤ i := primary_le_primary.mp hge
      have htail := h.tail hf
      -- the fence and the node at `lastid` itself are skipped
      have hskip : i = tlist.lastid → readLogLoop rows tlist counter = _ := fun hi =>
        ih tlist counter (i + 1) htail (Or.inr (by omega)) hc n hn hstop
      rcases Nat.eq_zero_or_pos i with hi0 | hipos
      · subst hi0
        rw [hf.fence] at hget
        cases hget
        have hl : tlist.lastid = 0 := by omega
        simp only [LogV.parseTrans]
        rw [if_pos hl.symm]
        exact hskip hl.symm
      · rw [hf.entry i hipos] at hget
        obtain ⟨t, hft, rfl⟩ := Option.map_eq_some_iff.mp hget
        have hid := hf.numbered i t hft
        simp only [LogV.parseTrans, hid]
        by_cases hil : i = tlist.lastid
        · rw [if_pos hil]
          exact hskip hil
        · rw [if_neg hil]
          by_cases hnext : tlist.lastid + 1 = i
          · rw [if_neg (not_not.mpr hnext)]
            have hfn : f (tlist.lastid + 1) = some t := by rw [hnext, hft]
            by_cases hlim : counter + 1 > tlist.limit
            · -- the entry that exceeds the limit is still sent, and is the last one
              have hn0 : n = 0 := by omega
              rw [if_pos hlim]
              simp [hn, hn0, contig, hnext, hft]
            · rw [if_neg hlim]
              obtain ⟨m, rfl⟩ : ∃ m, n = m + 1 := ⟨n - 1, by omega⟩
              have hm : tlist.limit + 1 - (counter + 1) = m + 1 := by omega
              have hrec := ih { tlist with lastid := i, trans := tlist.trans ++ [t] } (counter + 1)
                (i + 1) htail (Or.inr rfl) (by simpa using hlim) m hm (fun hnone => by
                  simp [hm, contig, hnone])
              rw [hrec]
              have hcg : contig f tlist.lastid (m + 1 + 1) = t :: contig f i (m + 1) := by
                rw [contig, hfn, hnext]
              simp only [hn, hm, hcg, List.length_cons, List.append_assoc, List.singleton_append]
              refine Prod.ext ?_ (by simp only; omega)
              simp only [TransListT.mk.injEq, and_true]
              omega
          · rw [if_pos hnext]
            refine hstop (h.entry_none hf (Nat.succ_pos _) (by omega) ?_)
            intro r hr
            cases hr
            exact primary_lt_primary.mpr (by omega)
    · rw [if_pos hkt]
      refine hstop (h.entry_none hf (Nat.succ_pos _) (by omega) ?_)
      intro r hr
      cases hr
      have hlt : kLognode < key.keytype :=
        lt_of_le_of_ne (keytype_le_of_le hge) (Ne.symm hkt)
      exact lt_of_keytype_lt hlt

/-- **`ReadLog`** answers with the entries after the asked id, in a row, at most one more than the
    asked limit, and reports its own log counter. -/
theorem readLog_spec {st : SharedTable} {f : Nat → Option TransactionT}
    (hf : HoldsEntries st.logdb f) (tlist : TransListT) (now : Nat) {out : TransListT}
    (hout : readLog st tlist now = .ok out) (hblank : tlist.trans = []) :
    tlist.lastid ≤ st.logcounter ∧ out.currid = st.logcounter ∧
      (tlist.lastid = st.logcounter → out.trans = []) ∧
      (tlist.lastid ≠ st.logcounter → out.trans = contig f tlist.lastid (tlist.limit + 1)) ∧
      out.lastid = tlist.lastid + out.trans.length := by
  rw [readLog] at hout
  by_cases hgt : tlist.lastid > st.logcounter
  · rw [if_pos hgt] at hout
    cases hout
  · rw [if_neg hgt] at hout
    by_cases heq : tlist.lastid = st.logcounter
    · rw [if_pos heq] at hout
      cases hout
      exact ⟨by omega, rfl, fun _ => hblank, fun h => absurd heq h, by simp [hblank]⟩
    · rw [if_neg heq] at hout
      have hloop := readLogLoop_spec hf _ tlist 0 tlist.lastid
        (rowsFrom_seek st.logdb tlist.lastid) (Or.inl rfl) (Nat.zero_le _)
      simp only [hloop, hblank, List.nil_append, Nat.sub_zero, Nat.zero_add] at hout
      refine ⟨by omega, ?_, fun h => absurd h heq, fun _ => ?_, ?_⟩
      all_goals
        split at hout
        all_goals
          cases hout
          rfl

end Zapdos.Store
