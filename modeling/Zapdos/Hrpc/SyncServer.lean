/-
  The sync thread of a slave and the endpoints it talks to — `SyncFirst`, `SyncFromMaster`,
  `CompareLog`, and the `R_TRANSLOG`, `R_READONE` and `R_BUFFTRANS` handlers.

  The loops of `SyncFirst` and `SyncFromMaster` are cut at the calls that leave the node: applying
  what a pull brought (`applyPull`), applying what the master pushed (`drainTransactions`), asking
  (`pullRequest`).  The calls themselves are the handlers of the other node.  An exception of a
  `Commit` leaves these loops; what the outside answers to the commits of a loop is a function of
  their number.

  `SharedMap::Swap` takes its argument by value: the shared map is exchanged with a copy that is
  dropped, and the map the caller passed stays as it was (`sharedMapSwap`).
-/
import Zapdos.Lib.Replay
import Zapdos.Store.StoreTrans

namespace Zapdos.Hrpc

open Zapdos.Lib Zapdos.Store

/-- `SYNCMASTER_CHUNK_SIZE`. -/
def syncmasterChunkSize : Nat := 5

/-! ## Applying transactions on a slave -/

/-- The transactions of a pull are committed while they continue the log. -/
def applyPull : (Nat → CommitEnv) → SharedTable → List TransactionT → SharedTable × Except Exc Unit
  | _, st, [] => (st, .ok ())
  | env, st, t :: ts =>
    if t.id ≠ st.logcounter + 1 then (st, .ok ())
    else
      let out := commit st 0 t false (env 0)
      match out.result with
      | .error e => (out.table, .error e)
      | .ok () => applyPull (fun n => env (n + 1)) out.table ts

/-- `SharedMap::Swap(MapT t)`: the shared map takes the value of `t`; the caller's map is the
    second component, unchanged. -/
def sharedMapSwap {V : Type} (shared t : OrdMap Nat V) : OrdMap Nat V × OrdMap Nat V :=
  let _ := shared
  (t, t)

/-- The loop over the swapped-out map: look up the next id, commit, at most `tmap.size()` times. -/
def drainLoop (tmap : OrdMap Nat TransactionT) :
    (Nat → CommitEnv) → Nat → SharedTable → Nat → SharedTable × Except Exc Unit
  | _, 0, st, _ => (st, .ok ())
  | env, n + 1, st, logc =>
    match tmap.get (logc + 1) with
    | none => (st, .ok ())
    | some t =>
      let out := commit st 0 t false (env 0)
      match out.result with
      | .error e => (out.table, .error e)
      | .ok () => drainLoop tmap (fun n => env (n + 1)) n out.table (logc + 1)

/-- The first part of a round of `SyncFromMaster`: what the master has pushed. -/
def drainTransactions (st : SharedTable) (env : Nat → CommitEnv) : SharedTable × Except Exc Unit :=
  if st.transactions.rows.length > 0 then
    let (shared, tmap) := sharedMapSwap st.transactions OrdMap.empty
    let st := { st with transactions := shared }
    drainLoop tmap env tmap.rows.length st st.logcounter
  else (st, .ok ())

/-- The request of a pull. -/
def pullRequest (st : SharedTable) (limit now : Nat) : TransListT :=
  { lastid := st.logcounter, limit := limit, ts := now, endpoint := st.thisurl }

/-! ## Handlers -/

/-- `R_TRANSLOG`. -/
def translogHandler (st : SharedTable) (data : TransListT) (now : Nat) :
    Except Exc (TransListT × SharedTable) :=
  if data.lastid > st.logcounter then badData "Remote Log Counter ahead"
  else if data.lastid = st.logcounter then
    let st' := if st.lastslave = [] then { st with lastslave := data.endpoint } else st
    .ok ({ data with ts := now, currid := st.logcounter, limit := 0 }, st')
  else do
    let data ← readLog st data now
    pure (data, st)

/-- `R_READONE`. -/
def readoneHandler (st : SharedTable) (data : TransactionT) : TransactionT := readOne st data

/-- `R_BUFFTRANS`. -/
def bufftransHandler (st : SharedTable) (data : TransactionT) : Except Exc SharedTable :=
  if st.isMaster then badData "Data addition is slave only"
  else .ok { st with transactions := st.transactions.put data.id data }

/-! ## `CompareLog` -/

/-- `CompareLog(address)`, with the `R_READONE` call answered by `remote`. -/
def compareLog (st remote : SharedTable) : Except Exc Bool :=
  let oldLogc := st.logcounter
  if oldLogc = 0 then .ok true -- blank slave
  else
    let trans1 := readoneHandler remote { id := oldLogc - 1 }
    if trans1.notfound then initialExc "Master does not have last log, mismatch"
    else
      let trans2 := readOne st { id := oldLogc - 1 }
      if trans2.notfound then initialExc "This instance does not have last log, mismatch"
      else .ok (trans1.ts = trans2.ts)

/-! ## The log and the data of a node -/

/-- The entry a node's log has under `id`. -/
def entryAt (st : SharedTable) (id : Nat) : Option TransactionT :=
  if id = 0 then none else (st.logdb.get (encodePrimaryKey kLognode id)).bind LogV.parseTrans

/-- A node is in order: its log is `f`, gapless up to its log counter, and its data is the replay
    of the log over `base`. -/
structure InOrder (base : DataDb) (st : SharedTable) (f : NumLog TransactionT) : Prop where
  holds : HoldsEntries st.logdb f
  upTo : NumLog.UpTo f st.logcounter
  clean : ∀ i t, f i = some t → t.item ≠ [] ∧ t.notfound = false
  data : st.maindb = NumLog.replay applyItems f base st.logcounter

theorem entryAt_of_holds {st : SharedTable} {f : NumLog TransactionT}
    (h : HoldsEntries st.logdb f) (hz : f 0 = none) (id : Nat) : entryAt st id = f id := by
  rw [entryAt]
  by_cases hid : id = 0
  · rw [if_pos hid, hid, hz]
  · rw [if_neg hid, h.entry id (Nat.pos_of_ne_zero hid)]
    cases f id <;> rfl

/-! ## A slave that follows a log -/

/-- The slave is in order and its log agrees with `g` as far as it goes. -/
def Follows (base : DataDb) (st : SharedTable) (g : NumLog TransactionT) : Prop :=
  ∃ f, InOrder base st f ∧ NumLog.AgreeTo f g st.logcounter

/-- Entries as a master writes them: numbered, with items. -/
def Clean (g : NumLog TransactionT) : Prop :=
  ∀ i t, g i = some t → t.id = i ∧ t.item ≠ [] ∧ t.notfound = false

/-- Committing the entry `e` under the next id keeps a node in order. -/
theorem InOrder.committed {base : DataDb} {st st' : SharedTable} {f : NumLog TransactionT}
    {e : TransactionT} (h : InOrder base st f) (hc : Committed st st' e)
    (hid : e.id = st.logcounter + 1) (hitem : e.item ≠ []) (hnf : e.notfound = false) :
    InOrder base st' (Function.update f (st.logcounter + 1) (some e)) := by
  refine ⟨?_, ?_, ?_, ?_⟩
  · rw [hc.logdb, ← hid]
    exact h.holds.write e (by omega)
  · rw [hc.logcounter]
    exact h.upTo.update e
  · intro i t ht
    by_cases hi : i = st.logcounter + 1
    · rw [hi, Function.update_self] at ht
      rw [← Option.some.inj ht]
      exact ⟨hitem, hnf⟩
    · rw [Function.update_of_ne hi] at ht
      exact h.clean i t ht
  · rw [hc.logcounter, hc.maindb, NumLog.replay_update_succ, h.data]

/-- No write of a commit fails. -/
def WritesOk (env : Nat → CommitEnv) : Prop := ∀ n, (env n).logOk = true ∧ (env n).dataOk = true

/-- **One replicated commit.**  Committing the next entry of `g` on a slave that follows `g`, with or
    without an exception of `AddToCache`. -/
theorem Follows.commit {base : DataDb} {st : SharedTable} {g : NumLog TransactionT}
    (h : Follows base st g) (hg : Clean g) {t : TransactionT}
    (ht : g (st.logcounter + 1) = some t) (now : Nat) {env : CommitEnv} (hlog : env.logOk = true)
    (hdata : env.dataOk = true) :
    Follows base (commit st now t false env).table g ∧
      (commit st now t false env).table.logcounter = st.logcounter + 1 ∧
      (commit st now t false env).table.isMaster = st.isMaster ∧
      (commit st now t false env).table.transactions = st.transactions := by
  obtain ⟨f, hf, hagree⟩ := h
  obtain ⟨hid, hitem, hnf⟩ := hg _ _ ht
  obtain ⟨-, hc⟩ := commit_committed st now t false hitem hlog hdata
  -- a slave keeps the entry as it came: its id is the id it gets
  have he : stamp now t false (st.logcounter + 1) = t := by
    rw [← hid]
    rfl
  rw [he] at hc
  refine ⟨⟨_, hf.committed hc hid hitem hnf, ?_⟩, hc.logcounter, hc.isMaster, hc.transactions⟩
  rw [hc.logcounter]
  exact hagree.update_left ht

/-- What a pull brings is applied as far as it continues the log. -/
theorem applyPull_follows {base : DataDb} {g : NumLog TransactionT} (hg : Clean g)
    (ts : List TransactionT) {env : Nat → CommitEnv} (henv : WritesOk env) {st : SharedTable}
    (h : Follows base st g) (hts : ∀ t ∈ ts, g t.id = some t) :
    Follows base (applyPull env st ts).1 g ∧ (applyPull env st ts).1.isMaster = st.isMaster ∧
      (applyPull env st ts).1.transactions = st.transactions := by
  induction ts generalizing st env with
  | nil => exact ⟨h, rfl, rfl⟩
  | cons t ts ih =>
    rw [applyPull]
    by_cases hid : t.id = st.logcounter + 1
    · rw [if_neg (not_not.mpr hid)]
      have ht : g (st.logcounter + 1) = some t := hid ▸ hts t List.mem_cons_self
      obtain ⟨hf, _, hm, htr⟩ := h.commit hg ht 0 (henv 0).1 (henv 0).2
      dsimp only
      split
      · exact ⟨hf, hm, htr⟩
      · obtain ⟨h1, h2, h3⟩ :=
          ih (fun n => henv (n + 1)) hf (fun u hu => hts u (List.mem_cons_of_mem _ hu))
        exact ⟨h1, h2.trans hm, h3.trans htr⟩
    · rw [if_pos hid]
      exact ⟨h, rfl, rfl⟩

/-- The swapped-out map is empty: nothing is applied, and the buffer is dropped. -/
theorem drainTransactions_eq (st : SharedTable) (env : Nat → CommitEnv) :
    drainTransactions st env = ({ st with transactions := OrdMap.empty }, .ok ()) := by
  rw [drainTransactions]
  by_cases hn : st.transactions.rows.length > 0
  · rw [if_pos hn]
    rfl
  · rw [if_neg hn]
    have hrows : st.transactions.rows = [] := List.eq_nil_of_length_eq_zero (by omega)
    have hempty : st.transactions = OrdMap.empty := by
      refine OrdMap.ext fun k => ?_
      rw [OrdMap.get, hrows]
      rfl
    rw [← hempty]

theorem drainTransactions_follows {base : DataDb} {g : NumLog TransactionT}
    (env : Nat → CommitEnv) {st : SharedTable} (h : Follows base st g) :
    Follows base (drainTransactions st env).1 g := by
  rw [drainTransactions_eq]
  obtain ⟨f, hf, ha⟩ := h
  exact ⟨f, ⟨hf.holds, hf.upTo, hf.clean, hf.data⟩, ha⟩

/-- `CompareLog` accepts a slave that follows the log the remote node holds. -/
theorem compareLog_follows {base : DataDb} {st remote : SharedTable} {g : NumLog TransactionT}
    (h : Follows base st g) (hr : HoldsEntries remote.logdb g) : compareLog st remote = .ok true := by
  obtain ⟨f, hf, hagree⟩ := h
  rw [compareLog]
  by_cases h0 : st.logcounter = 0
  · rw [if_pos h0]
  · rw [if_neg h0]
    have hsame : readoneHandler remote { id := st.logcounter - 1 } =
        readOne st { id := st.logcounter - 1 } := by
      rw [readoneHandler]
      by_cases h1 : st.logcounter - 1 = 0
      · rw [readOne_fence hr _ h1, readOne_fence hf.holds _ h1]
      · rw [readOne_holds hr _ (Nat.pos_of_ne_zero h1),
          readOne_holds hf.holds _ (Nat.pos_of_ne_zero h1),
          hagree (st.logcounter - 1) (Nat.pos_of_ne_zero h1) (by omega)]
    have hfound : (readOne st { id := st.logcounter - 1 }).notfound = false := by
      by_cases h1 : st.logcounter - 1 = 0
      · rw [readOne_fence hf.holds _ h1]
      · rw [readOne_holds hf.holds _ (Nat.pos_of_ne_zero h1)]
        have hsome := (hf.upTo (st.logcounter - 1)).mpr ⟨Nat.pos_of_ne_zero h1, by omega⟩
        obtain ⟨t, ht⟩ := Option.isSome_iff_exists.mp hsome
        rw [ht]
        exact (hf.clean _ t ht).2
    simp only [hsame, hfound, Bool.false_eq_true, if_false, decide_true]

end Zapdos.Hrpc
