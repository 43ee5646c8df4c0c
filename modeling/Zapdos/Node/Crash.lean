/-
  Commits that fail or are cut short, and restarts.

  A node (master or slave) runs commits one after the other.  In each commit the write of the log or
  the write of the records may return a non-ok status, `AddToCache` may throw after both, or the process
  may stop after any of the commit's steps: taking the log id, writing the log, writing the records.  A
  stopped process starts again on what the two databases hold.

  THE CRUX.  The log id is taken before the log is written and is never given back, and the log is
  written before the records with nothing that would undo or redo one of them.  So a failed log write
  leaves a gap in the ids, and a commit that ends between the two writes leaves an entry that the
  records lack (`commit_not_atomic`); and a commit that throws at its end has been made all the same.
  `crash_run` proves for whole runs which commits keep log, counter and records together, and that they
  are the only ones that do.
-/
import Zapdos.Lib.Runs
import Zapdos.Store.StoreLevel
import Zapdos.Hrpc.SyncServer

namespace Zapdos.Node.Crash

open Zapdos.Lib Zapdos.Store Zapdos.Hrpc

/-- The points between two steps of a commit. -/
inductive CommitPoint
  /-- before `GetNext` of the log counter -/
  | start
  /-- the log id is taken -/
  | numbered
  /-- the log entry is written -/
  | logged
  /-- the records are written -/
  | written
  deriving DecidableEq, Repr

/-- The shared table at a point of a commit. -/
def commitUpTo (st : SharedTable) (now : Nat) (t : TransactionT) (isMaster : Bool) :
    CommitPoint → SharedTable
  | .start => st
  | .numbered => if t.item = [] then st else st.logcounterGetNext.2
  | .logged => (commitLog st now t isMaster true).1
  | .written =>
    (commitData (commitLog st now t isMaster true).1 (commitLog st now t isMaster true).2.1 true).1

/-- How a commit ends. -/
inductive Outcome
  /-- it comes to its end, or throws, by what the outside answers -/
  | runs (env : CommitEnv)
  /-- the process stops at this point and starts again -/
  | stops (point : CommitPoint) (noXapian isMaster : Bool) (master : Bytes)
  deriving DecidableEq, Repr

/-- What a node does, one commit or one restart at a time. -/
inductive Label
  | commit (t : TransactionT) (now : Nat) (isMaster : Bool) (outcome : Outcome)
  | restart (noXapian isMaster : Bool) (master : Bytes)
  /-- the command `noxapian` -/
  | noxapian

/-- Start again on the databases of `st`. -/
def restart (st : SharedTable) (noXapian isMaster : Bool) (master : Bytes) : Option SharedTable :=
  match workServerInit { st with noXapian := noXapian } isMaster master with
  | .ok st' => some st'
  | .error _ => none

/-- One step.  The rows of a transaction are rows of tables: `AddRecord` makes no others. -/
def step (st : SharedTable) : Label → Option SharedTable
  | .commit t now isMaster outcome =>
    if TableRows t.item then
      match outcome with
      | .runs env => some (commit st now t isMaster env).table
      | .stops point noXapian role master =>
        restart (commitUpTo st now t isMaster point) noXapian role master
    else none
  | .restart noXapian isMaster master => restart st noXapian isMaster master
  | .noxapian => some { st with noXapian := true }

/-- `Commit` throws in this step. -/
def Throws (st : SharedTable) : Label → Prop
  | .commit t now isMaster (.runs env) => ∃ e, (commit st now t isMaster env).result = .error e
  | _ => False

/-- A node whose log ids are exactly `1 … logcounter` and whose data is the replay of its log. -/
def Consistent (base : DataDb) (st : SharedTable) : Prop :=
  NumLog.UpTo (entryAt st) st.logcounter ∧
    st.maindb = NumLog.replay applyItems (entryAt st) base st.logcounter

/-- Runs start on databases in order, with the log counter at the end of the log. -/
def machine (base : DataDb) : Machine SharedTable Label where
  init st := OnDisk base st.maindb st.logdb st.logcounter
  step := step

/-- The commits that keep log and records together, and do not throw all the same: both writes succeed
    and `AddToCache` takes the rows; or the process stops, but not between the two writes, unless the
    records already have the transaction's rows.  (A transaction without items writes nothing.) -/
def Atomic (st : SharedTable) : Label → Prop
  | .commit t _ _ outcome =>
    t.item = [] ∨
      match outcome with
      | .runs env => env.logOk = true ∧ env.dataOk = true ∧ CacheTakes st.noXapian env t.item
      | .stops point _ _ _ => point ≠ .logged ∨ applyItems st.maindb t = st.maindb
  | .restart _ _ _ => True
  | .noxapian => True

/-! ## One step -/

theorem consistent_of_onDisk {base : DataDb} {st : SharedTable}
    (h : OnDisk base st.maindb st.logdb st.logcounter) : Consistent base st := by
  obtain ⟨f, hf, hup, hdata⟩ := h.entries
  have he : entryAt st = f := funext (entryAt_of_holds hf hup.zero)
  rw [Consistent, he]
  exact ⟨hup, hdata⟩

theorem restart_spec {base : DataDb} {st : SharedTable} {n : Nat}
    (h : OnDisk base st.maindb st.logdb n) (noXapian isMaster : Bool) (master : Bytes) :
    ∃ st', restart st noXapian isMaster master = some st' ∧ st'.maindb = st.maindb ∧
      st'.logdb = st.logdb ∧ st'.logcounter = n := by
  obtain ⟨f, hf, hup, -⟩ := h.entries
  obtain ⟨st', hst', hm, hl, hn, -⟩ := workServerInit_spec
    (show Fenced ({ st with noXapian := noXapian } : SharedTable).maindb from h.main) h.log hf hup
    isMaster master
  exact ⟨st', by rw [restart, hst'], hm, hl, hn⟩

theorem restart_onDisk {base : DataDb} {st st' : SharedTable} {n : Nat}
    (h : OnDisk base st.maindb st.logdb n) {noXapian isMaster : Bool} {master : Bytes}
    (hr : restart st noXapian isMaster master = some st') :
    OnDisk base st'.maindb st'.logdb st'.logcounter := by
  obtain ⟨st'', hst'', hm, hl, hn⟩ := restart_spec h noXapian isMaster master
  rw [hr] at hst''
  cases hst''
  rw [hm, hl, hn]
  exact h

/-- A transaction without items leaves the databases as they are at every point. -/
theorem commitUpTo_empty (st : SharedTable) (now : Nat) {t : TransactionT} (isMaster : Bool)
    (hitem : t.item = []) (point : CommitPoint) : commitUpTo st now t isMaster point = st := by
  cases point with
  | start => rfl
  | numbered => rw [commitUpTo, if_pos hitem]
  | logged => rw [commitUpTo, commitLog, if_pos hitem]
  | written =>
    rw [commitUpTo, commitLog, if_pos hitem]
    simp only [commitData, if_pos hitem]

/-- The databases after the log write. -/
theorem commitUpTo_logged (st : SharedTable) (now : Nat) {t : TransactionT} (isMaster : Bool)
    (hitem : t.item ≠ []) :
    (commitUpTo st now t isMaster .logged).maindb = st.maindb ∧
      (commitUpTo st now t isMaster .logged).logdb =
        st.logdb.write (logBatch (stamp now t isMaster (st.logcounter + 1))) := by
  rw [commitUpTo, commitLog, if_neg hitem]
  exact ⟨rfl, rfl⟩

/-- The databases after both writes. -/
theorem commitUpTo_written (st : SharedTable) (now : Nat) {t : TransactionT} (isMaster : Bool)
    (hitem : t.item ≠ []) :
    (commitUpTo st now t isMaster .written).maindb = applyItems st.maindb t ∧
      (commitUpTo st now t isMaster .written).logdb =
        st.logdb.write (logBatch (stamp now t isMaster (st.logcounter + 1))) := by
  rw [commitUpTo, commitLog, if_neg hitem]
  simp only [commitData, stamp_item, if_neg hitem, SharedTable.logcounterGetNext, if_true]
  exact ⟨rfl, trivial⟩

theorem applyItems_stamp (db : DataDb) (now : Nat) (t : TransactionT) (isMaster : Bool) (id : Nat) :
    applyItems db (stamp now t isMaster id) = applyItems db t := by
  rw [applyItems, stamp_item, applyItems]

/-- A commit that runs. -/
theorem onDisk_runs {base : DataDb} {st : SharedTable} {t : TransactionT} {now : Nat} {isMaster : Bool}
    {env : CommitEnv} (h : OnDisk base st.maindb st.logdb st.logcounter) (hrows : TableRows t.item)
    (hok : t.item = [] ∨ env.logOk = true ∧ env.dataOk = true) :
    OnDisk base (commit st now t isMaster env).table.maindb
      (commit st now t isMaster env).table.logdb
      (commit st now t isMaster env).table.logcounter := by
  by_cases hitem : t.item = []
  · -- nothing is written
    obtain ⟨hsame, -⟩ := commit_empty st now t isMaster env hitem
    rwa [hsame.maindb, hsame.logdb, hsame.logcounter]
  · obtain ⟨hlog, hdata⟩ := hok.resolve_left hitem
    obtain ⟨-, hc⟩ := commit_committed st now t isMaster hitem hlog hdata
    rw [hc.maindb, hc.logdb, hc.logcounter]
    exact h.commit (e := stamp now t isMaster (st.logcounter + 1)) (by simp) (by simpa using hrows)

/-- A commit that the process does not survive. -/
theorem onDisk_stops {base : DataDb} {st st' : SharedTable} {t : TransactionT} {now : Nat}
    {isMaster : Bool} {point : CommitPoint} {noXapian role : Bool} {master : Bytes}
    (h : OnDisk base st.maindb st.logdb st.logcounter) (hrows : TableRows t.item)
    (hok : t.item = [] ∨ point ≠ .logged ∨ applyItems st.maindb t = st.maindb)
    (hs : restart (commitUpTo st now t isMaster point) noXapian role master = some st') :
    OnDisk base st'.maindb st'.logdb st'.logcounter := by
  by_cases hitem : t.item = []
  · rw [commitUpTo_empty st now isMaster hitem] at hs
    exact restart_onDisk h hs
  · have hnext := h.commit (e := stamp now t isMaster (st.logcounter + 1)) (by simp)
      (by simpa using hrows)
    rw [applyItems_stamp] at hnext
    cases point with
    | start => exact restart_onDisk h hs
    | numbered =>
      refine restart_onDisk (n := st.logcounter) ?_ hs
      rw [commitUpTo, if_neg hitem]
      exact h
    | logged =>
      obtain ⟨hm, hl⟩ := commitUpTo_logged st now isMaster hitem
      have hkeeps := (hok.resolve_left hitem).resolve_left (not_not.mpr rfl)
      refine restart_onDisk (n := st.logcounter + 1) ?_ hs
      rw [hm, hl]
      rwa [hkeeps] at hnext
    | written =>
      obtain ⟨hm, hl⟩ := commitUpTo_written st now isMaster hitem
      refine restart_onDisk (n := st.logcounter + 1) ?_ hs
      rwa [hm, hl]

/-- **The step lemma.**  A step that keeps log and records together keeps the node in order. -/
theorem onDisk_step {base : DataDb} {st st' : SharedTable} {l : Label}
    (h : OnDisk base st.maindb st.logdb st.logcounter) (hok : Atomic st l)
    (hs : step st l = some st') : OnDisk base st'.maindb st'.logdb st'.logcounter := by
  cases l with
  | restart noXapian isMaster master => exact restart_onDisk h hs
  | noxapian =>
    cases hs
    exact h
  | commit t now isMaster outcome =>
    simp only [step] at hs
    split at hs
    · rename_i hrows
      cases outcome with
      | runs env =>
        cases hs
        exact onDisk_runs h hrows (hok.imp_right fun henv => ⟨henv.1, henv.2.1⟩)
      | stops point noXapian role master => exact onDisk_stops h hrows hok hs
    · cases hs

/-! ## The other commits -/

/-- A commit that throws has taken a log id, and is not one of those that keep all together. -/
theorem throws_spec {st : SharedTable} {t : TransactionT} {now : Nat} {isMaster : Bool}
    {env : CommitEnv} :
    (∃ e, (commit st now t isMaster env).result = .error e) ↔
      t.item ≠ [] ∧
        ¬ (env.logOk = true ∧ env.dataOk = true ∧ CacheTakes st.noXapian env t.item) := by
  by_cases hitem : t.item = []
  · refine iff_of_false ?_ fun h => h.1 hitem
    rintro ⟨e, he⟩
    rw [(commit_empty st now t isMaster env hitem).2] at he
    cases he
  rw [and_iff_right hitem]
  obtain ⟨st₁, hsame, -, hres, -⟩ := commit_body st now t isMaster env
  rw [hres]
  have hbody := commitBody_cases st₁ now t isMaster env
  generalize commitBody st₁ now t isMaster env = out at hbody
  cases hbody with
  | empty hempty => exact absurd hempty hitem
  | noLog _ hlog => exact iff_of_true ⟨_, rfl⟩ fun h => by simp [hlog] at h
  | noData _ _ hdata => exact iff_of_true ⟨_, rfl⟩ fun h => by simp [hdata] at h
  | done _ hlog hdata hwritten =>
    rw [commitTail_result, stamp_item, hwritten]
    dsimp only
    rw [hsame.noXapian]
    split
    · rename_i htakes
      exact iff_of_false (fun ⟨_, he⟩ => by cases he) (not_not.mpr ⟨hlog, hdata, htakes⟩)
    · rename_i hno
      exact iff_of_true ⟨_, rfl⟩ fun h => hno h.2.2

/-- A commit with items takes a log id, whether it throws or not. -/
theorem commit_logcounter (st : SharedTable) (now : Nat) {t : TransactionT} (isMaster : Bool)
    (env : CommitEnv) (hitem : t.item ≠ []) :
    (commit st now t isMaster env).table.logcounter = st.logcounter + 1 := by
  obtain ⟨st₁, hsame, htable, -⟩ := commit_body st now t isMaster env
  rw [htable.logcounter, ← hsame.logcounter]
  have hbody := commitBody_cases st₁ now t isMaster env
  generalize commitBody st₁ now t isMaster env = out at hbody
  cases hbody with
  | empty hempty => exact absurd hempty hitem
  | noLog _ _ => rfl
  | noData _ _ _ => rfl
  | done _ _ _ hwritten =>
    rw [(commitTail_same _ _ _ _).logcounter, hwritten]

/-- A node that starts again with an entry whose rows its records lack is not consistent. -/
theorem applied_of_consistent {base : DataDb} {st st' : SharedTable} {t : TransactionT} {now : Nat}
    {isMaster noXapian role : Bool} {master : Bytes}
    (h : OnDisk base st.maindb st.logdb st.logcounter) (hitem : t.item ≠ [])
    (hs : restart (commitUpTo st now t isMaster .logged) noXapian role master = some st')
    (hc : Consistent base st') : applyItems st.maindb t = st.maindb := by
  obtain ⟨f, hf, hup, hdata⟩ := h.entries
  obtain ⟨hm, hl⟩ := commitUpTo_logged st now isMaster hitem
  set e := stamp now t isMaster (st.logcounter + 1) with he
  have hid : e.id = st.logcounter + 1 := by rw [he, stamp_id]
  have hf' : HoldsEntries (commitUpTo st now t isMaster .logged).logdb
      (Function.update f (st.logcounter + 1) (some e)) := by
    have hwrite := hf.write e (by omega)
    rw [hl]
    rwa [hid] at hwrite
  have hlog : Fenced (commitUpTo st now t isMaster .logged).logdb := by
    rw [hl]
    exact h.log.logBatch _ (by rw [stamp_id]; omega)
  have hmain : Fenced (commitUpTo st now t isMaster .logged).maindb := by
    rw [hm]
    exact h.main
  obtain ⟨st'', hst'', hm'', hl'', hn'', -⟩ := workServerInit_spec
    (show Fenced ({ commitUpTo st now t isMaster .logged with noXapian := noXapian } :
      SharedTable).maindb from hmain) hlog hf' (hup.update e) role master
  rw [restart, hst''] at hs
  cases hs
  have hent : entryAt st' = Function.update f (st.logcounter + 1) (some e) := by
    refine funext (entryAt_of_holds ?_ (hup.update e).zero)
    rw [hl'']
    exact hf'
  have hrep := hc.2
  rw [hent, hn'', NumLog.replay_update_succ, ← hdata, hm'', he, applyItems_stamp] at hrep
  exact hrep.symm.trans hm

/-- **Exactly these steps.**  From a node in order, a step leaves a consistent node, and one as before
    if it threw, exactly if it keeps log and records together. -/
theorem step_iff {base : DataDb} {st st' : SharedTable} {l : Label}
    (h : OnDisk base st.maindb st.logdb st.logcounter) (hs : step st l = some st') :
    (Consistent base st' ∧ (Throws st l →
        st'.logcounter = st.logcounter ∧ st'.logdb = st.logdb ∧ st'.maindb = st.maindb)) ↔
      Atomic st l := by
  constructor
  · rintro ⟨hc, hthrow⟩
    cases l with
    | restart noXapian isMaster master => trivial
    | noxapian => trivial
    | commit t now isMaster outcome =>
      refine or_iff_not_imp_left.mpr fun hitem => ?_
      simp only [step] at hs
      split at hs
      · cases outcome with
        | runs env =>
          cases hs
          by_contra hno
          -- it throws, with the id taken
          obtain ⟨hcount, -⟩ := hthrow (throws_spec.mpr ⟨hitem, hno⟩)
          rw [commit_logcounter st now isMaster env hitem] at hcount
          omega
        | stops point noXapian role master =>
          by_cases hpoint : point = .logged
          · subst hpoint
            exact Or.inr (applied_of_consistent h hitem hs hc)
          · exact Or.inl hpoint
      · cases hs
  · intro hok
    refine ⟨consistent_of_onDisk (onDisk_step h hok hs), fun hthrow => ?_⟩
    cases l with
    | restart noXapian isMaster master => exact hthrow.elim
    | noxapian => exact hthrow.elim
    | commit t now isMaster outcome =>
      cases outcome with
      | runs env =>
        obtain ⟨hitem, hno⟩ := throws_spec.mp hthrow
        exact absurd (hok.resolve_left hitem) hno
      | stops point noXapian role master => exact hthrow.elim

/-! ## Runs -/

theorem onDisk_reach {base : DataDb} {st : SharedTable} (h : (machine base).ReachWhere Atomic st) :
    OnDisk base st.maindb st.logdb st.logcounter :=
  h.invariant (fun _ h => h) (fun _ _ _ hi hok hs => onDisk_step hi hok hs)

/-- **Commits are atomic and crash safe** in every run whose commits all keep log and records
    together: in every state reached the log ids are exactly `1 … logcounter` and the data is the
    replay of the log.  And of whatever a node does next, exactly these commits leave it so, and as it
    was when they throw. -/
theorem crash_run (base : DataDb) {st : SharedTable} (h : (machine base).ReachWhere Atomic st) :
    Consistent base st ∧
      ∀ l st', step st l = some st' →
        ((Consistent base st' ∧ (Throws st l →
            st'.logcounter = st.logcounter ∧ st'.logdb = st.logdb ∧ st'.maindb = st.maindb)) ↔
          Atomic st l) :=
  ⟨consistent_of_onDisk (onDisk_reach h), fun _ _ hs => step_iff (onDisk_reach h) hs⟩

/-- A node that has just been set up. -/
def freshNode : SharedTable := { isMaster := true, maindb := freshDb, logdb := freshLog }

/-- A transaction with one row. -/
def oneRow : TransactionT :=
  { item := [{ key := encodePrimaryKey kUserdata 2, value := .user { id := 2, name := str "bob" } }] }

/-- A commit that does not stop the process ends in the table `Commit` leaves. -/
theorem step_commit {st : SharedTable} {t : TransactionT} (hrows : TableRows t.item) (now : Nat)
    (isMaster : Bool) (env : CommitEnv) :
    step st (.commit t now isMaster (.runs env)) = some (commit st now t isMaster env).table := by
  simp only [step, if_pos hrows]

/-- A commit whose log write fails leaves a log counter without its entry. -/
theorem commit_not_atomic :
    ¬ ∀ st, (machine freshDb).Reach st → Consistent freshDb st := by
  intro hall
  have hs : (machine freshDb).step freshNode (.commit oneRow 7 true (.runs { logOk := false })) =
      some (commit freshNode 7 oneRow true { logOk := false }).table :=
    step_commit (t := oneRow) (by decide) 7 true { logOk := false }
  have hr : (machine freshDb).Reach (commit freshNode 7 oneRow true { logOk := false }).table :=
    .step (.init (s := freshNode) onDisk_fresh) trivial hs
  have hsome := ((hall _ hr).1 1).mpr ⟨Nat.one_pos, le_rfl⟩
  have hnone : entryAt (commit freshNode 7 oneRow true { logOk := false }).table 1 = none := by
    rw [entryAt, if_neg Nat.one_ne_zero]
    show (freshLog.get (encodePrimaryKey kLognode 1)).bind LogV.parseTrans = none
    rw [get_freshLog]
    rfl
  rw [hnone] at hsome
  cases hsome

/-- An item at the latitude 91. -/
def beyondRow : TransactionT where
  item := [{ key := encodePrimaryKey kLocaldata 3
             value := .item { id := 3, uniqueId := str "beyond", lat := 91 } }]

/-- A commit that succeeds on a new node, and one that throws with both databases written: the node is
    consistent, but not as it was. -/
theorem crash_run_one :
    ∃ st st', (machine freshDb).exec freshNode [.commit oneRow 7 true (.runs {})] = some st ∧
      st.logcounter = 1 ∧ Consistent freshDb st ∧
      step st (.commit beyondRow 8 true (.runs {})) = some st' ∧
      Throws st (.commit beyondRow 8 true (.runs {})) ∧ st'.logcounter = 2 ∧
      ¬ (Consistent freshDb st' ∧ (Throws st (.commit beyondRow 8 true (.runs {})) →
        st'.logcounter = st.logcounter ∧ st'.logdb = st.logdb ∧ st'.maindb = st.maindb)) := by
  have hs : (machine freshDb).step freshNode (.commit oneRow 7 true (.runs {})) =
      some (commit freshNode 7 oneRow true {}).table :=
    step_commit (t := oneRow) (by decide) 7 true {}
  have hok : Atomic freshNode (.commit oneRow 7 true (.runs {})) :=
    Or.inr ⟨rfl, rfl, by decide⟩
  have hs' : step (commit freshNode 7 oneRow true {}).table (.commit beyondRow 8 true (.runs {})) =
      some (commit (commit freshNode 7 oneRow true {}).table 8 beyondRow true {}).table :=
    step_commit (t := beyondRow) (by decide) 8 true {}
  have hno : ¬ CacheTakes (commit freshNode 7 oneRow true {}).table.noXapian {} beyondRow.item := by
    decide
  obtain ⟨hc, hiff⟩ := crash_run freshDb (.step (.init (s := freshNode) onDisk_fresh) hok hs)
  refine ⟨_, _, ?_, rfl, hc, hs', throws_spec.mpr ⟨by decide, fun h => hno h.2.2⟩, rfl, ?_⟩
  · rw [Machine.exec, hs]
    rfl
  · rw [hiff _ _ hs']
    rintro (hempty | ⟨-, -, htakes⟩)
    · cases hempty
    · exact hno htakes

end Zapdos.Node.Crash
