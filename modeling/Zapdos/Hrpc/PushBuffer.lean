/-
  What a slave does with pushed transactions.

  A master pushes each transaction to its last slave, which keeps it in a buffer (`R_BUFFTRANS`).  The
  next round of `SyncFromMaster` takes the buffer, commits what continues its log, and then asks the
  master for more.

  THE CRUX.  The loop over the buffer it took is right: with as many turns as the buffer has rows it
  commits the whole run of ids after the log counter (`contig_isRun`), unless a commit throws.  But
  `SharedMap::Swap` gets its argument by value, so the map that the round looks into stays empty, and
  the content of the buffer is dropped.  A pushed transaction is never committed from the buffer: a
  round does what it should exactly when there is nothing to commit (`pushed_applied_iff`).
-/
import Zapdos.Hrpc.SyncServer

namespace Zapdos.Hrpc.PushBuffer

open Zapdos.Lib Zapdos.Store

/-- `Commit` as slave, of one transaction after the other, up to the first that throws. -/
def commitAll : (Nat → CommitEnv) → SharedTable → List TransactionT → SharedTable × Except Exc Unit
  | _, st, [] => (st, .ok ())
  | env, st, t :: ts =>
    let out := commit st 0 t false (env 0)
    match out.result with
    | .error e => (out.table, .error e)
    | .ok () => commitAll (fun n => env (n + 1)) out.table ts

/-- The transactions the first part of a round commits, in their order. -/
def drained (st : SharedTable) : List TransactionT :=
  if st.transactions.rows.length > 0 then
    let tmap := (sharedMapSwap st.transactions OrdMap.empty).2
    contig tmap.get st.logcounter tmap.rows.length
  else []

/-- The second part of a round: ask the master, and apply what it answers. -/
def askMaster (st : SharedTable) (env : Nat → CommitEnv) (now : Nat)
    (send : TransListT → Option TransListT) : SharedTable × Except Exc Unit :=
  match send (pullRequest st syncmasterChunkSize now) with
  | some data => applyPull env st data.trans
  | none => (st, .ok ())

/-- The second part of a round, if the first part has not thrown. -/
def thenAsk (first : SharedTable × Except Exc Unit) (env : Nat → CommitEnv) (now : Nat)
    (send : TransListT → Option TransListT) : SharedTable × Except Exc Unit :=
  match first with
  | (st, .ok ()) => askMaster st env now send
  | (st, .error e) => (st, .error e)

/-- One round of the loop of `SyncFromMaster`; `send` is the call to the master, `env` and `env'` are
    what the outside answers to the commits of its two parts. -/
def syncRound (st : SharedTable) (env env' : Nat → CommitEnv) (now : Nat)
    (send : TransListT → Option TransListT) : SharedTable × Except Exc Unit :=
  thenAsk (drainTransactions st env) env' now send

/-- The round commits the transactions of `run`, one after the other, and then asks the master. -/
def CommitsFirst (st : SharedTable) (run : List TransactionT) : Prop :=
  drained st = run ∧
    ∀ env env' now send, syncRound st env env' now send =
      thenAsk (commitAll env { st with transactions := OrdMap.empty } run) env' now send

/-! ## The loop -/

/-- The loop commits what `contig` reads from the map, in order. -/
theorem drainLoop_eq (tmap : OrdMap Nat TransactionT) (env : Nat → CommitEnv) (n : Nat)
    (st : SharedTable) (logc : Nat) :
    drainLoop tmap env n st logc = commitAll env st (contig tmap.get logc n) := by
  induction n generalizing env st logc with
  | zero => rfl
  | succ n ih =>
    rw [drainLoop, contig]
    cases tmap.get (logc + 1) with
    | none => rfl
    | some t =>
      simp only [commitAll]
      cases (commit st 0 t false (env 0)).result with
      | error e => rfl
      | ok => exact ih _ _ (logc + 1)

theorem mem_keys {tmap : OrdMap Nat TransactionT} {i : Nat} (hi : (tmap.get i).isSome = true) :
    i ∈ tmap.rows.map Prod.fst := by
  obtain ⟨t, ht⟩ := Option.isSome_iff_exists.mp hi
  exact List.mem_map.mpr ⟨(i, t), (tmap.get_eq_some_iff).mp ht, rfl⟩

/-- **A map read with as many turns as it has rows** gives the whole run. -/
theorem contig_isRun (tmap : OrdMap Nat TransactionT) (pos : Nat) :
    IsRun tmap.get pos (contig tmap.get pos tmap.rows.length) := by
  obtain ⟨run, hrun⟩ := exists_isRun_of_mem (fun _ => mem_keys) pos
  have hle : run.length ≤ (tmap.rows.map Prod.fst).length := hrun.length_le fun _ => mem_keys
  rw [List.length_map] at hle
  rw [contig_eq_take hrun, List.take_of_length_le hle]
  exact hrun

/-- **The loop over the buffer**, whatever the outside answers: it commits the whole run of ids after
    the log counter, in order, up to the first `Commit` that throws. -/
theorem drainLoop_run (st : SharedTable) (tmap : OrdMap Nat TransactionT) :
    ∃ run, IsRun tmap.get st.logcounter run ∧ ∀ env : Nat → CommitEnv,
      drainLoop tmap env tmap.rows.length st st.logcounter = commitAll env st run :=
  ⟨_, contig_isRun tmap st.logcounter, fun env => drainLoop_eq tmap env _ st _⟩

/-! ## The swap -/

/-- Nothing of the buffer is committed. -/
theorem drained_eq_nil (st : SharedTable) : drained st = [] := by
  rw [drained]
  split <;> rfl

/-- The transactions that `drained` lists are those the round commits. -/
theorem syncRound_eq (st : SharedTable) (env env' : Nat → CommitEnv) (now : Nat)
    (send : TransListT → Option TransListT) :
    syncRound st env env' now send =
      thenAsk (commitAll env { st with transactions := OrdMap.empty } (drained st)) env' now
        send := by
  rw [syncRound, drainTransactions_eq, drained_eq_nil]
  rfl

/-- **Pushed transactions are applied exactly when there is none to apply**: a round commits the run
    of ids after the log counter before it asks the master if and only if the buffer has no
    transaction under the next id. -/
theorem pushed_applied_iff (st : SharedTable) :
    (∃ run, IsRun st.transactions.get st.logcounter run ∧ CommitsFirst st run) ↔
      st.transactions.get (st.logcounter + 1) = none := by
  constructor
  · rintro ⟨run, hrun, hdrained, -⟩
    rw [drained_eq_nil] at hdrained
    rw [← hdrained] at hrun
    exact hrun
  · intro hnone
    refine ⟨[], hnone, drained_eq_nil st, fun env env' now send => ?_⟩
    rw [syncRound_eq, drained_eq_nil]

/-- A new slave with the first transaction in its buffer. -/
def pushedSlave : SharedTable :=
  { transactions := OrdMap.empty.put 1 { id := 1, item := [{ key := encodePrimaryKey kUserdata 2 }] } }

/-- The first transaction is pushed to a new slave, and is not applied. -/
theorem push_dropped :
    ¬ ∀ st : SharedTable, st.isMaster = false → 0 < st.transactions.rows.length →
      ∃ run, IsRun st.transactions.get st.logcounter run ∧ CommitsFirst st run := by
  intro hall
  have hnone := (pushed_applied_iff pushedSlave).mp (hall pushedSlave rfl Nat.one_pos)
  rw [show pushedSlave.transactions.get (pushedSlave.logcounter + 1) = some _ from
    OrdMap.get_put_self _ _ _] at hnone
  cases hnone

end Zapdos.Hrpc.PushBuffer
