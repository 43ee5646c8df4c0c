/-
  The list of remotes — `RemoteKeeper`: `SetHosts`, `AddHost`, `GetHosts`, `MasterUpdate`.

  Every node keeps a table of the others: url, log counter, and the time at which it last heard of
  them.  When the master is gone a slave elects a new one from its own table: the greatest log
  counter wins, ties go to the greatest url, and entries older than a cutoff do not count.

  The table is an unordered map; the model goes through its rows in the order of their urls, and
  `Hrpc.Election` shows that the order does not matter.
-/
import Zapdos.Store.SharedTable

namespace Zapdos.Hrpc

open Zapdos.Lib Zapdos.Store

/-- `RemoteT`. -/
structure RemoteT where
  address : Bytes := []
  logcounter : Nat := 0
  updatedAt : Nat := 0
  deriving DecidableEq, Repr

/-- `StateT`, without the host name, which nothing reads. -/
structure StateT where
  master : Bytes := []
  logcounter : Nat := 0
  isMaster : Bool := false
  ts : Nat := 0
  thisurl : Bytes := []
  remotes : List RemoteT := []
  deriving DecidableEq, Repr

/-- `ELECTION_MAX_RETRIES`. -/
def electionMaxRetries : Nat := 10

/-! ## The table -/

/-- `AddHost`. -/
def addHost (st : SharedTable) (r : RemoteT) : SharedTable :=
  { st with remotes := st.remotes.put r.address (r.logcounter, r.updatedAt) }

/-- `SetHosts`: all remotes of a master, or the sender itself. -/
def setHosts (st : SharedTable) (state : StateT) : SharedTable :=
  if state.isMaster then state.remotes.foldl addHost st
  else addHost st ⟨state.thisurl, state.logcounter, state.ts⟩

/-- `GetHosts`: the node itself and, on a master, its remotes. -/
def getHosts (st : SharedTable) (now : Nat) : StateT where
  master := st.master
  logcounter := st.logcounter
  isMaster := st.isMaster
  ts := now
  thisurl := st.thisurl
  remotes := if st.isMaster then st.remotes.rows.map fun p => ⟨p.1, p.2.1, p.2.2⟩ else []

/-! ## The election -/

/-- A candidate: log counter and url. -/
structure Candidate where
  logcounter : Nat
  url : Bytes
  deriving DecidableEq, Repr

/-- One row of the table against the best candidate so far. -/
def consider (cutoff : Nat) (best : Candidate) (p : Bytes × Nat × Nat) : Candidate :=
  -- too old, a lower counter, or the candidate itself
  if p.2.2 < cutoff ∨ p.2.1 < best.logcounter ∨ p.1 = best.url then best
  else if p.2.1 > best.logcounter ∨ (p.2.1 = best.logcounter ∧ p.1 > best.url) then ⟨p.2.1, p.1⟩
  else best

/-- The loop of `MasterUpdate`. -/
def elect (st : SharedTable) (cutoff : Nat) : Candidate :=
  st.remotes.rows.foldl (consider cutoff) ⟨st.logcounter, st.thisurl⟩

/-- `MasterUpdate`; `registerOk` are the statuses of the calls to the new master. -/
def masterUpdate (st : SharedTable) (cutoff : Nat) (registerOk : Nat → Bool) : SharedTable :=
  if (elect st cutoff).url = st.thisurl then { st with lastslave := [], isMaster := true }
  else if (List.range electionMaxRetries).any registerOk then
    { st with master := (elect st cutoff).url }
  else st

theorem masterUpdate_isMaster (st : SharedTable) (cutoff : Nat) (registerOk : Nat → Bool) :
    (masterUpdate st cutoff registerOk).isMaster = true ↔
      st.isMaster = true ∨ (elect st cutoff).url = st.thisurl := by
  unfold masterUpdate
  split
  · rename_i h
    exact ⟨fun _ => Or.inr h, fun _ => rfl⟩
  · rename_i h
    rw [or_iff_left h]
    split <;> exact Iff.rfl

/-- An election leaves the databases and the counters alone. -/
theorem masterUpdate_same (st : SharedTable) (cutoff : Nat) (registerOk : Nat → Bool) :
    (masterUpdate st cutoff registerOk).maindb = st.maindb ∧
      (masterUpdate st cutoff registerOk).logdb = st.logdb ∧
      (masterUpdate st cutoff registerOk).maincounter = st.maincounter ∧
      (masterUpdate st cutoff registerOk).logcounter = st.logcounter := by
  unfold masterUpdate
  split
  · exact ⟨rfl, rfl, rfl, rfl⟩
  · split <;> exact ⟨rfl, rfl, rfl, rfl⟩

end Zapdos.Hrpc
