/-
  A cluster over crashes, promotions and restarts — what its logs have in common.

  Nodes commit as master, pull as slaves, stop at any moment and start again: `SyncFirst` compares logs
  and pulls, asks who the master is, `SyncFromMaster` compares with that one and pulls on.  A slave that
  elects itself is promoted, whether there is another master or not; others follow it, and go on
  pulling, without a comparison.  Every node has its own clock.  A commit of a master is cut into its
  steps, so that it may die with ids taken and entries not written.  Pushes are left out:
  `drainTransactions` drops them.

  THE CRUX.  An entry that two nodes have in common came from one to the other through pulls, and a
  pull appends: so what they have in common reaches from there down to the first entry (`Inv.shared`).
  This needs that whoever starts to pull shares its whole log with the other node, and that an id and a
  timestamp are the mark of one entry: no two masters stamp entries of one id with the same time.
-/
import Zapdos.Hrpc.Replication
import Zapdos.Store.StoreLevel

namespace Zapdos.Hrpc.Failover

open Zapdos.Lib Zapdos.Store Replication

/-- Where a node is in `SyncServer::init`. -/
inductive Phase
  | down
  /-- the databases are open -/
  | opened
  /-- in the loop of `SyncFirst` -/
  | syncFirst
  /-- after the loop, in the calls to `R_REGISTER` -/
  | registered
  /-- `SyncFirst` is done: the answer came from a master -/
  | synced
  /-- in the loop of `SyncFromMaster`, or a master -/
  | running
  deriving DecidableEq, Repr

/-- A node. -/
structure Node where
  table : SharedTable
  phase : Phase
  /-- its commits under way, by log id -/
  inflight : Nat → Option (Stage × TransactionT) := fun _ => none
  /-- the transactions of a pull that are not applied yet -/
  pulled : Option (List TransactionT) := none

/-- All nodes. -/
structure Cluster (ι : Type*) where
  nodes : ι → Node

/-- One step of one node; `now` is its own clock. -/
inductive Label (ι : Type*)
  | begin (i : ι) (items : List TransItemT) (updater : Bytes) (now : Nat)
  | writeLog (i : ι) (id : Nat)
  | writeData (i : ι) (id : Nat)
  | finish (i : ι) (id : Nat) (pushOk : Bool) (indexFails : Option Nat)
  | crash (i : ι)
  /-- with what the configuration says -/
  | restart (i : ι) (noXapian isMaster : Bool) (master : Bytes)
  /-- `SyncFirst` begins -/
  | syncFirst (i : ι)
  /-- a pull at the time `now` of the slave and `there` of the node that answers -/
  | pull (i : ι) (limit now there : Nat)
  /-- the next transaction of a pull -/
  | apply (i : ι) (env : CommitEnv)
  | register (i : ι)
  /-- `SyncFromMaster` begins -/
  | syncFromMaster (i : ι)
  /-- `MasterUpdate` elects the node itself -/
  | promote (i : ι)
  /-- `MasterUpdate` elects another node -/
  | follow (i : ι) (newmaster : Bytes)

section Machine

variable {ι : Type*} [DecidableEq ι]

/-- Node `i` becomes `n`. -/
def Cluster.set (c : Cluster ι) (i : ι) (n : Node) : Cluster ι :=
  { c with nodes := Function.update c.nodes i n }

@[simp] theorem Cluster.set_self (c : Cluster ι) (i : ι) (n : Node) : (c.set i n).nodes i = n :=
  Function.update_self _ _ _

theorem Cluster.set_ne (c : Cluster ι) {i j : ι} (h : j ≠ i) (n : Node) :
    (c.set i n).nodes j = c.nodes j :=
  Function.update_of_ne h _ _

/-- Whether node `i` answers: it does once `SyncFirst` is done, whatever becomes of `SyncFromMaster`. -/
def Cluster.Ready (c : Cluster ι) (i : ι) : Prop :=
  (c.nodes i).phase = .synced ∨ (c.nodes i).phase = .running

instance (c : Cluster ι) (i : ι) : Decidable (c.Ready i) :=
  inferInstanceAs (Decidable (_ ∨ _))

/-- A slave in one of the two loops that pull. -/
def Node.Pulls (n : Node) : Prop :=
  (n.phase = .syncFirst ∨ n.phase = .running) ∧ n.table.isMaster = false

instance (n : Node) : Decidable n.Pulls :=
  inferInstanceAs (Decidable (_ ∧ _))

/-- One step.  `peer` is who answers at an address.  Where a write of a master fails its commit comes no
    further; where the commit of a pulled transaction fails the rest of the pull is dropped.  A slave
    that dies inside a commit leaves the log of before or after it. -/
def step (peer : Bytes → Option ι) (c : Cluster ι) : Label ι → Option (Cluster ι)
  | .begin i items updater now =>
    let n := c.nodes i
    if n.phase = .running ∧ n.table.isMaster = true ∧ items ≠ [] ∧ TableRows items then
      let (id, table) := n.table.logcounterGetNext
      let t := stamp now { item := items, updater := updater } true id
      some (c.set i { n with
        table := table
        inflight := Function.update n.inflight id (some (.numbered, t)) })
    else none
  | .writeLog i id =>
    let n := c.nodes i
    match n.inflight id with
    | some (.numbered, t) =>
      some (c.set i { n with
        table := { n.table with logdb := n.table.logdb.write (logBatch t) }
        inflight := Function.update n.inflight id (some (.logged, t)) })
    | _ => none
  | .writeData i id =>
    let n := c.nodes i
    match n.inflight id with
    | some (.logged, t) =>
      some (c.set i { n with
        table := { n.table with maindb := n.table.maindb.write (dataBatch t.item) }
        inflight := Function.update n.inflight id (some (.written, t)) })
    | _ => none
  | .finish i id pushOk indexFails =>
    let n := c.nodes i
    match n.inflight id with
    | some (.written, t) =>
      some (c.set i { n with
        table := (commitTail n.table t true { pushOk := pushOk, indexFails := indexFails }).table
        inflight := Function.update n.inflight id none })
    | _ => none
  | .crash i =>
    if (c.nodes i).phase = .down then none
    else some (c.set i { table := (c.nodes i).table, phase := .down })
  | .restart i noXapian isMaster master =>
    if (c.nodes i).phase = .down then
      match workServerInit { (c.nodes i).table with noXapian := noXapian } isMaster master with
      | .ok table =>
        some (c.set i { table := table, phase := if isMaster then .running else .opened })
      | .error _ => none
    else none
  | .syncFirst i =>
    let n := c.nodes i
    match peer n.table.master with
    | some s =>
      if n.phase = .opened ∧ c.Ready s ∧ compareLog n.table (c.nodes s).table = .ok true then
        some (c.set i { n with phase := .syncFirst })
      else none
    | none => none
  | .pull i limit now there =>
    let n := c.nodes i
    match peer n.table.master with
    | some s =>
      if n.Pulls ∧ n.pulled = none ∧ c.Ready s then
        match translogHandler (c.nodes s).table (pullRequest n.table limit now) there with
        | .ok (data, table) =>
          some ((c.set s { c.nodes s with table := table }).set i { n with
            pulled := some data.trans })
        | .error _ => some c
      else none
    | none => none
  | .apply i env =>
    let n := c.nodes i
    match n.pulled with
    | some (t :: ts) =>
      if t.id ≠ n.table.logcounter + 1 then some (c.set i { n with pulled := none })
      else
        let out := commit n.table 0 t false env
        some (c.set i { n with
          table := out.table
          pulled := match out.result with
            | .ok () => some ts
            | .error _ => none })
    | some [] => some (c.set i { n with pulled := none })
    | none => none
  | .register i =>
    let n := c.nodes i
    match peer n.table.master with
    | some s =>
      if (n.phase = .syncFirst ∨ n.phase = .registered) ∧ n.pulled = none ∧ c.Ready s then
        if (c.nodes s).table.isMaster then some (c.set i { n with phase := .synced })
        else
          -- another slave names its own master
          some (c.set i { n with
            table := { n.table with master := (c.nodes s).table.master }
            phase := .registered })
      else none
    | none => none
  | .syncFromMaster i =>
    let n := c.nodes i
    match peer n.table.master with
    | some s =>
      -- a node has registered with another one
      if s ≠ i ∧ n.phase = .synced ∧ c.Ready s ∧
          compareLog n.table (c.nodes s).table = .ok true then
        some (c.set i { n with phase := .running })
      else none
    | none => none
  | .promote i =>
    let n := c.nodes i
    if n.phase = .running ∧ n.table.isMaster = false ∧ n.pulled = none then
      some (c.set i { n with table := { n.table with lastslave := [], isMaster := true } })
    else none
  | .follow i newmaster =>
    let n := c.nodes i
    match peer newmaster with
    | some s =>
      if s ≠ i ∧ c.Ready s ∧ n.phase = .running ∧ n.table.isMaster = false ∧ n.pulled = none then
        some (c.set i { n with table := { n.table with master := newmaster } })
      else none
    | none => none

/-- A cluster is set up on blank databases; its masters are running. -/
def machine (peer : Bytes → Option ι) : Machine (Cluster ι) (Label ι) where
  init c := ∀ i, Fenced (c.nodes i).table.maindb ∧ Fenced (c.nodes i).table.logdb ∧
    HoldsEntries (c.nodes i).table.logdb (fun _ => none) ∧ (c.nodes i).table.logcounter = 0 ∧
    (∀ id, (c.nodes i).inflight id = none) ∧ (c.nodes i).pulled = none ∧
    if (c.nodes i).table.isMaster then (c.nodes i).phase = .running
    else (c.nodes i).phase = .down ∨ (c.nodes i).phase = .opened
  step := step peer

/-! ## What the logs share -/

/-- Every entry of the log of `st` is an entry of the other log, under the same id. -/
def PrefixOf (st remote : SharedTable) : Prop :=
  NumLog.SharedTo (entryAt st) (entryAt remote) st.logcounter

/-- The logs part exactly at the last entry of `st`. -/
def PartsAtLast (st remote : SharedTable) : Prop :=
  0 < st.logcounter ∧ NumLog.SharedTo (entryAt st) (entryAt remote) (st.logcounter - 1) ∧
    ¬ PrefixOf st remote

instance (st remote : SharedTable) : Decidable (PrefixOf st remote) :=
  inferInstanceAs (Decidable (NumLog.SharedTo _ _ _))

instance (st remote : SharedTable) : Decidable (PartsAtLast st remote) :=
  inferInstanceAs (Decidable (_ ∧ _ ∧ _))

/-- No other node has, or is about to write, an entry of this id and time. -/
def Cluster.Unmarked (c : Cluster ι) (i : ι) (id now : Nat) : Prop :=
  ∀ j, j ≠ i → (∀ e ∈ entryAt (c.nodes j).table id, e.ts ≠ now) ∧
    ∀ x ∈ (c.nodes j).inflight id, x.2.ts ≠ now

/-- Whoever is compared has a log that does not part at its last entry, whoever follows without a
    comparison has a prefix of the other log, a master does not stamp a commit with the time of another
    node's entry of that id, and no log write of a pulled transaction fails. -/
def InStep (peer : Bytes → Option ι) (c : Cluster ι) : Label ι → Prop
  | .syncFirst i => ∀ s, peer (c.nodes i).table.master = some s →
      ¬ PartsAtLast (c.nodes i).table (c.nodes s).table
  | .syncFromMaster i => ∀ s, peer (c.nodes i).table.master = some s →
      ¬ PartsAtLast (c.nodes i).table (c.nodes s).table
  | .follow i newmaster => ∀ s, peer newmaster = some s →
      PrefixOf (c.nodes i).table (c.nodes s).table
  | .begin i _ _ now => c.Unmarked i ((c.nodes i).table.logcounter + 1) now
  | .apply _ env => env.logOk = true
  | _ => True

end Machine

/-! ## Tables -/

/-- A transaction as it can be committed. -/
structure Writable (t : TransactionT) : Prop where
  item : t.item ≠ []
  notfound : t.notfound = false
  rows : TableRows t.item

/-- The databases of a node are in order, and `f` is its log: maybe with holes, and not beyond the log
    counter. -/
structure TableOk (f : NumLog TransactionT) (st : SharedTable) : Prop where
  main : Fenced st.maindb
  log : Fenced st.logdb
  holds : HoldsEntries st.logdb f
  below : NumLog.Below f st.logcounter
  zero : f 0 = none
  writable : ∀ k e, f k = some e → Writable e

theorem TableOk.entryAt_eq {f : NumLog TransactionT} {st : SharedTable} (h : TableOk f st) :
    entryAt st = f :=
  funext (entryAt_of_holds h.holds h.zero)

theorem TableOk.clean {f : NumLog TransactionT} {st : SharedTable} (h : TableOk f st) : Clean f :=
  fun k e he => ⟨h.holds.numbered k e he, (h.writable k e he).item, (h.writable k e he).notfound⟩

theorem TableOk.of_same {f : NumLog TransactionT} {st st' : SharedTable} (h : TableOk f st)
    (hm : st'.maindb = st.maindb) (hl : st'.logdb = st.logdb) (hn : st'.logcounter = st.logcounter) :
    TableOk f st' := by
  refine ⟨?_, ?_, ?_, ?_, h.zero, h.writable⟩
  · rw [hm]
    exact h.main
  · rw [hl]
    exact h.log
  · rw [hl]
    exact h.holds
  · rw [hn]
    exact h.below

/-- An entry is written into a hole. -/
theorem TableOk.write {f : NumLog TransactionT} {st : SharedTable} (h : TableOk f st)
    {t : TransactionT} (hw : Writable t) (hpos : 0 < t.id) (hle : t.id ≤ st.logcounter) :
    TableOk (Function.update f t.id (some t))
      { st with logdb := st.logdb.write (logBatch t) } := by
  refine ⟨h.main, h.log.logBatch t hpos, h.holds.write t hpos, fun k hk => ?_, ?_, fun k e he => ?_⟩
  · have hk' : st.logcounter < k := hk
    rw [Function.update_of_ne (by omega)]
    exact h.below k hk'
  · rw [Function.update_of_ne (by omega), h.zero]
  · by_cases hk : k = t.id
    · rw [hk, Function.update_self] at he
      cases he
      exact hw
    · rw [Function.update_of_ne hk] at he
      exact h.writable k e he

/-- A transaction is logged under the next id, and its rows are written or not. -/
theorem TableOk.logged {f : NumLog TransactionT} {st st' : SharedTable} (h : TableOk f st)
    {t : TransactionT} (hc : Logged st st' t) (hw : Writable t) (hid : t.id = st.logcounter + 1) :
    TableOk (Function.update f t.id (some t)) st' := by
  have hnext : TableOk f { st with logcounter := st.logcounter + 1 } :=
    ⟨h.main, h.log, h.holds, fun k hk => h.below k (Nat.lt_of_succ_lt hk), h.zero, h.writable⟩
  have hlog := hnext.write hw (by omega) hid.le
  refine ⟨?_, ?_, ?_, ?_, hlog.zero, hlog.writable⟩
  · rcases hc.maindb with hsame | hwritten
    · rw [hsame]
      exact h.main
    · rw [hwritten]
      exact h.main.applyItems hw.rows
  · rw [hc.logdb]
    exact hlog.log
  · rw [hc.logdb]
    exact hlog.holds
  · rw [hc.logcounter]
    exact hlog.below

/-! ## The invariant -/

section Invariant

variable {ι : Type*} {peer : Bytes → Option ι} {f : ι → NumLog TransactionT}
  {c : Cluster ι}

/-- A commit under way, of a master. -/
structure CommitOk (f : NumLog TransactionT) (st : SharedTable) (id : Nat) (stage : Stage)
    (t : TransactionT) : Prop where
  pos : 0 < id
  le : id ≤ st.logcounter
  id_eq : t.id = id
  writable : Writable t
  /-- until the entry is written there is a hole -/
  hole : stage = .numbered → f id = none

/-- What holds of node `i` with the logs `f`, when it is `n`. -/
structure NodeOk (peer : Bytes → Option ι) (f : ι → NumLog TransactionT) (i : ι) (n : Node) :
    Prop where
  table : TableOk (f i) n.table
  inflight : ∀ id stage t, n.inflight id = some (stage, t) →
    CommitOk (f i) n.table id stage t ∧ n.phase = .running ∧ n.table.isMaster = true
  /-- a slave that pulls has a prefix of the log it pulls from -/
  source : n.Pulls → ∃ s, peer n.table.master = some s ∧ s ≠ i ∧
    NumLog.SharedTo (f i) (f s) n.table.logcounter
  pulled : ∀ ts, n.pulled = some ts → n.Pulls ∧
    ∀ s, peer n.table.master = some s → ∀ t ∈ ts, f s t.id = some t

/-- The id and the time of a transaction of node `i` are its own: other nodes neither have nor write an
    entry with both. -/
def Marked (f : ι → NumLog TransactionT) (c : Cluster ι) (i : ι) (id : Nat) (t : TransactionT) :
    Prop :=
  ∀ j, j ≠ i → (∀ e, f j id = some e → e.ts ≠ t.ts) ∧
    ∀ u, (c.nodes j).inflight id = some (.numbered, u) → u.ts ≠ t.ts

/-- What holds of every state of a run in step. -/
structure Inv (peer : Bytes → Option ι) (f : ι → NumLog TransactionT) (c : Cluster ι) : Prop where
  nodes : ∀ i, NodeOk peer f i (c.nodes i)
  /-- two nodes that have an entry in common have all entries before in common -/
  shared : ∀ i j k e e', i ≠ j → f i k = some e → f j k = some e' → e.ts = e'.ts →
    NumLog.SharedTo (f i) (f j) k
  /-- an entry about to be written is no other node's -/
  marked : ∀ i id t, (c.nodes i).inflight id = some (.numbered, t) → Marked f c i id t

variable [DecidableEq ι]

/-- A node changes and no log does. -/
theorem Inv.set (h : Inv peer f c) {i : ι} {n : Node} (hn : NodeOk peer f i n)
    (hin : ∀ id t, n.inflight id = some (.numbered, t) → Marked f c i id t) :
    Inv peer f (c.set i n) := by
  refine ⟨fun j => ?_, h.shared, fun j id t hj j' hne => ?_⟩
  · by_cases he : j = i
    · subst he
      rw [Cluster.set_self]
      exact hn
    · rw [Cluster.set_ne c he]
      exact h.nodes j
  · by_cases he : j = i
    · subst he
      rw [Cluster.set_self] at hj
      rw [Cluster.set_ne c hne]
      exact hin id t hj j' hne
    · rw [Cluster.set_ne c he] at hj
      refine ⟨(h.marked j id t hj j' hne).1, fun u hu => ?_⟩
      by_cases he' : j' = i
      · subst he'
        rw [Cluster.set_self] at hu
        exact ((hin id u hu j he).2 t hj).symm
      · rw [Cluster.set_ne c he'] at hu
        exact (h.marked j id t hj j' hne).2 u hu

/-- A node changes, and neither a log nor the commits under way. -/
theorem Inv.set_same (h : Inv peer f c) {i : ι} {n : Node} (hn : NodeOk peer f i n)
    (hin : n.inflight = (c.nodes i).inflight) : Inv peer f (c.set i n) :=
  h.set hn fun id t ht => h.marked i id t (by rwa [hin] at ht)

/-- The log of a node grows by one entry: what holds of another node stays. -/
theorem NodeOk.extend {i j : ι} (hij : i ≠ j) {k : Nat} (hk : f j k = none) (e : TransactionT)
    {n : Node} (h : NodeOk peer f i n) :
    NodeOk peer (Function.update f j (Function.update (f j) k (some e))) i n := by
  have hi : Function.update f j (Function.update (f j) k (some e)) i = f i :=
    Function.update_of_ne hij _ _
  have hext : ∀ s, NumLog.Extends (f s)
      (Function.update f j (Function.update (f j) k (some e)) s) := by
    intro s
    by_cases hs : s = j
    · rw [hs, Function.update_self]
      exact NumLog.extends_update hk e
    · rw [Function.update_of_ne hs]
      exact NumLog.Extends.refl _
  refine ⟨?_, ?_, ?_, ?_⟩
  · rw [hi]
    exact h.table
  · rw [hi]
    exact h.inflight
  · intro hp
    obtain ⟨s, hs, hne, hshared⟩ := h.source hp
    exact ⟨s, hs, hne, hshared.extend (hext i) (hext s)⟩
  · intro ts hts
    obtain ⟨hp, hall⟩ := h.pulled ts hts
    exact ⟨hp, fun s hs t ht => hext s _ _ (hall s hs t ht)⟩

/-- **One more entry.**  The log of node `j` gets `e` into the hole `k`, and `j` becomes `n`. -/
theorem Inv.grow (h : Inv peer f c) {j : ι} {k : Nat} {e : TransactionT} {n : Node}
    (hk : f j k = none)
    (hshared : ∀ i, i ≠ j → ∀ e', f i k = some e' → e'.ts = e.ts →
      NumLog.SharedTo (Function.update (f j) k (some e)) (f i) k)
    (hmarked : ∀ i, i ≠ j → ∀ t, (c.nodes i).inflight k = some (.numbered, t) → e.ts ≠ t.ts)
    (hn : NodeOk peer (Function.update f j (Function.update (f j) k (some e))) j n)
    (hin : ∀ id t, n.inflight id = some (.numbered, t) →
      (c.nodes j).inflight id = some (.numbered, t)) :
    Inv peer (Function.update f j (Function.update (f j) k (some e))) (c.set j n) := by
  have hother : ∀ {i}, i ≠ j →
      Function.update f j (Function.update (f j) k (some e)) i = f i := fun hi =>
    Function.update_of_ne hi _ _
  have hself : Function.update f j (Function.update (f j) k (some e)) j =
      Function.update (f j) k (some e) := Function.update_self _ _ _
  have hext := NumLog.extends_update hk e
  -- node `j` against another one
  have hpair : ∀ i k' e₁ e₂, i ≠ j → Function.update (f j) k (some e) k' = some e₁ →
      f i k' = some e₂ → e₁.ts = e₂.ts →
      NumLog.SharedTo (Function.update (f j) k (some e)) (f i) k' := by
    intro i k' e₁ e₂ hij h₁ h₂ hts
    by_cases hkk : k' = k
    · subst hkk
      rw [Function.update_self] at h₁
      cases h₁
      exact hshared i hij e₂ h₂ hts.symm
    · rw [Function.update_of_ne hkk] at h₁
      exact (h.shared j i k' e₁ e₂ hij.symm h₁ h₂ hts).extend hext (NumLog.Extends.refl _)
  refine ⟨fun i => ?_, fun i i' k' e₁ e₂ hne h₁ h₂ hts => ?_, fun i id t hi => ?_⟩
  · by_cases he : i = j
    · subst he
      rw [Cluster.set_self]
      exact hn
    · rw [Cluster.set_ne c he]
      exact (h.nodes i).extend he hk e
  · by_cases hij : i = j
    · subst hij
      rw [hother hne.symm] at h₂ ⊢
      rw [hself] at h₁ ⊢
      exact hpair i' k' e₁ e₂ hne.symm h₁ h₂ hts
    · rw [hother hij] at h₁ ⊢
      by_cases hij' : i' = j
      · subst hij'
        rw [hself] at h₂ ⊢
        exact (hpair i k' e₂ e₁ hij h₂ h₁ hts.symm).symm
      · rw [hother hij'] at h₂ ⊢
        exact h.shared i i' k' e₁ e₂ hne h₁ h₂ hts
  · -- whatever is about to be written was so before
    have hold : ∀ i id t, ((c.set j n).nodes i).inflight id = some (.numbered, t) →
        (c.nodes i).inflight id = some (.numbered, t) := by
      intro i id t hi
      by_cases he : i = j
      · subst he
        rw [Cluster.set_self] at hi
        exact hin id t hi
      · rwa [Cluster.set_ne c he] at hi
    have hi' := hold i id t hi
    intro i' hne
    refine ⟨fun e' he' => ?_, fun u hu => (h.marked i id t hi' i' hne).2 u (hold i' id u hu)⟩
    by_cases hij : i' = j
    · subst hij
      rw [hself] at he'
      by_cases hid : id = k
      · subst hid
        rw [Function.update_self] at he'
        cases he'
        exact hmarked i hne.symm t hi'
      · rw [Function.update_of_ne hid] at he'
        exact (h.marked i id t hi' i' hne).1 e' he'
    · rw [hother hij] at he'
      exact (h.marked i id t hi' i' hne).1 e' he'

/-! ## The steps of a commit -/

omit [DecidableEq ι] in
theorem update_eq_some (g : Nat → Option (Stage × TransactionT)) (id : Nat)
    (next : Option (Stage × TransactionT)) {id' : Nat} {x : Stage × TransactionT} :
    Function.update g id next id' = some x ↔
      (id' = id ∧ next = some x) ∨ (id' ≠ id ∧ g id' = some x) := by
  by_cases hid : id' = id
  · subst hid
    simp
  · rw [Function.update_of_ne hid]
    simp [hid]

omit [DecidableEq ι] in
/-- A master does not pull. -/
theorem not_pulls_of_master {n : Node} (hm : n.table.isMaster = true) : ¬ n.Pulls := by
  rintro ⟨-, hno⟩
  rw [hm] at hno
  cases hno

theorem inv_begin (h : Inv peer f c) {c' : Cluster ι} {i : ι} {items : List TransItemT}
    {updater : Bytes} {now : Nat}
    (hmark : c.Unmarked i ((c.nodes i).table.logcounter + 1) now)
    (hs : step peer c (.begin i items updater now) = some c') : Inv peer f c' := by
  simp only [step, SharedTable.logcounterGetNext] at hs
  split at hs
  · rename_i hguard
    obtain ⟨hrun, hm, hitems, hrows⟩ := hguard
    cases hs
    have hi := h.nodes i
    have hnone := hi.table.below _ (Nat.lt_succ_self _)
    refine h.set ⟨?_, fun id stage t hin => ?_, fun hp => absurd hp (not_pulls_of_master hm), ?_⟩ ?_
    · exact ⟨hi.table.main, hi.table.log, hi.table.holds,
        fun k hk => hi.table.below k (Nat.lt_of_succ_lt hk), hi.table.zero, hi.table.writable⟩
    · rcases (update_eq_some (c.nodes i).inflight _ _).mp hin with ⟨rfl, hnew⟩ | ⟨-, hin⟩
      · cases hnew
        exact ⟨⟨Nat.succ_pos _, le_rfl, rfl, ⟨hitems, rfl, hrows⟩, fun _ => hnone⟩, hrun, hm⟩
      · obtain ⟨hcommit, hrest⟩ := hi.inflight id stage t hin
        exact ⟨⟨hcommit.pos, Nat.le_succ_of_le hcommit.le, hcommit.id_eq, hcommit.writable,
          hcommit.hole⟩, hrest⟩
    · exact fun ts hts => absurd (hi.pulled ts hts).1 (not_pulls_of_master hm)
    · intro id t hin
      rcases (update_eq_some (c.nodes i).inflight _ _).mp hin with ⟨rfl, hnew⟩ | ⟨-, hin⟩
      · cases hnew
        intro j hne
        obtain ⟨hentry, hwriting⟩ := hmark j hne
        rw [(h.nodes j).table.entryAt_eq] at hentry
        exact ⟨hentry, fun u hu => hwriting _ hu⟩
      · exact h.marked i id t hin
  · cases hs

/-- A master writes an entry: no other node has one of this time there. -/
theorem inv_writeLog (h : Inv peer f c) {c' : Cluster ι} {i : ι} {id : Nat}
    (hs : step peer c (.writeLog i id) = some c') : ∃ f', Inv peer f' c' := by
  simp only [step] at hs
  split at hs
  · rename_i t hin
    cases hs
    have hi := h.nodes i
    obtain ⟨hcommit, hrun, hm⟩ := hi.inflight id _ t hin
    obtain rfl : t.id = id := hcommit.id_eq
    have hnone := hcommit.hole rfl
    have hmine := h.marked i _ t hin
    refine ⟨_, h.grow (e := t) hnone ?_ ?_
      ⟨?_, ?_, fun hp => absurd hp (not_pulls_of_master hm), ?_⟩ ?_⟩
    · intro j hne e' he' hts
      exact absurd hts ((hmine j hne).1 e' he')
    · exact fun j hne u hu => ((hmine j hne).2 u hu).symm
    · rw [Function.update_self]
      exact hi.table.write hcommit.writable hcommit.pos hcommit.le
    · intro id stage u hu
      rw [Function.update_self]
      rcases (update_eq_some (c.nodes i).inflight t.id _).mp hu with ⟨rfl, hnew⟩ | ⟨hid, hu⟩
      · cases hnew
        exact ⟨⟨hcommit.pos, hcommit.le, rfl, hcommit.writable, nofun⟩, hrun, hm⟩
      · obtain ⟨hu, hrest⟩ := hi.inflight id stage u hu
        refine ⟨⟨hu.pos, hu.le, hu.id_eq, hu.writable, fun hs => ?_⟩, hrest⟩
        rw [Function.update_of_ne hid]
        exact hu.hole hs
    · exact fun ts hts => absurd (hi.pulled ts hts).1 (not_pulls_of_master hm)
    · intro id u hu
      rcases (update_eq_some (c.nodes i).inflight t.id _).mp hu with ⟨rfl, hnew⟩ | ⟨-, hu⟩
      · cases hnew
      · exact hu
  · cases hs

/-- A later step of a commit leaves the log alone. -/
theorem inv_commitStep (h : Inv peer f c) {i : ι} {id : Nat} {stage : Stage} {t : TransactionT}
    (hin : (c.nodes i).inflight id = some (stage, t)) {st' : SharedTable}
    (hst : TableOk (f i) st') (hn : st'.logcounter = (c.nodes i).table.logcounter)
    (hrole : st'.isMaster = (c.nodes i).table.isMaster) {next : Option (Stage × TransactionT)}
    (hnext : ∀ stage' u, next = some (stage', u) → u = t ∧ stage' ≠ .numbered) :
    Inv peer f (c.set i { c.nodes i with
      table := st'
      inflight := Function.update (c.nodes i).inflight id next }) := by
  have hi := h.nodes i
  obtain ⟨hcommit, hrun, hm⟩ := hi.inflight id stage t hin
  have hm' : st'.isMaster = true := hrole.trans hm
  refine h.set ⟨hst, fun id' stage' u hu => ?_, fun hp => absurd hp (not_pulls_of_master hm'), ?_⟩
    fun id' u hu => ?_
  · rcases (update_eq_some (c.nodes i).inflight id next).mp hu with ⟨rfl, hnew⟩ | ⟨-, hu⟩
    · obtain ⟨rfl, hne⟩ := hnext stage' u hnew
      exact ⟨⟨hcommit.pos, hn ▸ hcommit.le, hcommit.id_eq, hcommit.writable,
        fun hs => absurd hs hne⟩, hrun, hm'⟩
    · obtain ⟨hu, hrun', -⟩ := hi.inflight id' stage' u hu
      exact ⟨⟨hu.pos, hn ▸ hu.le, hu.id_eq, hu.writable, hu.hole⟩, hrun', hm'⟩
  · exact fun ts hts => absurd (hi.pulled ts hts).1 (not_pulls_of_master hm)
  · rcases (update_eq_some (c.nodes i).inflight id next).mp hu with ⟨rfl, hnew⟩ | ⟨-, hu⟩
    · exact absurd rfl (hnext _ u hnew).2
    · exact h.marked i id' u hu

theorem inv_writeData (h : Inv peer f c) {c' : Cluster ι} {i : ι} {id : Nat}
    (hs : step peer c (.writeData i id) = some c') : Inv peer f c' := by
  simp only [step] at hs
  split at hs
  · rename_i t hin
    cases hs
    have hi := (h.nodes i).table
    have hw := ((h.nodes i).inflight id _ t hin).1.writable
    have hst : TableOk (f i) { (c.nodes i).table with
        maindb := (c.nodes i).table.maindb.write (dataBatch t.item) } :=
      ⟨hi.main.applyItems hw.rows, hi.log, hi.holds, hi.below, hi.zero, hi.writable⟩
    refine inv_commitStep h hin hst rfl rfl fun stage u hu => ?_
    cases hu
    exact ⟨rfl, by decide⟩
  · cases hs

theorem inv_finish (h : Inv peer f c) {c' : Cluster ι} {i : ι} {id : Nat} {pushOk : Bool}
    {indexFails : Option Nat} (hs : step peer c (.finish i id pushOk indexFails) = some c') :
    Inv peer f c' := by
  simp only [step] at hs
  split at hs
  · rename_i t hin
    cases hs
    have hsame := commitTail_same (c.nodes i).table t true
      { pushOk := pushOk, indexFails := indexFails }
    have hst := (h.nodes i).table.of_same hsame.maindb hsame.logdb hsame.logcounter
    refine inv_commitStep h hin hst hsame.logcounter hsame.isMaster fun stage u hu => ?_
    cases hu
  · cases hs

end Invariant

end Zapdos.Hrpc.Failover
