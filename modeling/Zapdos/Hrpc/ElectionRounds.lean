/-
  The master is gone — failing rounds of `SyncFromMaster`, `HostUpdate` and `MasterUpdate` on every
  slave.

  All slaves go on with their rounds, in any interleaving.  At the tenth failing round a slave tells
  its remotes of itself, at the twentieth it elects.  The calls of `HostUpdate` are made one after the
  other, in any order of the remotes, each within a polling round; slaves hold their clocks together.

  THE CRUX.  `HostUpdate` fills one `StateT` before its loop and hands it to `SendToRemote`, which
  parses the reply into it: what the second remote is told is what the first one answered.  With three
  slaves each is heard of by two others only if another one passes its answer on, and two of them can
  elect themselves with all clocks and rounds in step (`split_brain`).  A cutoff later than the
  broadcast of a greater slave has the same effect.  Where no slave elects without a row of a greater
  one that is newer than its cutoff, provided there is a greater one, at most one becomes master
  (`one_master`): rows never overstate a log counter, so a master is the greatest slave.
-/
import Zapdos.Lib.Runs
import Zapdos.Hrpc.Election
import Zapdos.Hrpc.SyncServer

namespace Zapdos.Hrpc.ElectionRounds

open Zapdos.Lib Zapdos.Store Election

/-- `SYNCMASTER_FAILCOUNT_ONE`. -/
def syncmasterFailcountOne : Nat := 10

/-- `SYNCMASTER_FAILCOUNT_TWO`. -/
def syncmasterFailcountTwo : Nat := 20

/-- `SYNCMASTER_SLEEP_LONG`, in milliseconds. -/
def syncmasterSleepLong : Nat := 100

/-! ## The slaves -/

/-- A slave in its loop. -/
structure Slave where
  table : SharedTable
  failcount : Nat := 0
  faildetected : Nat := 0
  /-- the end of its sleep -/
  wake : Nat := 0

/-- A `HostUpdate` under way. -/
structure HostUpdate (ι : Type*) where
  caller : ι
  /-- what the next remote is sent; its reply is parsed into the same message -/
  state : StateT
  /-- the remotes not called yet -/
  rest : List Bytes
  /-- when the last call ended -/
  since : Nat

/-- All slaves, and the clock they share. -/
structure Cluster (ι : Type*) where
  nodes : ι → Slave
  clock : Nat
  updates : List (HostUpdate ι) := []

/-- What happens next. -/
inductive Label (ι : Type*)
  /-- time passes -/
  | tick (d : Nat)
  /-- the `k`-th `HostUpdate` calls the `n`-th of its remaining remotes -/
  | call (k n : Nat)
  /-- a failing round; `registerOk` are the statuses of the calls to an elected master -/
  | round (i : ι) (registerOk : Nat → Bool)

section Machine

variable {ι : Type*} [DecidableEq ι]

/-- Node `i` becomes `s`. -/
def Cluster.set (c : Cluster ι) (i : ι) (s : Slave) : Cluster ι :=
  { c with nodes := Function.update c.nodes i s }

@[simp] theorem Cluster.set_self (c : Cluster ι) (i : ι) (s : Slave) : (c.set i s).nodes i = s :=
  Function.update_self _ _ _

theorem Cluster.set_ne (c : Cluster ι) {i j : ι} (h : j ≠ i) (s : Slave) :
    (c.set i s).nodes j = c.nodes j :=
  Function.update_of_ne h _ _

/-- `HostUpdate` on node `i`, up to its loop. -/
def Cluster.hostUpdate (c : Cluster ι) (i : ι) : Cluster ι :=
  let st := (c.nodes i).table
  { c with updates := c.updates ++
      [⟨i, getHosts st c.clock, st.remotes.rows.map Prod.fst, c.clock⟩] }

/-- The handler of `R_REGISTER` on node `j`. -/
def Cluster.register (c : Cluster ι) (j : ι) (data : StateT) : Cluster ι :=
  let s := c.nodes j
  if s.table.isMaster then
    (c.set j { s with
      table := addHost s.table ⟨data.thisurl, data.logcounter, data.ts⟩ }).hostUpdate j
  else c

/-- `MasterUpdate(faildetected)` on node `i`.  `peer` is who answers at an address. -/
def Cluster.masterUpdate (peer : Bytes → Option ι) (c : Cluster ι) (i : ι)
    (registerOk : Nat → Bool) : Cluster ι :=
  let s := c.nodes i
  let newmaster := (elect s.table s.faildetected).url
  let status := fun n => (peer newmaster).isSome && registerOk n
  let c' := c.set i { s with table := Hrpc.masterUpdate s.table s.faildetected status }
  match peer newmaster with
  | some j =>
    if newmaster ≠ s.table.thisurl ∧ (List.range electionMaxRetries).any status then
      c'.register j (getHosts s.table c.clock)
    else c'
  | none => c'

/-- The failing branch of a round of `SyncFromMaster` on node `i`. -/
def Cluster.fail (peer : Bytes → Option ι) (c : Cluster ι) (i : ι)
    (registerOk : Nat → Bool) : Cluster ι :=
  let s := c.nodes i
  let failcount := s.failcount + 1
  let c' := c.set i
    { table := (drainTransactions s.table fun _ => {}).1
      failcount := failcount
      faildetected := if failcount = 1 then c.clock else s.faildetected
      wake := c.clock + syncmasterSleepLong }
  if failcount = syncmasterFailcountOne then c'.hostUpdate i
  else if failcount = syncmasterFailcountTwo then c'.masterUpdate peer i registerOk
  else c'

/-- Who is called answers with its own `GetHosts`, after `SetHosts`. -/
def Cluster.setInfo (peer : Bytes → Option ι) (c : Cluster ι) (address : Bytes) (state : StateT) :
    Cluster ι × StateT :=
  match peer address with
  | none => (c, state)
  | some j =>
    let s := c.nodes j
    let table := setHosts s.table state
    (c.set j { s with table := table }, getHosts table c.clock)

/-- One call of `HostUpdate` `u`, number `k`, to `address`; after the last one its thread sleeps. -/
def Cluster.callNext (peer : Bytes → Option ι) (c : Cluster ι) (k : Nat) (u : HostUpdate ι)
    (n : Nat) (address : Bytes) : Cluster ι :=
  let (c', state) := c.setInfo peer address u.state
  let u' := { u with state := state, rest := u.rest.eraseIdx n, since := c.clock }
  let c' := { c' with updates := c.updates.set k u' }
  if u'.rest = [] then
    c'.set u.caller { c'.nodes u.caller with wake := c.clock + syncmasterSleepLong }
  else c'

/-- A call of an update waits longer than a polling round. -/
def Cluster.Late (c : Cluster ι) : Prop :=
  ∃ u ∈ c.updates, u.rest ≠ [] ∧ u.since + syncmasterSleepLong < c.clock

instance (c : Cluster ι) : Decidable c.Late :=
  inferInstanceAs (Decidable (∃ u ∈ c.updates, _))

/-- One step. -/
def step (peer : Bytes → Option ι) (c : Cluster ι) : Label ι → Option (Cluster ι)
  | .tick d =>
    let c' := { c with clock := c.clock + d }
    if c'.Late then none else some c'
  | .call k n =>
    match c.updates[k]? with
    | none => none
    | some u => (u.rest[n]?).map (c.callNext peer k u n)
  | .round i registerOk =>
    let s := c.nodes i
    -- not on a master, not asleep, not in the loop of `HostUpdate`
    if s.table.isMaster ∨ c.clock < s.wake ∨ ∃ u ∈ c.updates, u.caller = i ∧ u.rest ≠ [] then none
    else some (c.fail peer i registerOk)

/-- No row tells a log counter of a slave that is above its own. -/
def RowsBehind (c : Cluster ι) : Prop :=
  ∀ i j logcounter updatedAt,
    (c.nodes i).table.remotes.get (c.nodes j).table.thisurl = some (logcounter, updatedAt) →
      logcounter ≤ (c.nodes j).table.logcounter

/-- Slaves with whatever tables, log counters and urls, before the first round that fails. -/
def machine (peer : Bytes → Option ι) : Machine (Cluster ι) (Label ι) where
  init c :=
    (∀ address j, peer address = some j ↔ (c.nodes j).table.thisurl = address) ∧
      (∀ j, (c.nodes j).table.isMaster = false ∧ (c.nodes j).failcount = 0) ∧
      RowsBehind c ∧ c.updates = []
  step := step peer

/-- A row of a host that is greater than the node, newer than the cutoff. -/
def HeardGreater (s : Slave) : Prop :=
  ∃ p ∈ s.table.remotes.rows, s.faildetected ≤ p.2.2 ∧ own s.table < ofRow p

/-- A slave that elects has heard of a greater one since its fault detection, if there is one. -/
def Informed (c : Cluster ι) : Label ι → Prop
  | .round i _ => (c.nodes i).failcount + 1 = syncmasterFailcountTwo →
      (∃ j, own (c.nodes i).table < own (c.nodes j).table) → HeardGreater (c.nodes i)
  | _ => True

end Machine

/-! ## What a step does to the tables -/

theorem addHosts_eq (st : SharedTable) (rs : List RemoteT) : ∃ remotes,
    rs.foldl addHost st = { st with remotes := remotes } := by
  induction rs generalizing st with
  | nil => exact ⟨st.remotes, rfl⟩
  | cons r rs ih =>
    obtain ⟨remotes, h⟩ := ih (addHost st r)
    exact ⟨remotes, h⟩

theorem setHosts_eq (st : SharedTable) (state : StateT) : ∃ remotes,
    setHosts st state = { st with remotes := remotes } := by
  rw [setHosts]
  split
  · exact addHosts_eq st state.remotes
  · exact ⟨_, rfl⟩

theorem masterUpdate_own (st : SharedTable) (cutoff : Nat) (registerOk : Nat → Bool) :
    own (masterUpdate st cutoff registerOk) = own st ∧
      (masterUpdate st cutoff registerOk).remotes = st.remotes := by
  rw [masterUpdate]
  split_ifs
  · exact ⟨rfl, rfl⟩
  · exact ⟨rfl, rfl⟩
  · exact ⟨rfl, rfl⟩

/-! ## Rows never overstate -/

section Behind

variable {ι : Type*} {peer : Bytes → Option ι} {ids : ι → Candidate}

/-- The slave with this url, if there is one, has at least this log counter. -/
def Behind (ids : ι → Candidate) (url : Bytes) (logcounter : Nat) : Prop :=
  ∀ j, (ids j).url = url → logcounter ≤ (ids j).logcounter

/-- All rows of a table are behind. -/
def TableBehind (ids : ι → Candidate) (st : SharedTable) : Prop :=
  ∀ url logcounter updatedAt, st.remotes.get url = some (logcounter, updatedAt) →
    Behind ids url logcounter

/-- All that a message tells is behind. -/
def StateBehind (ids : ι → Candidate) (state : StateT) : Prop :=
  Behind ids state.thisurl state.logcounter ∧
    ∀ r ∈ state.remotes, Behind ids r.address r.logcounter

theorem TableBehind.addHost {st : SharedTable} (h : TableBehind ids st)
    {r : RemoteT} (hr : Behind ids r.address r.logcounter) : TableBehind ids (addHost st r) := by
  intro url n t hget
  rw [Hrpc.addHost, OrdMap.get_put] at hget
  by_cases hurl : url = r.address
  · rw [if_pos hurl] at hget
    cases hget
    exact hurl ▸ hr
  · rw [if_neg hurl] at hget
    exact h url n t hget

theorem TableBehind.setHosts {st : SharedTable} (h : TableBehind ids st)
    {state : StateT} (hs : StateBehind ids state) : TableBehind ids (setHosts st state) := by
  rw [Hrpc.setHosts]
  by_cases hm : state.isMaster = true
  · rw [if_pos hm]
    -- by induction on the remotes of the master
    have hfold : ∀ (rs : List RemoteT) (st : SharedTable), TableBehind ids st →
        (∀ r ∈ rs, Behind ids r.address r.logcounter) →
        TableBehind ids (rs.foldl Hrpc.addHost st) := by
      intro rs
      induction rs with
      | nil => exact fun st hst _ => hst
      | cons r rs ih =>
        intro st hst hrs
        exact ih _ (hst.addHost (hrs r List.mem_cons_self))
          fun r' hr' => hrs r' (List.mem_cons_of_mem _ hr')
    exact hfold state.remotes st h hs.2
  · rw [if_neg hm]
    exact h.addHost hs.1

theorem getHosts_behind {st : SharedTable} (h : TableBehind ids st)
    (hown : Behind ids st.thisurl st.logcounter) (now : Nat) :
    StateBehind ids (getHosts st now) := by
  refine ⟨hown, fun r hr => ?_⟩
  rw [getHosts] at hr
  by_cases hm : st.isMaster = true
  · rw [if_pos hm] at hr
    obtain ⟨p, hp, rfl⟩ := List.mem_map.mp hr
    exact h p.1 p.2.1 p.2.2 ((st.remotes.get_eq_some_iff).mpr hp)
  · rw [if_neg hm] at hr
    cases hr

/-- `peer` is the address book of the slaves. -/
def Resolves (peer : Bytes → Option ι) (ids : ι → Candidate) : Prop :=
  ∀ address j, peer address = some j ↔ (ids j).url = address

/-- A slave keeps its log counter and url, its rows are behind, and it is master only if it is the
    greatest slave. -/
structure SlaveOk (ids : ι → Candidate) (j : ι) (s : Slave) : Prop where
  own : own s.table = ids j
  behind : TableBehind ids s.table
  greatest : s.table.isMaster = true → ∀ k, ids k ≤ ids j

/-- Every slave is as it should be, and so is what the updates send. -/
structure Ok (ids : ι → Candidate) (c : Cluster ι) : Prop where
  nodes : ∀ j, SlaveOk ids j (c.nodes j)
  updates : ∀ u ∈ c.updates, StateBehind ids u.state

theorem behind_self (hp : Resolves peer ids) (j : ι) : Behind ids (ids j).url (ids j).logcounter := by
  intro k hk
  have hkj : peer (ids j).url = some k := (hp _ k).mpr hk
  rw [(hp _ j).mpr rfl] at hkj
  cases hkj
  exact le_rfl

theorem SlaveOk.state (hp : Resolves peer ids) {j : ι} {s : Slave} (h : SlaveOk ids j s)
    (now : Nat) : StateBehind ids (getHosts s.table now) := by
  refine getHosts_behind h.behind ?_ now
  have hself := behind_self hp j
  rw [← h.own] at hself
  exact hself

theorem Ok.hostUpdate (hp : Resolves peer ids) {c : Cluster ι} (h : Ok ids c) (i : ι) :
    Ok ids (c.hostUpdate i) := by
  refine ⟨h.nodes, fun u hu => ?_⟩
  rcases List.mem_append.mp hu with hu | hu
  · exact h.updates u hu
  · rw [List.mem_singleton.mp hu]
    exact (h.nodes i).state hp c.clock

/-- **The election.**  A slave elects itself exactly when it has heard of no greater slave. -/
theorem elect_self_iff {j : ι} {s : Slave} (hs : SlaveOk ids j s) :
    (elect s.table s.faildetected).url = s.table.thisurl ↔ ¬ HeardGreater s := by
  have hself : OwnRowBehind s.table := by
    intro n t hget
    have hown := hs.own
    have hle := hs.behind s.table.thisurl n t hget j (by rw [← hown]; rfl)
    rw [← hown] at hle
    exact hle
  obtain ⟨hmem, hub⟩ := electBy_greatest hself s.faildetected (List.Perm.refl _)
  have hrow : ∀ {c : Candidate} {t : Nat},
      s.table.remotes.get c.url = some (c.logcounter, t) ↔
        (c.url, c.logcounter, t) ∈ s.table.remotes.rows := s.table.remotes.get_eq_some_iff
  constructor
  · intro he
    have hle : elect s.table s.faildetected ≤ own s.table := by
      rcases hmem with heq | ⟨t, hget, -⟩
      · exact heq.le
      · -- the candidate would be an older row of the node itself
        refine not_lt.mp fun hlt => ?_
        rcases lt_iff.mp hlt with hcount | ⟨-, hurl⟩
        · have hget' : s.table.remotes.get s.table.thisurl = _ := he ▸ hget
          exact absurd (hself _ t hget') (not_le.mpr hcount)
        · exact absurd hurl (he ▸ lt_irrefl _)
    rintro ⟨p, hp, hcut, hlt⟩
    have hcand : ofRow p ∈ candidates s.table s.faildetected :=
      Or.inr ⟨p.2.2, (s.table.remotes.get_eq_some_iff).mpr hp, hcut⟩
    exact absurd (hlt.trans_le ((hub hcand).trans hle)) (lt_irrefl _)
  · intro hnot
    rcases hmem with heq | ⟨t, hget, hcut⟩
    · exact congrArg Candidate.url heq
    · -- a row that is elected is the node itself, or greater
      have hle : own s.table ≤ elect s.table s.faildetected := hub (Or.inl rfl)
      rcases hle.eq_or_lt with heq | hlt
      · exact congrArg Candidate.url heq.symm
      · exact absurd ⟨_, hrow.mp hget, hcut, hlt⟩ hnot

end Behind

/-! ## The invariant -/

section Invariant

variable {ι : Type*} [DecidableEq ι] {peer : Bytes → Option ι} {ids : ι → Candidate}

theorem Ok.set {c : Cluster ι} (h : Ok ids c) {i : ι} {s : Slave} (hs : SlaveOk ids i s) :
    Ok ids (c.set i s) := by
  refine ⟨fun j => ?_, h.updates⟩
  by_cases hj : j = i
  · rw [hj, Cluster.set_self]
    exact hs
  · rw [Cluster.set_ne c hj]
    exact h.nodes j

theorem Ok.register (hp : Resolves peer ids) {c : Cluster ι} (h : Ok ids c) (j : ι)
    {data : StateT} (hd : StateBehind ids data) : Ok ids (c.register j data) := by
  rw [Cluster.register]
  split
  · have hj := h.nodes j
    have hnew : SlaveOk ids j { c.nodes j with
        table := addHost (c.nodes j).table ⟨data.thisurl, data.logcounter, data.ts⟩ } :=
      ⟨hj.own, hj.behind.addHost hd.1, hj.greatest⟩
    exact (h.set hnew).hostUpdate hp j
  · exact h

theorem Ok.setInfo (hp : Resolves peer ids) {c : Cluster ι} (h : Ok ids c) (address : Bytes)
    {state : StateT} (hs : StateBehind ids state) :
    Ok ids (c.setInfo peer address state).1 ∧ StateBehind ids (c.setInfo peer address state).2 := by
  rw [Cluster.setInfo]
  cases peer address with
  | none => exact ⟨h, hs⟩
  | some j =>
    have hj := h.nodes j
    obtain ⟨remotes, heq⟩ := setHosts_eq (c.nodes j).table state
    have hnew : SlaveOk ids j
        { c.nodes j with table := Hrpc.setHosts (c.nodes j).table state } := by
      refine ⟨?_, hj.behind.setHosts hs, ?_⟩
      · show own (Hrpc.setHosts (c.nodes j).table state) = ids j
        rw [heq]
        exact hj.own
      · show (Hrpc.setHosts (c.nodes j).table state).isMaster = true → _
        rw [heq]
        exact hj.greatest
    exact ⟨h.set hnew, hnew.state hp c.clock⟩

theorem Ok.callNext (hp : Resolves peer ids) {c : Cluster ι} (h : Ok ids c) {k : Nat}
    {u : HostUpdate ι} (hu : u ∈ c.updates) (n : Nat) (address : Bytes) :
    Ok ids (c.callNext peer k u n address) := by
  obtain ⟨hok, hstate⟩ := h.setInfo hp address (h.updates u hu)
  rw [Cluster.callNext]
  generalize c.setInfo peer address u.state = reply at hok hstate ⊢
  obtain ⟨c', state⟩ := reply
  have hnext : Ok ids { c' with
      updates := c.updates.set k
        { u with state := state, rest := u.rest.eraseIdx n, since := c.clock } } := by
    refine ⟨hok.nodes, fun v hv => ?_⟩
    rcases List.mem_or_eq_of_mem_set hv with hv | rfl
    · exact h.updates v hv
    · exact hstate
  have hcaller := hok.nodes u.caller
  have hwake : SlaveOk ids u.caller
      { c'.nodes u.caller with wake := c.clock + syncmasterSleepLong } :=
    ⟨hcaller.own, hcaller.behind, hcaller.greatest⟩
  show Ok ids (if _ then _ else _)
  split
  · exact hnext.set hwake
  · exact hnext

theorem Ok.masterUpdate (hp : Resolves peer ids) {c : Cluster ι} (h : Ok ids c) (i : ι)
    (registerOk : Nat → Bool)
    (hinf : (∃ j, ids i < ids j) → HeardGreater (c.nodes i)) :
    Ok ids (c.masterUpdate peer i registerOk) := by
  have hi := h.nodes i
  have hset : ∀ status, Ok ids (c.set i { c.nodes i with
      table := Hrpc.masterUpdate (c.nodes i).table (c.nodes i).faildetected status }) := by
    intro status
    obtain ⟨hown, hrows⟩ := masterUpdate_own (c.nodes i).table (c.nodes i).faildetected status
    refine h.set ⟨hown.trans hi.own, ?_, fun hm k => ?_⟩
    · intro url n t hget
      rw [hrows] at hget
      exact hi.behind url n t hget
    · rcases (masterUpdate_isMaster _ _ _).mp hm with hm | he
      · exact hi.greatest hm k
      · exact not_lt.mp fun hlt => (elect_self_iff hi).mp he (hinf ⟨k, hlt⟩)
  rw [Cluster.masterUpdate]
  cases peer (elect (c.nodes i).table (c.nodes i).faildetected).url with
  | none => exact hset _
  | some j =>
    show Ok ids (if _ then _ else _)
    split_ifs
    · exact (hset _).register hp j (hi.state hp c.clock)
    · exact hset _

theorem Ok.fail (hp : Resolves peer ids) {c : Cluster ι} (h : Ok ids c) (i : ι)
    (registerOk : Nat → Bool) (hinf : Informed c (.round i registerOk)) :
    Ok ids (c.fail peer i registerOk) := by
  have hi := h.nodes i
  have hset : Ok ids (c.set i
      { table := (drainTransactions (c.nodes i).table fun _ => {}).1
        failcount := (c.nodes i).failcount + 1
        faildetected := if (c.nodes i).failcount + 1 = 1 then c.clock else (c.nodes i).faildetected
        wake := c.clock + syncmasterSleepLong }) := by
    rw [drainTransactions_eq]
    exact h.set ⟨hi.own, hi.behind, hi.greatest⟩
  show Ok ids (if _ then _ else if _ then _ else _)
  by_cases hone : (c.nodes i).failcount + 1 = syncmasterFailcountOne
  · rw [if_pos hone]
    exact hset.hostUpdate hp i
  rw [if_neg hone]
  by_cases htwo : (c.nodes i).failcount + 1 = syncmasterFailcountTwo
  · rw [if_pos htwo]
    refine hset.masterUpdate hp i registerOk fun ⟨j, hj⟩ => ?_
    -- the table it elects on is the one before the round, as far as the election looks
    have hheard := hinf htwo ⟨j, by rwa [hi.own, (h.nodes j).own]⟩
    have hne : (c.nodes i).failcount + 1 ≠ 1 := by
      rw [htwo]
      decide
    rw [Cluster.set_self, if_neg hne, drainTransactions_eq]
    exact hheard
  · rw [if_neg htwo]
    exact hset

theorem register_isMaster (c : Cluster ι) (j : ι) (data : StateT) (i : ι) :
    ((c.register j data).nodes i).table.isMaster = (c.nodes i).table.isMaster := by
  rw [Cluster.register]
  split
  · show ((c.set j _).nodes i).table.isMaster = _
    by_cases hij : i = j
    · rw [hij, Cluster.set_self]
      rfl
    · rw [Cluster.set_ne c hij]
  · rfl

/-- `MasterUpdate` makes a node the master when the node elects itself. -/
theorem cluster_masterUpdate_isMaster (c : Cluster ι) (i : ι) (registerOk : Nat → Bool) :
    ((c.masterUpdate peer i registerOk).nodes i).table.isMaster = true ↔
      (c.nodes i).table.isMaster = true ∨
        (elect (c.nodes i).table (c.nodes i).faildetected).url = (c.nodes i).table.thisurl := by
  have hset : ∀ status, ((c.set i { c.nodes i with
      table := Hrpc.masterUpdate (c.nodes i).table (c.nodes i).faildetected status }).nodes
        i).table.isMaster = true ↔ (c.nodes i).table.isMaster = true ∨
          (elect (c.nodes i).table (c.nodes i).faildetected).url = (c.nodes i).table.thisurl := by
    intro status
    rw [Cluster.set_self]
    exact masterUpdate_isMaster _ _ _
  rw [Cluster.masterUpdate]
  cases peer (elect (c.nodes i).table (c.nodes i).faildetected).url with
  | none => exact hset _
  | some j =>
    show ((if _ then _ else _ : Cluster ι).nodes i).table.isMaster = true ↔ _
    split_ifs
    · rw [register_isMaster]
      exact hset _
    · exact hset _

/-- **Only informed elections** give a master that is the greatest slave. -/
theorem informed_iff (hp : Resolves peer ids) {c : Cluster ι} (h : Ok ids c) {i : ι}
    (htwo : (c.nodes i).failcount + 1 = syncmasterFailcountTwo) (registerOk : Nat → Bool) :
    Informed c (.round i registerOk) ↔
      (((c.fail peer i registerOk).nodes i).table.isMaster = true → ∀ k, ids k ≤ ids i) := by
  have hi := h.nodes i
  constructor
  · exact fun hinf => ((h.fail hp i registerOk hinf).nodes i).greatest
  · rintro hmaster - ⟨j, hj⟩
    by_contra hnot
    have hone : ¬ (c.nodes i).failcount + 1 = syncmasterFailcountOne := by
      rw [htwo]
      decide
    have hne : (c.nodes i).failcount + 1 ≠ 1 := by
      rw [htwo]
      decide
      -- it elects itself, on the table it had before the round
    have helect : ((c.fail peer i registerOk).nodes i).table.isMaster = true := by
      rw [Cluster.fail]
      simp only [if_neg hone, if_pos htwo, if_neg hne, drainTransactions_eq]
      refine (cluster_masterUpdate_isMaster _ _ _).mpr (Or.inr ?_)
      rw [Cluster.set_self]
      exact (elect_self_iff hi).mpr hnot
    have hle := hmaster helect j
    rw [hi.own, (h.nodes j).own] at hj
    exact absurd hj (not_lt.mpr hle)

/-- **The step lemma.** -/
theorem ok_step (hp : Resolves peer ids) {c c' : Cluster ι} {l : Label ι} (h : Ok ids c)
    (hinf : Informed c l) (hs : step peer c l = some c') : Ok ids c' := by
  cases l with
  | tick d =>
    simp only [step] at hs
    split at hs
    · cases hs
    · cases hs
      exact ⟨h.nodes, h.updates⟩
  | call k n =>
    simp only [step] at hs
    cases hu : c.updates[k]? with
    | none =>
      rw [hu] at hs
      cases hs
    | some u =>
      rw [hu] at hs
      obtain ⟨address, -, rfl⟩ := Option.map_eq_some_iff.mp hs
      exact h.callNext hp (List.mem_of_getElem? hu) n address
  | round i registerOk =>
    simp only [step] at hs
    split at hs
    · cases hs
    · cases hs
      exact h.fail hp i registerOk hinf

theorem ok_init {c : Cluster ι} (hi : (machine peer).init c) :
    Resolves peer (fun j => own (c.nodes j).table) ∧
      Ok (fun j => own (c.nodes j).table) c := by
  obtain ⟨hpeer, hslave, hrows, hupdates⟩ := hi
  refine ⟨hpeer, fun j => ⟨rfl, ?_, fun hm => ?_⟩, fun u hu => ?_⟩
  · rintro url n t hget k rfl
    exact hrows j k n t hget
  · rw [(hslave j).1] at hm
    cases hm
  · rw [hupdates] at hu
    cases hu

end Invariant

/-- **No split brain** in the runs in which every slave that elects is informed. -/
theorem one_master {ι : Type*} [DecidableEq ι] {peer : Bytes → Option ι} {c : Cluster ι}
    (h : (machine peer).ReachWhere Informed c) (i j : ι)
    (hi : (c.nodes i).table.isMaster = true) (hj : (c.nodes j).table.isMaster = true) : i = j := by
  have hinv : ∃ ids, Resolves peer ids ∧ Ok ids c :=
    h.invariant (I := fun c => ∃ ids, Resolves peer ids ∧ Ok ids c)
      (fun c hc => ⟨_, ok_init hc⟩)
      fun c l c' ⟨ids, hp, hok⟩ hinf hs => ⟨ids, hp, ok_step hp hok hinf hs⟩
  obtain ⟨ids, hp, hok⟩ := hinv
  have hle := (hok.nodes i).greatest hi j
  have hge := (hok.nodes j).greatest hj i
  have hsame : ids i = ids j := le_antisymm hge hle
  have hpi : peer (ids j).url = some i := (hp _ i).mpr (by rw [hsame])
  rw [(hp _ j).mpr rfl] at hpi
  cases hpi
  rfl

/-! ## Three slaves -/

instance (s : Slave) : Decidable (HeardGreater s) :=
  inferInstanceAs (Decidable (∃ p ∈ s.table.remotes.rows, _))

/-- Whether an election is informed can be computed. -/
instance {ι : Type*} [Fintype ι] (c : Cluster ι) : (l : Label ι) → Decidable (Informed c l)
  | .round i _ => inferInstanceAs (Decidable ((c.nodes i).failcount + 1 = _ → (∃ _, _) → _))
  | .tick _ => .isTrue trivial
  | .call _ _ => .isTrue trivial

/-- The urls of three slaves. -/
def url : Fin 3 → Bytes
  | 0 => str "a"
  | 1 => str "b"
  | 2 => str "c"

/-- Their address book. -/
def peer (address : Bytes) : Option (Fin 3) := (List.finRange 3).find? fun i => url i = address

theorem peer_eq (address : Bytes) (i : Fin 3) : peer address = some i ↔ url i = address := by
  have hinj : Function.Injective url := by decide
  constructor
  · intro h
    simpa using List.find?_some h
  · rintro rfl
    cases hj : peer (url i) with
    | none => simpa using List.find?_eq_none.mp hj i (List.mem_finRange i)
    | some j =>
      have hurl : url j = url i := by simpa using List.find?_some hj
      rw [hinj hurl]

/-- Each knows all three from the time they registered; their logs end at the same entry. -/
def start : Cluster (Fin 3) where
  nodes i :=
    { table :=
        { thisurl := url i
          master := str "m"
          logcounter := 5
          remotes := ((OrdMap.empty.put (url 0) (5, 0)).put (url 1) (5, 0)).put (url 2) (5, 0) } }
  clock := 1000

theorem start_init : (machine peer).init start := by
  refine ⟨peer_eq, fun j => ⟨rfl, rfl⟩, fun i j n t hget => ?_, rfl⟩
  have hall : ∀ j : Fin 3, ((start.nodes 0).table.remotes.get (url j)) = some (5, 0) := by decide
  have hget' : (start.nodes 0).table.remotes.get (url j) = some (n, t) := hget
  rw [hall j] at hget'
  cases hget'
  exact le_rfl

/-- A round of all three, at one moment. -/
def together : List (Label (Fin 3)) :=
  [.round 0 fun _ => true, .round 1 fun _ => true, .round 2 fun _ => true]

/-- Twenty rounds in step, with the calls of `HostUpdate` in the tenth one. -/
def inStep (calls : List (Label (Fin 3))) : List (Label (Fin 3)) :=
  let rounds := (List.replicate 9 (together ++ [.tick 100])).flatten
  rounds ++ together ++ calls ++ [.tick 100] ++ rounds ++ together

/-- Every slave calls `a`, then `b`, then `c`. -/
def abc : List (Label (Fin 3)) :=
  [.call 0 0, .call 0 0, .call 0 0, .call 1 0, .call 1 0, .call 1 0, .call 2 0, .call 2 0,
    .call 2 0]

/-- The same, but for `a`: it calls `c` before `b`, and tells `b` what `c` answered. -/
def acb : List (Label (Fin 3)) :=
  [.call 0 0, .call 0 1, .call 0 0, .call 1 0, .call 1 0, .call 1 0, .call 2 0, .call 2 0,
    .call 2 0]

set_option maxRecDepth 10000 in
/-- **Two masters.**  Nobody tells `b` of `c`: `a` and `c` reach `b` after `a`. -/
theorem split_brain : ¬ ∀ c : Cluster (Fin 3), (machine peer).Reach c → ∀ i j,
    (c.nodes i).table.isMaster = true → (c.nodes j).table.isMaster = true → i = j := by
  intro h
  have hrun : ((machine peer).exec start (inStep abc)).map
      (fun c => ((c.nodes 1).table.isMaster, (c.nodes 2).table.isMaster)) = some (true, true) := by
    decide +kernel
  obtain ⟨c, hc, hmasters⟩ := Option.map_eq_some_iff.mp hrun
  obtain ⟨hb, hc'⟩ := Prod.mk.inj hmasters
  exact absurd (h c (Machine.Reach.of_exec start_init hc) 1 2 hb hc') (by decide)

/-- Twenty rounds of `a` and `c`; `b` begins with its rounds a second later. -/
def late : List (Label (Fin 3)) :=
  let two : List (Label (Fin 3)) := [.round 0 fun _ => true, .round 2 fun _ => true]
  (List.replicate 9 (two ++ [.tick 100])).flatten ++ two ++
    [.call 0 0, .call 0 1, .call 0 0, .call 1 0, .call 1 0, .call 1 0, .tick 100] ++
    (List.replicate 9 (together ++ [.tick 100])).flatten ++ together ++
    [.call 2 0, .call 2 0, .call 2 0, .tick 100] ++
    (List.replicate 10 [.round 1 fun _ => true, .tick 100]).flatten

set_option maxRecDepth 10000 in
/-- What `b` was told of `c` is older than its cutoff: two masters again. -/
example : ((machine peer).exec start late).map
    (fun c => ((c.nodes 1).table.isMaster, (c.nodes 2).table.isMaster)) = some (true, true) := by
  decide +kernel

set_option maxRecDepth 10000 in
/-- When `b` is told of `c`, every election is informed, and `c` is the only master. -/
theorem one_master_acb : ∃ c, (machine peer).exec start (inStep acb) = some c ∧
    (c.nodes 2).table.isMaster = true ∧
    ∀ i, (c.nodes i).table.isMaster = true → i = 2 := by
  have hok : (machine peer).StepsOk Informed start (inStep acb) := by decide +kernel
  have hrun : ((machine peer).exec start (inStep acb)).map
      (fun c => (c.nodes 2).table.isMaster) = some true := by decide +kernel
  obtain ⟨c, hc, hmaster⟩ := Option.map_eq_some_iff.mp hrun
  exact ⟨c, hc, hmaster, fun i hi => one_master ((Machine.ReachWhere.init start_init).exec hok hc)
    i 2 hi hmaster⟩

end Zapdos.Hrpc.ElectionRounds
