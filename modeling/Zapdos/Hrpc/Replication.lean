/-
  Replication of one master to one slave, over every interleaving.

  The master runs any number of commits at once, each cut into its atomic steps: take the next log
  id, write the log entry, write the records, push to the last slave.  The slave pulls with a limit
  of its choice (`R_TRANSLOG`), receives pushed transactions (`R_BUFFTRANS`), and applies both.  The
  steps of the two nodes interleave freely; messages may be lost, and a push may arrive late, out of
  order or more than once.  No write fails, but the search index of either node may refuse documents,
  and an exception of `AddToCache` ends the loop that commits.

  THE CRUX.  A commit of the master leaves a hole in its log between taking an id and writing the
  entry, and later ids may be written before the hole is filled.  `ReadLog` stops at the first hole,
  so what it sends always continues the slave's log without a gap, and the entries of the master
  never change once written: the slave's log is a prefix of the master's at all times (`RInv`).
-/
import Zapdos.Lib.Runs
import Zapdos.Hrpc.SyncServer

namespace Zapdos.Hrpc.Replication

open Zapdos.Lib Zapdos.Store

/-- How far a commit of the master has got. -/
inductive Stage
  | numbered | logged | written
  deriving DecidableEq, Repr

/-- A master, a slave, and what is between them. -/
structure Cluster where
  master : SharedTable
  slave : SharedTable
  /-- the commits of the master that have begun, by log id -/
  inflight : Nat → Option (Stage × TransactionT)
  /-- the pushes sent so far -/
  pushes : List TransactionT
  /-- the pull on its way to the master -/
  request : Option TransListT
  /-- the answer on its way to the slave -/
  answer : Option TransListT

/-- One step of one of the nodes or of the network. -/
inductive Label
  | begin (items : List TransItemT) (updater : Bytes) (now : Nat)
  | writeLog (id : Nat)
  | writeData (id : Nat)
  | finish (id : Nat) (pushOk : Bool) (indexFails : Option Nat)
  | deliver (t : TransactionT)
  | drain (indexFails : Nat → Option Nat)
  | pull (limit now : Nat)
  | serve (now : Nat)
  | lose
  | apply (indexFails : Nat → Option Nat)

/-- What the outside answers to the commits of a loop: the row from which on the search index refuses
    documents. -/
def indexAnswers (indexFails : Nat → Option Nat) : Nat → CommitEnv :=
  fun n => { indexFails := indexFails n }

theorem writesOk_indexAnswers (indexFails : Nat → Option Nat) : WritesOk (indexAnswers indexFails) :=
  fun _ => ⟨rfl, rfl⟩

/-- One step. -/
def step (c : Cluster) : Label → Option Cluster
  | .begin items updater now =>
    if items = [] then some c
    else
      let (id, m) := c.master.logcounterGetNext
      let t := stamp now { item := items, updater := updater } true id
      some { c with master := m, inflight := Function.update c.inflight id (some (.numbered, t)) }
  | .writeLog id =>
    match c.inflight id with
    | some (.numbered, t) =>
      some { c with
        master := { c.master with logdb := c.master.logdb.write (logBatch t) }
        inflight := Function.update c.inflight id (some (.logged, t)) }
    | _ => none
  | .writeData id =>
    match c.inflight id with
    | some (.logged, t) =>
      some { c with
        master := { c.master with maindb := c.master.maindb.write (dataBatch t.item) }
        inflight := Function.update c.inflight id (some (.written, t)) }
    | _ => none
  | .finish id pushOk indexFails =>
    match c.inflight id with
    | some (.written, t) =>
      let out := commitTail c.master t true { pushOk := pushOk, indexFails := indexFails }
      some { c with
        master := out.table
        inflight := Function.update c.inflight id none
        pushes := c.pushes ++ (out.push.map Push.trans).toList }
    | _ => none
  | .deliver t =>
    if t ∈ c.pushes then
      match bufftransHandler c.slave t with
      | .ok s => some { c with slave := s }
      | .error _ => some c
    else none
  | .drain indexFails =>
    if c.request = none ∧ c.answer = none then
      some { c with slave := (drainTransactions c.slave (indexAnswers indexFails)).1 }
    else none
  | .pull limit now =>
    if c.request = none ∧ c.answer = none then
      some { c with request := some (pullRequest c.slave limit now) }
    else none
  | .serve now =>
    match c.request with
    | some r =>
      match translogHandler c.master r now with
      | .ok (data, m) => some { c with master := m, request := none, answer := some data }
      | .error _ => some { c with request := none }
    | none => none
  | .lose => some { c with request := none, answer := none }
  | .apply indexFails =>
    match c.answer with
    | some data =>
      some { c with
        slave := (applyPull (indexAnswers indexFails) c.slave data.trans).1
        answer := none }
    | none => none

/-- A run starts with the slave's log a prefix of the master's, the slave's data the replay of its
    log over `base`, and nothing under way. -/
def machine (base : DataDb) : Machine Cluster Label where
  init c := c.master.isMaster = true ∧ c.slave.isMaster = false ∧
    c.slave.transactions = OrdMap.empty ∧ (∀ id, c.inflight id = none) ∧ c.pushes = [] ∧
    c.request = none ∧ c.answer = none ∧
    ∃ g, HoldsEntries c.master.logdb g ∧ NumLog.UpTo g c.master.logcounter ∧ Clean g ∧
      Follows base c.slave g
  step := step

/-! ## The invariant -/

/-- What holds between the two nodes, with `g` the entries the master has written so far. -/
structure RInv (base : DataDb) (c : Cluster) (g : NumLog TransactionT) : Prop where
  holds : HoldsEntries c.master.logdb g
  clean : Clean g
  below : NumLog.Below g c.master.logcounter
  zero : g 0 = none
  masterRole : c.master.isMaster = true
  slaveRole : c.slave.isMaster = false
  inflight : ∀ id s t, c.inflight id = some (s, t) →
    0 < id ∧ id ≤ c.master.logcounter ∧ t.id = id ∧ t.item ≠ [] ∧ t.notfound = false ∧
      (s = .numbered → g id = none) ∧ (s ≠ .numbered → g id = some t)
  follows : Follows base c.slave g
  pushes : ∀ t ∈ c.pushes, g t.id = some t
  pushed : ∀ i t, c.slave.transactions.get i = some t → g i = some t
  request : ∀ r, c.request = some r → r.trans = []
  answer : ∀ r, c.answer = some r → ∀ t ∈ r.trans, g t.id = some t

theorem mem_contig {f : NumLog TransactionT} (hf : Clean f) {l n : Nat} {t : TransactionT}
    (h : t ∈ contig f l n) : f t.id = some t := by
  induction n generalizing l with
  | zero => cases h
  | succ n ih =>
    rw [contig] at h
    cases hl : f (l + 1) with
    | none =>
      rw [hl] at h
      cases h
    | some u =>
      rw [hl] at h
      rcases List.mem_cons.mp h with rfl | h
      · rw [(hf _ _ hl).1, hl]
      · exact ih h

/-- Whatever the master answers to a pull are entries it has written. -/
theorem translogHandler_spec {st : SharedTable} {g : NumLog TransactionT}
    (hg : HoldsEntries st.logdb g) (hc : Clean g) {r d : TransListT} {now : Nat}
    {st' : SharedTable} (hr : r.trans = []) (h : translogHandler st r now = .ok (d, st')) :
    SameStore st st' ∧ ∀ t ∈ d.trans, g t.id = some t := by
  rw [translogHandler] at h
  by_cases hgt : r.lastid > st.logcounter
  · rw [if_pos hgt] at h
    cases h
  · rw [if_neg hgt] at h
    by_cases heq : r.lastid = st.logcounter
    · rw [if_pos heq] at h
      cases h
      refine ⟨?_, fun t ht => ?_⟩
      · by_cases hl : st.lastslave = []
        · rw [if_pos hl]
          exact ⟨rfl, rfl, rfl, rfl, rfl, rfl, rfl, rfl⟩
        · rw [if_neg hl]
          exact SameStore.refl st
      · simp [hr] at ht
    · rw [if_neg heq] at h
      cases hrl : readLog st r now with
      | error e =>
        rw [hrl] at h
        cases h
      | ok out =>
        rw [hrl] at h
        cases h
        obtain ⟨-, -, -, htrans, -⟩ := readLog_spec hg r now hrl hr
        refine ⟨SameStore.refl st, fun t ht => ?_⟩
        rw [htrans heq] at ht
        exact mem_contig hc ht

theorem rinv_init {base : DataDb} {c : Cluster} (h : (machine base).init c) :
    ∃ g, RInv base c g := by
  obtain ⟨hm, hs, htr, hin, hp, hreq, hans, g, hg, hup, hclean, hfol⟩ := h
  refine ⟨g, hg, hclean, hup.below, hup.zero, hm, hs, ?_, hfol, ?_, ?_, ?_, ?_⟩
  · intro id s t hi
    rw [hin id] at hi
    cases hi
  · intro t ht
    rw [hp] at ht
    cases ht
  · intro i t hi
    rw [htr] at hi
    cases hi
  · intro r hr
    rw [hreq] at hr
    cases hr
  · intro r hr
    rw [hans] at hr
    cases hr

section Steps

variable {base : DataDb} {c : Cluster} {g : NumLog TransactionT}

/-- A new commit takes an id above every entry and every commit under way. -/
theorem rinv_begin (h : RInv base c g) (items : List TransItemT) (updater : Bytes) (now : Nat)
    (hitem : items ≠ []) :
    RInv base { c with
      master := { c.master with logcounter := c.master.logcounter + 1 }
      inflight := Function.update c.inflight (c.master.logcounter + 1)
        (some (.numbered, stamp now { item := items, updater := updater } true
          (c.master.logcounter + 1))) } g := by
  refine ⟨h.holds, h.clean, fun i hi => h.below i (Nat.lt_of_succ_lt hi), h.zero,
    h.masterRole, h.slaveRole, ?_, h.follows, h.pushes, h.pushed, h.request, h.answer⟩
  intro id s t hi
  by_cases hid : id = c.master.logcounter + 1
  · subst hid
    simp only [Function.update_self, Option.some.injEq, Prod.mk.injEq] at hi
    obtain ⟨rfl, rfl⟩ := hi
    refine ⟨Nat.succ_pos _, le_rfl, by simp, by simpa using hitem, by simp,
      fun _ => h.below _ (Nat.lt_succ_self _), fun hne => absurd rfl hne⟩
  · have hi' : c.inflight id = some (s, t) := by simpa [Function.update_of_ne hid] using hi
    obtain ⟨h1, h2, h3⟩ := h.inflight id s t hi'
    exact ⟨h1, Nat.le_succ_of_le h2, h3⟩

/-- Writing the log entry of a commit fills the hole its id had left. -/
theorem rinv_writeLog (h : RInv base c g) {id : Nat} {t : TransactionT}
    (hin : c.inflight id = some (.numbered, t)) :
    RInv base { c with
      master := { c.master with logdb := c.master.logdb.write (logBatch t) }
      inflight := Function.update c.inflight id (some (.logged, t)) }
      (Function.update g id (some t)) := by
  obtain ⟨hpos, hle, hid, hitem, hnf, hnone, -⟩ := h.inflight id _ t hin
  have hg : g id = none := hnone rfl
  have hkeep : ∀ {i : Nat} {u : TransactionT}, g i = some u →
      Function.update g id (some t) i = some u := by
    intro i u hu
    have hne : i ≠ id := fun e => by
      rw [e, hg] at hu
      cases hu
    rw [Function.update_of_ne hne, hu]
  refine ⟨?_, ?_, ?_, ?_, h.masterRole, h.slaveRole, ?_, ?_, fun u hu => hkeep (h.pushes u hu),
    fun i u hu => hkeep (h.pushed i u hu), h.request,
    fun r hr u hu => hkeep (h.answer r hr u hu)⟩
  · have := h.holds.write t (by omega)
    rwa [hid] at this
  · intro i u hu
    by_cases hi : i = id
    · rw [hi, Function.update_self] at hu
      rw [← Option.some.inj hu]
      exact ⟨hid.trans hi.symm, hitem, hnf⟩
    · rw [Function.update_of_ne hi] at hu
      exact h.clean i u hu
  · intro i hi
    have hi' : c.master.logcounter < i := hi
    rw [Function.update_of_ne (by omega)]
    exact h.below i hi'
  · rw [Function.update_of_ne (by omega), h.zero]
  · intro i s u hu
    by_cases hi : i = id
    · subst hi
      simp only [Function.update_self, Option.some.injEq, Prod.mk.injEq] at hu
      obtain ⟨rfl, rfl⟩ := hu
      exact ⟨hpos, hle, hid, hitem, hnf, nofun, fun _ => Function.update_self ..⟩
    · have hu' : c.inflight i = some (s, u) := by simpa [Function.update_of_ne hi] using hu
      obtain ⟨h1, h2, h3, h4, h5, h6, h7⟩ := h.inflight i s u hu'
      refine ⟨h1, h2, h3, h4, h5, fun e => ?_, fun e => ?_⟩
      · rw [Function.update_of_ne hi]
        exact h6 e
      · rw [Function.update_of_ne hi]
        exact h7 e
  · obtain ⟨f, hf, hagree⟩ := h.follows
    exact ⟨f, hf, hagree.update_right hf.upTo hg⟩

/-- Writing the records of a commit touches neither log. -/
theorem rinv_writeData (h : RInv base c g) {id : Nat} {t : TransactionT}
    (hin : c.inflight id = some (.logged, t)) :
    RInv base { c with
      master := { c.master with maindb := c.master.maindb.write (dataBatch t.item) }
      inflight := Function.update c.inflight id (some (.written, t)) } g := by
  refine ⟨h.holds, h.clean, h.below, h.zero, h.masterRole, h.slaveRole, ?_, h.follows, h.pushes, h.pushed,
    h.request, h.answer⟩
  intro i s u hu
  by_cases hi : i = id
  · subst hi
    simp only [Function.update_self, Option.some.injEq, Prod.mk.injEq] at hu
    obtain ⟨rfl, rfl⟩ := hu
    obtain ⟨h1, h2, h3, h4, h5, _, h7⟩ := h.inflight i _ t hin
    exact ⟨h1, h2, h3, h4, h5, nofun, fun _ => h7 (by decide)⟩
  · exact h.inflight i s u (by simpa [Function.update_of_ne hi] using hu)

/-- The end of a commit pushes an entry that is in the log. -/
theorem rinv_finish (h : RInv base c g) {id : Nat} {t : TransactionT}
    (hin : c.inflight id = some (.written, t)) (env : CommitEnv) :
    RInv base { c with
      master := (commitTail c.master t true env).table
      inflight := Function.update c.inflight id none
      pushes := c.pushes ++ ((commitTail c.master t true env).push.map Push.trans).toList } g := by
  obtain ⟨-, -, hid, -, -, -, hlogged⟩ := h.inflight id _ t hin
  have hsame := commitTail_same c.master t true env
  refine ⟨?_, h.clean, ?_, h.zero, ?_, h.slaveRole, ?_, h.follows, ?_, h.pushed, h.request, h.answer⟩
  · rw [hsame.logdb]
    exact h.holds
  · rw [hsame.logcounter]
    exact h.below
  · rw [hsame.isMaster]
    exact h.masterRole
  · intro i s u hu
    by_cases hi : i = id
    · subst hi
      simp at hu
    · rw [hsame.logcounter]
      exact h.inflight i s u (by simpa [Function.update_of_ne hi] using hu)
  · intro u hu
    rcases List.mem_append.mp hu with hu | hu
    · exact h.pushes u hu
    · have hut : u = t := by
        rw [commitTail] at hu
        split at hu
        · simpa using hu
        · simp at hu
      rw [hut, hid]
      exact hlogged (by decide)

/-- A pushed transaction waits at the slave under its own id. -/
theorem rinv_deliver (h : RInv base c g) {t : TransactionT} (ht : t ∈ c.pushes) :
    RInv base { c with
      slave := { c.slave with transactions := c.slave.transactions.put t.id t } } g := by
  refine ⟨h.holds, h.clean, h.below, h.zero, h.masterRole, h.slaveRole, h.inflight, ?_, h.pushes, ?_,
    h.request, h.answer⟩
  · obtain ⟨f, hf, hagree⟩ := h.follows
    exact ⟨f, ⟨hf.holds, hf.upTo, hf.clean, hf.data⟩, hagree⟩
  · intro i u hu
    simp only [OrdMap.get_put] at hu
    split at hu
    · rename_i hi
      rw [hi, ← Option.some.inj hu]
      exact h.pushes t ht
    · exact h.pushed i u hu

/-- The slave applies what was pushed to it. -/
theorem rinv_drain (h : RInv base c g) {indexFails : Nat → Option Nat} {c' : Cluster}
    (hs : step c (.drain indexFails) = some c') : RInv base c' g := by
  simp only [step] at hs
  split at hs
  · cases hs
    have hfol := drainTransactions_follows (indexAnswers indexFails) h.follows
    rw [drainTransactions_eq] at hfol ⊢
    refine ⟨h.holds, h.clean, h.below, h.zero, h.masterRole, h.slaveRole, h.inflight, hfol,
      h.pushes, ?_, h.request, h.answer⟩
    -- the buffer is empty afterwards
    intro i t ht
    cases ht
  · cases hs

/-- The slave asks for a window. -/
theorem rinv_pull (h : RInv base c g) {limit now : Nat} {c' : Cluster}
    (hs : step c (.pull limit now) = some c') : RInv base c' g := by
  simp only [step] at hs
  split at hs
  · cases hs
    refine ⟨h.holds, h.clean, h.below, h.zero, h.masterRole, h.slaveRole, h.inflight, h.follows,
      h.pushes, h.pushed, ?_, h.answer⟩
    intro r hr
    cases hr
    rfl
  · cases hs

/-- The master answers with entries of its log, or not at all. -/
theorem rinv_serve (h : RInv base c g) {now : Nat} {c' : Cluster}
    (hs : step c (.serve now) = some c') : RInv base c' g := by
  simp only [step] at hs
  split at hs
  · rename_i r hr
    split at hs
    · rename_i data m hok
      cases hs
      obtain ⟨hsame, hdata⟩ := translogHandler_spec h.holds h.clean (h.request r hr) hok
      refine ⟨hsame.logdb ▸ h.holds, h.clean, hsame.logcounter ▸ h.below, h.zero,
        hsame.isMaster.trans h.masterRole, h.slaveRole, hsame.logcounter ▸ h.inflight, h.follows,
        h.pushes, h.pushed, fun r hr => (Option.some_ne_none r hr.symm).elim, ?_⟩
      intro r' hr'
      cases hr'
      exact hdata
    · cases hs
      exact ⟨h.holds, h.clean, h.below, h.zero, h.masterRole, h.slaveRole, h.inflight, h.follows,
        h.pushes, h.pushed, fun r hr => (Option.some_ne_none r hr.symm).elim, h.answer⟩
  · cases hs

/-- A request or an answer is lost. -/
theorem rinv_lose (h : RInv base c g) : RInv base { c with request := none, answer := none } g :=
  ⟨h.holds, h.clean, h.below, h.zero, h.masterRole, h.slaveRole, h.inflight, h.follows,
    h.pushes, h.pushed, fun r hr => (Option.some_ne_none r hr.symm).elim,
    fun d hd => (Option.some_ne_none d hd.symm).elim⟩

/-- The slave applies what it has pulled. -/
theorem rinv_apply (h : RInv base c g) {indexFails : Nat → Option Nat} {c' : Cluster}
    (hs : step c (.apply indexFails) = some c') : RInv base c' g := by
  simp only [step] at hs
  split at hs
  · rename_i data hans
    cases hs
    obtain ⟨h1, h2, h3⟩ := applyPull_follows h.clean data.trans
      (writesOk_indexAnswers indexFails) h.follows (h.answer data hans)
    exact ⟨h.holds, h.clean, h.below, h.zero, h.masterRole, h2.trans h.slaveRole, h.inflight, h1,
      h.pushes, fun i t ht => h.pushed i t (by rwa [h3] at ht), h.request,
      fun d hd => (Option.some_ne_none d hd.symm).elim⟩
  · cases hs

end Steps

/-- **The step lemma.** -/
theorem rinv_step {base : DataDb} {c c' : Cluster} {l : Label}
    (hi : ∃ g, RInv base c g) (hs : step c l = some c') : ∃ g, RInv base c' g := by
  obtain ⟨g, h⟩ := hi
  cases l with
  | begin items updater now =>
    simp only [step, SharedTable.logcounterGetNext] at hs
    split at hs
    · cases hs
      exact ⟨g, h⟩
    · rename_i hitem
      cases hs
      exact ⟨g, rinv_begin h items updater now hitem⟩
  | writeLog id =>
    simp only [step] at hs
    split at hs
    · rename_i t hin
      cases hs
      exact ⟨_, rinv_writeLog h hin⟩
    · cases hs
  | writeData id =>
    simp only [step] at hs
    split at hs
    · rename_i t hin
      cases hs
      exact ⟨g, rinv_writeData h hin⟩
    · cases hs
  | finish id pushOk indexFails =>
    simp only [step] at hs
    split at hs
    · rename_i t hin
      cases hs
      exact ⟨g, rinv_finish h hin { pushOk := pushOk, indexFails := indexFails }⟩
    · cases hs
  | deliver t =>
    simp only [step] at hs
    split at hs
    · rename_i ht
      rw [bufftransHandler, if_neg (by rw [h.slaveRole]; decide)] at hs
      cases hs
      exact ⟨g, rinv_deliver h ht⟩
    · cases hs
  | drain indexFails => exact ⟨g, rinv_drain h hs⟩
  | pull limit now => exact ⟨g, rinv_pull h hs⟩
  | serve now => exact ⟨g, rinv_serve h hs⟩
  | lose =>
    cases hs
    exact ⟨g, rinv_lose h⟩
  | apply indexFails => exact ⟨g, rinv_apply h hs⟩

theorem rinv_reach {base : DataDb} {c : Cluster} (h : (machine base).Reach c) :
    ∃ g, RInv base c g :=
  h.invariant (fun _ => rinv_init) (fun _ _ _ hi _ hs => rinv_step hi hs)

/-! ## Replication safety -/

/-- The slave is a correct replica: its log has every id from `1` to its log counter exactly once
    and no other, with the master's entries (same id, timestamp and items); its data is the replay
    of its log over `base`; and `CompareLog` accepts it. -/
structure Replica (base : DataDb) (master slave : SharedTable) : Prop where
  ids : ∀ i, (entryAt slave i).isSome = true ↔ 0 < i ∧ i ≤ slave.logcounter
  numbered : ∀ i t, entryAt slave i = some t → t.id = i
  sameEntry : ∀ i, 0 < i → i ≤ slave.logcounter → entryAt slave i = entryAt master i
  data : slave.maindb = NumLog.replay applyItems (entryAt slave) base slave.logcounter
  accepted : compareLog slave master = .ok true

theorem replica_of_follows {base : DataDb} {master slave : SharedTable} {g : NumLog TransactionT}
    (hg : HoldsEntries master.logdb g) (hz : g 0 = none) (hfol : Follows base slave g) :
    Replica base master slave := by
  obtain ⟨f, hf, hagree⟩ := hfol
  have hslave : entryAt slave = f := funext (entryAt_of_holds hf.holds hf.upTo.zero)
  refine ⟨?_, ?_, ?_, ?_, compareLog_follows ⟨f, hf, hagree⟩ hg⟩
  · rw [hslave]
    exact hf.upTo
  · rw [hslave]
    exact hf.holds.numbered
  · intro i hpos hle
    rw [hslave, hagree i hpos hle, entryAt_of_holds hg hz]
  · rw [hslave]
    exact hf.data

/-- **Replication safety.**  In every state of every run of a master and a slave, the slave is a
    correct replica of a prefix of the master's log. -/
theorem replication_safety (base : DataDb) {c : Cluster} (h : (machine base).Reach c) :
    Replica base c.master c.slave := by
  obtain ⟨g, hinv⟩ := rinv_reach h
  exact replica_of_follows hinv.holds hinv.zero hinv.follows

/-- A log with its fence and no entry. -/
def emptyLog : LogDb := OrdMap.empty.put (encodePrimaryKey kLognode 0) .blank

theorem holdsEntries_empty : HoldsEntries emptyLog (fun _ => none) := by
  refine ⟨rfl, fun i hi => ?_, nofun, fun k v hk _ => ?_⟩
  · have hne : encodePrimaryKey kLognode i ≠ encodePrimaryKey kLognode 0 := fun he =>
      Nat.ne_of_gt hi (by simpa [encodePrimaryKey] using he)
    rw [emptyLog, OrdMap.get_put_ne _ hne]
    rfl
  · rw [emptyLog, OrdMap.get_put] at hk
    split at hk
    · rename_i he
      exact ⟨0, he⟩
    · cases hk

/-- A master and a slave that have just been set up. -/
def newCluster : Cluster where
  master := { isMaster := true, logdb := emptyLog }
  slave := { thisurl := str "b", logdb := emptyLog }
  inflight := fun _ => none
  pushes := []
  request := none
  answer := none

theorem newCluster_init : (machine OrdMap.empty).init newCluster :=
  ⟨rfl, rfl, rfl, fun _ => rfl, rfl, rfl, rfl, fun _ => none, holdsEntries_empty,
    NumLog.upTo_blank (fun _ => rfl), nofun, fun _ => none,
    ⟨holdsEntries_empty, NumLog.upTo_blank (fun _ => rfl), nofun, rfl⟩, fun _ _ _ => rfl⟩

/-- The master commits one row while the slave is pulling, and the slave applies it. -/
def firstPull : List Label :=
  [.begin [{ key := encodePrimaryKey kUserdata 2, value := .user { id := 2 } }] [] 7,
    .writeLog 1, .pull 5 8, .serve 9, .writeData 1, .apply fun _ => none]

/-- One pull brings the slave to the end of the master's log. -/
theorem replication_safety_firstPull : ∃ c, (machine OrdMap.empty).exec newCluster firstPull = some c ∧
    c.slave.logcounter = 1 ∧ Replica OrdMap.empty c.master c.slave := by
  have h : ∃ c, (machine OrdMap.empty).exec newCluster firstPull = some c ∧
      c.slave.logcounter = 1 := ⟨_, rfl, rfl⟩
  obtain ⟨c, hc, hn⟩ := h
  exact ⟨c, hc, hn, replication_safety OrdMap.empty (Machine.Reach.of_exec newCluster_init hc)⟩

end Zapdos.Hrpc.Replication
