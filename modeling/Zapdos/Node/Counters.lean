/-
  The counter for record ids over restarts, replication and promotion.

  `maincounter` is set from the greatest record id when a node starts, and moves on only when
  `GetNext` gives out an id.  Ids are given out on a master; a slave writes records under the ids its
  master gave out.

  THE CRUX.  A commit as slave does not touch `maincounter`, and `MasterUpdate` makes a slave a master
  with the counter it has.  So the counter of a promoted node covers the records it found when it
  started, but not those it received since (`slave_reuses_id`).  Where every received record that is
  still there is covered at the moment of promotion, no id is ever given out twice
  (`record_ids_fresh`), and only there (`promoted_iff`).
-/
import Zapdos.Lib.Runs
import Zapdos.Hrpc.RemoteKeeper
import Zapdos.Store.RecordKinds

namespace Zapdos.Node.Counters

open Zapdos.Lib Zapdos.Store Zapdos.Hrpc

/-- A node with what has happened to ids since it started. -/
structure NodeState where
  st : SharedTable
  /-- ids `maincounter.GetNext` gave out and no transaction has used yet -/
  given : List Nat := []
  /-- keys of the rows of the transactions committed as slave -/
  replicated : List Key := []

/-- The id in the key of a record. -/
def idOf : Key → Option Nat
  | .primary _ id => some id
  | .secondary _ _ => none

/-- What a node does. -/
inductive Label
  /-- `maincounter.GetNext`, for a new record -/
  | getNext
  /-- a commit as master -/
  | commit (t : TransactionT) (now : Nat) (env : CommitEnv)
  /-- a commit as slave -/
  | replicate (t : TransactionT) (env : CommitEnv)
  | masterUpdate (cutoff : Nat) (registerOk : Nat → Bool)
  /-- the process stops, and starts again on its databases -/
  | restart (noXapian isMaster : Bool) (master : Bytes)

/-- The rows of a transaction of the master: a record is stored already, or has an id that was given
    out for it. -/
def Covered (n : NodeState) (items : List TransItemT) : Prop :=
  ∀ i ∈ items, (n.st.maindb.get i.key).isSome = true ∨ ∀ id ∈ idOf i.key, id ∈ n.given

instance (n : NodeState) (items : List TransItemT) : Decidable (Covered n items) :=
  inferInstanceAs (Decidable (∀ i ∈ items, _ ∨ _))

/-- The ids a transaction uses. -/
def usedIds (items : List TransItemT) : List Nat := items.filterMap fun i => idOf i.key

/-- A node that has just started. -/
def started (st : SharedTable) : NodeState := { st := st }

/-- One step. -/
def step (n : NodeState) : Label → Option NodeState
  | .getNext =>
    if n.st.isMaster then
      some { n with
        st := n.st.maincounterGetNext.2, given := n.st.maincounterGetNext.1 :: n.given }
    else none
  | .commit t now env =>
    if n.st.isMaster = true ∧ TableRows t.item ∧ Covered n t.item then
      some { n with
        st := (Store.commit n.st now t true env).table
        given := n.given.filter (· ∉ usedIds t.item) }
    else none
  | .replicate t env =>
    if n.st.isMaster = false ∧ TableRows t.item then
      some { n with
        st := (Store.commit n.st 0 t false env).table
        replicated := n.replicated ++ t.item.map TransItemT.key }
    else none
  | .masterUpdate cutoff registerOk =>
    -- `SyncFromMaster` runs on slaves only
    if n.st.isMaster then none
    else some { n with st := Hrpc.masterUpdate n.st cutoff registerOk }
  | .restart noXapian isMaster master =>
    match workServerInit { n.st with noXapian := noXapian } isMaster master with
    | .ok st => some (started st)
    | .error _ => none

/-- Runs begin with a start on any databases. -/
def machine : Machine NodeState Label where
  init n := ∃ st isMaster master st', WellKeyed st.maindb ∧ WellKeyed st.logdb ∧
    workServerInit st isMaster master = .ok st' ∧ n = started st'
  step := step

/-- The record `id` of a type is stored. -/
def HasRecord (db : DataDb) (kt : KeyTypeE) (id : Nat) : Prop :=
  (kNonode < kt ∧ kt < kLognode) ∧ (db.get (encodePrimaryKey kt id)).isSome = true

/-- The next id is above every stored record. -/
def NextIsFresh (st : SharedTable) : Prop :=
  ∀ kt id, HasRecord st.maindb kt id → id < st.maincounterGetNext.1

/-- Every record received since the start, if it is still there, is within the counter. -/
def ReceivedWithin (n : NodeState) : Prop :=
  ∀ kt id, encodePrimaryKey kt id ∈ n.replicated → HasRecord n.st.maindb kt id →
    id ≤ n.st.maincounter

/-- A slave that elects itself has its received records within the counter. -/
def InCounter (n : NodeState) : Label → Prop
  | .masterUpdate cutoff _ => (elect n.st cutoff).url = n.st.thisurl → ReceivedWithin n
  | _ => True

/-! ## The functions of a step -/

/-- A start finds every record id. -/
theorem workServerInit_counter {st st' : SharedTable} {isMaster : Bool} {master : Bytes}
    (hmain : WellKeyed st.maindb) (hlog : WellKeyed st.logdb)
    (h : workServerInit st isMaster master = .ok st') :
    Fenced st'.maindb ∧ Fenced st'.logdb ∧ st'.isMaster = isMaster ∧
      ∀ kt id, HasRecord st'.maindb kt id → id ≤ st'.maincounter := by
  obtain ⟨p, l, hopen, -, -, hmax⟩ := storeInitialize_spec hmain hlog
  rw [workServerInit, hopen] at h
  cases h
  refine ⟨fenced_putFences DataV.blank hmain, fenced_putFences LogV.blank hlog, rfl, ?_⟩
  rintro kt id ⟨⟨hlo, hhi⟩, hrow⟩
  have hp : id ≤ p := hmax kt hlo.le hhi id hrow
  show id ≤ if p > 0 then p else 1
  split <;> omega

/-- What a commit leaves of the store, whatever the outside answers. -/
structure CommitEffect (st st' : SharedTable) (e t : TransactionT) : Prop where
  maincounter : st'.maincounter = st.maincounter
  isMaster : st'.isMaster = st.isMaster
  logdb : st'.logdb = st.logdb ∨ st'.logdb = st.logdb.write (logBatch e)
  maindb : st'.maindb = st.maindb ∨ st'.maindb = applyItems st.maindb t

/-- A commit as master or slave. -/
theorem commit_effect (st : SharedTable) (now : Nat) (t : TransactionT) (isMaster : Bool)
    (env : CommitEnv) :
    CommitEffect st (Store.commit st now t isMaster env).table
      (stamp now t isMaster (st.logcounter + 1)) t := by
  obtain ⟨st₁, hsame, htable, -, -⟩ := commit_body st now t isMaster env
  have hbody := commitBody_cases st₁ now t isMaster env
  generalize commitBody st₁ now t isMaster env = out at hbody htable
  rw [← hsame.logcounter]
  -- what the body leaves, and what is around it
  have heffect : CommitEffect st₁ out.table (stamp now t isMaster (st₁.logcounter + 1)) t := by
    cases hbody with
    | empty _ => exact ⟨rfl, rfl, Or.inl rfl, Or.inl rfl⟩
    | noLog _ _ => exact ⟨rfl, rfl, Or.inl rfl, Or.inl rfl⟩
    | noData _ _ _ => exact ⟨rfl, rfl, Or.inr rfl, Or.inl rfl⟩
    | @done written _ _ _ hwritten =>
      have htail := commitTail_same written (stamp now t isMaster (st₁.logcounter + 1)) isMaster env
      subst hwritten
      exact ⟨htail.maincounter, htail.isMaster, Or.inr htail.logdb, Or.inr htail.maindb⟩
  refine ⟨?_, ?_, ?_, ?_⟩
  · rw [htable.maincounter, heffect.maincounter, hsame.maincounter]
  · rw [htable.isMaster, heffect.isMaster, hsame.isMaster]
  · rw [htable.logdb, ← hsame.logdb]
    exact heffect.logdb
  · rw [htable.maindb, ← hsame.maindb]
    exact heffect.maindb

/-- A commit of rows of tables keeps the fences. -/
theorem CommitEffect.fenced {st st' : SharedTable} {e t : TransactionT}
    (h : CommitEffect st st' e t) (hid : 0 < e.id) (hrows : TableRows t.item)
    (hmain : Fenced st.maindb) (hlog : Fenced st.logdb) :
    Fenced st'.maindb ∧ Fenced st'.logdb := by
  constructor
  · rcases h.maindb with he | he
    · rw [he]
      exact hmain
    · rw [he]
      exact hmain.applyItems hrows
  · rcases h.logdb with he | he
    · rw [he]
      exact hlog
    · rw [he]
      exact hlog.logBatch e hid

/-- A record that is there after a commit was there before, or is one of its rows. -/
theorem CommitEffect.record {st st' : SharedTable} {e t : TransactionT}
    (h : CommitEffect st st' e t) {kt id : Nat} (hrec : HasRecord st'.maindb kt id) :
    HasRecord st.maindb kt id ∨ ∃ i ∈ t.item, i.key = encodePrimaryKey kt id := by
  obtain ⟨hkt, hrow⟩ := hrec
  rcases h.maindb with he | he
  · rw [he] at hrow
    exact Or.inl ⟨hkt, hrow⟩
  · rw [he] at hrow
    obtain ⟨v, hv⟩ := Option.isSome_iff_exists.mp hrow
    rcases get_applyItems_some hv with hold | hnew
    · exact Or.inl ⟨hkt, by rw [hold]; rfl⟩
    · exact Or.inr hnew

/-! ## The invariant -/

/-- What holds of ids in every state. -/
structure Inv (n : NodeState) : Prop where
  main : Fenced n.st.maindb
  log : Fenced n.st.logdb
  given_le : ∀ g ∈ n.given, g ≤ n.st.maincounter
  /-- an id that was given out is free -/
  free : ∀ g ∈ n.given, ∀ kt, ¬ HasRecord n.st.maindb kt g
  /-- ids are given out on a master only -/
  slave : n.st.isMaster = false → n.given = []
  master : n.st.isMaster = true → ∀ kt id, HasRecord n.st.maindb kt id → id ≤ n.st.maincounter
  /-- every record is within the counter or was received since the start -/
  received : ∀ kt id, HasRecord n.st.maindb kt id →
    id ≤ n.st.maincounter ∨ encodePrimaryKey kt id ∈ n.replicated

theorem inv_started {st st' : SharedTable} {isMaster : Bool} {master : Bytes}
    (hmain : WellKeyed st.maindb) (hlog : WellKeyed st.logdb)
    (h : workServerInit st isMaster master = .ok st') : Inv (started st') := by
  obtain ⟨hfm, hfl, -, hmax⟩ := workServerInit_counter hmain hlog h
  refine ⟨hfm, hfl, ?_, ?_, fun _ => rfl, fun _ => hmax, fun kt id hrec => Or.inl (hmax kt id hrec)⟩
  · intro g hg
    cases hg
  · intro g hg
    cases hg

theorem mem_usedIds {items : List TransItemT} {i : TransItemT} {kt id : Nat} (hi : i ∈ items)
    (hkey : i.key = encodePrimaryKey kt id) : id ∈ usedIds items :=
  List.mem_filterMap.mpr ⟨i, hi, by rw [hkey]; rfl⟩

theorem inv_getNext {n : NodeState} (h : Inv n) (hm : n.st.isMaster = true) :
    Inv { n with
      st := n.st.maincounterGetNext.2, given := n.st.maincounterGetNext.1 :: n.given } := by
  have hle := h.master hm
  refine ⟨h.main, h.log, ?_, ?_, fun hs => ?_, fun _ kt id hrec => ?_, fun kt id hrec => ?_⟩
  · intro g hg
    show g ≤ n.st.maincounter + 1
    rcases List.mem_cons.mp hg with rfl | hg
    · exact le_refl _
    · have := h.given_le g hg
      omega
  · intro g hg kt hrec
    rcases List.mem_cons.mp hg with rfl | hg
    · -- the counter is at or above every record
      have : n.st.maincounter + 1 ≤ n.st.maincounter := hle kt _ hrec
      omega
    · exact h.free g hg kt hrec
  · exact absurd (hs.symm.trans hm) Bool.false_ne_true
  · exact (hle kt id hrec).trans (Nat.le_succ _)
  · exact Or.inl ((hle kt id hrec).trans (Nat.le_succ _))

theorem inv_commit {n : NodeState} (h : Inv n) (hm : n.st.isMaster = true) {t : TransactionT}
    (hrows : TableRows t.item) (hcov : Covered n t.item) (now : Nat) (env : CommitEnv) :
    Inv { n with
      st := (Store.commit n.st now t true env).table
      given := n.given.filter (· ∉ usedIds t.item) } := by
  have heff := commit_effect n.st now t true env
  obtain ⟨hfm, hfl⟩ := heff.fenced (by rw [stamp_id]; omega) hrows h.main h.log
  -- a row of the transaction is a stored record, or has an id that was given out
  have hrow : ∀ kt id, kNonode < kt ∧ kt < kLognode →
      (∃ i ∈ t.item, i.key = encodePrimaryKey kt id) →
      HasRecord n.st.maindb kt id ∨ id ∈ n.given := by
    rintro kt id hkt ⟨i, hi, hkey⟩
    rcases hcov i hi with hold | hnew
    · rw [hkey] at hold
      exact Or.inl ⟨hkt, hold⟩
    · exact Or.inr (hnew id (by rw [hkey]; rfl))
  have hle : ∀ kt id, HasRecord (Store.commit n.st now t true env).table.maindb kt id →
      id ≤ n.st.maincounter := by
    intro kt id hrec
    rcases heff.record hrec with hold | hnew
    · exact h.master hm kt id hold
    · rcases hrow kt id hrec.1 hnew with hold | hgiven
      · exact h.master hm kt id hold
      · exact h.given_le id hgiven
  refine ⟨hfm, hfl, ?_, ?_, fun hs => ?_, fun _ kt id hrec => ?_, fun kt id hrec => ?_⟩
  · intro g hg
    show g ≤ (Store.commit n.st now t true env).table.maincounter
    rw [heff.maincounter]
    exact h.given_le g (List.mem_of_mem_filter hg)
  · intro g hg kt hrec
    obtain ⟨hgiven, hused⟩ := List.mem_filter.mp hg
    rcases heff.record hrec with hold | ⟨i, hi, hkey⟩
    · exact h.free g hgiven kt hold
    · exact of_decide_eq_true hused (mem_usedIds hi hkey)
  · rw [show (Store.commit n.st now t true env).table.isMaster = n.st.isMaster from heff.isMaster,
      hm] at hs
    cases hs
  · show id ≤ (Store.commit n.st now t true env).table.maincounter
    rw [heff.maincounter]
    exact hle kt id hrec
  · refine Or.inl ?_
    show id ≤ (Store.commit n.st now t true env).table.maincounter
    rw [heff.maincounter]
    exact hle kt id hrec

theorem inv_replicate {n : NodeState} (h : Inv n) (hm : n.st.isMaster = false) {t : TransactionT}
    (hrows : TableRows t.item) (env : CommitEnv) :
    Inv { n with
      st := (Store.commit n.st 0 t false env).table
      replicated := n.replicated ++ t.item.map TransItemT.key } := by
  have heff := commit_effect n.st 0 t false env
  obtain ⟨hfm, hfl⟩ := heff.fenced (by rw [stamp_id]; omega) hrows h.main h.log
  have hgiven := h.slave hm
  refine ⟨hfm, hfl, ?_, ?_, fun _ => hgiven, fun hs => ?_, fun kt id hrec => ?_⟩
  · intro g hg
    rw [hgiven] at hg
    cases hg
  · intro g hg
    rw [hgiven] at hg
    cases hg
  · rw [show (Store.commit n.st 0 t false env).table.isMaster = n.st.isMaster from heff.isMaster,
      hm] at hs
    cases hs
  · show id ≤ (Store.commit n.st 0 t false env).table.maincounter ∨ _
    rw [heff.maincounter, List.mem_append, ← or_assoc]
    rcases heff.record hrec with hold | ⟨i, hi, hkey⟩
    · exact Or.inl (h.received kt id hold)
    · exact Or.inr (List.mem_map.mpr ⟨i, hi, hkey⟩)

theorem inv_masterUpdate {n : NodeState} (h : Inv n) (hm : n.st.isMaster = false) {cutoff : Nat}
    (hin : (elect n.st cutoff).url = n.st.thisurl → ReceivedWithin n) (registerOk : Nat → Bool) :
    Inv { n with st := Hrpc.masterUpdate n.st cutoff registerOk } := by
  obtain ⟨hdb, hlog, hmain, -⟩ := masterUpdate_same n.st cutoff registerOk
  have hgiven := h.slave hm
  refine ⟨by rw [hdb]; exact h.main, by rw [hlog]; exact h.log, ?_, ?_, fun _ => hgiven, ?_, ?_⟩
  · intro g hg
    rw [hgiven] at hg
    cases hg
  · intro g hg
    rw [hgiven] at hg
    cases hg
  · intro hmaster kt id hrec
    have helected : (elect n.st cutoff).url = n.st.thisurl := by
      rcases (masterUpdate_isMaster n.st cutoff registerOk).mp hmaster with hs | he
      · rw [hm] at hs
        cases hs
      · exact he
    rw [hdb] at hrec
    rw [hmain]
    rcases h.received kt id hrec with hle | hrep
    · exact hle
    · exact hin helected kt id hrep hrec
  · intro kt id hrec
    rw [hdb] at hrec
    rw [hmain]
    exact h.received kt id hrec

/-- **The step lemma.** -/
theorem inv_step {n n' : NodeState} {l : Label} (h : Inv n) (hok : InCounter n l)
    (hs : step n l = some n') : Inv n' := by
  cases l with
  | getNext =>
    simp only [step] at hs
    split at hs
    · rename_i hm
      cases hs
      exact inv_getNext h hm
    · cases hs
  | commit t now env =>
    simp only [step] at hs
    split at hs
    · rename_i hg
      obtain ⟨hm, hrows, hcov⟩ := hg
      cases hs
      exact inv_commit h hm hrows hcov now env
    · cases hs
  | replicate t env =>
    simp only [step] at hs
    split at hs
    · rename_i hg
      cases hs
      exact inv_replicate h hg.1 hg.2 env
    · cases hs
  | masterUpdate cutoff registerOk =>
    simp only [step] at hs
    split at hs
    · cases hs
    · rename_i hm
      cases hs
      exact inv_masterUpdate h (Bool.not_eq_true _ ▸ hm) hok registerOk
  | restart noXapian isMaster master =>
    simp only [step] at hs
    split at hs
    · rename_i st hst
      cases hs
      have hmain : WellKeyed ({ n.st with noXapian := noXapian } : SharedTable).maindb := h.main.primary
      exact inv_started hmain h.log.primary hst
    · cases hs

theorem inv_reach {n : NodeState} (h : machine.ReachWhere InCounter n) : Inv n := by
  refine h.invariant ?_ (fun _ _ _ hi hok hs => inv_step hi hok hs)
  rintro n ⟨st, isMaster, master, st', hmain, hlog, hst, rfl⟩
  exact inv_started hmain hlog hst

/-- **Record ids are never reused** in a run in which every slave that elects itself has the records
    it received within its counter: the next id is above every stored record, and no record has an
    id that was given out for another. -/
theorem record_ids_fresh {n : NodeState} (h : machine.ReachWhere InCounter n)
    (hm : n.st.isMaster = true) :
    NextIsFresh n.st ∧ ∀ g ∈ n.given, ∀ kt, ¬ HasRecord n.st.maindb kt g := by
  have hi := inv_reach h
  refine ⟨fun kt id hrec => ?_, hi.free⟩
  show id < n.st.maincounter + 1
  exact Nat.lt_succ_of_le (hi.master hm kt id hrec)

/-- **Exactly these promotions.**  After an election a slave would give out fresh ids only if the
    records it received are within its counter. -/
theorem promoted_iff {n n' : NodeState} (h : machine.ReachWhere InCounter n) {cutoff : Nat}
    {registerOk : Nat → Bool} (hs : step n (.masterUpdate cutoff registerOk) = some n') :
    NextIsFresh n'.st ↔ ReceivedWithin n := by
  have hi := inv_reach h
  simp only [step] at hs
  split at hs
  · cases hs
  · cases hs
    obtain ⟨hdb, -, hmain, -⟩ := masterUpdate_same n.st cutoff registerOk
    have hnext : NextIsFresh (Hrpc.masterUpdate n.st cutoff registerOk) ↔
        ∀ kt id, HasRecord n.st.maindb kt id → id ≤ n.st.maincounter := by
      unfold NextIsFresh
      rw [hdb]
      refine forall₃_congr fun kt id _ => ?_
      show id < (Hrpc.masterUpdate n.st cutoff registerOk).maincounter + 1 ↔ _
      rw [hmain]
      exact Nat.lt_succ_iff
    rw [hnext]
    constructor
    · intro hall kt id _ hrec
      exact hall kt id hrec
    · intro hin kt id hrec
      rcases hi.received kt id hrec with hle | hrep
      · exact hle
      · exact hin kt id hrep hrec

/-! ## Requests as runs -/

/-- The tables agree on records, record counter and role. -/
structure SameRecords (a b : SharedTable) : Prop where
  maindb : a.maindb = b.maindb
  maincounter : a.maincounter = b.maincounter
  isMaster : a.isMaster = b.isMaster

/-- A step of a request on a master. -/
def OfRequest : Label → Prop
  | .getNext => True
  | .commit _ _ _ => True
  | _ => False

/-- `GetNext`, several times. -/
theorem exec_getNext {n : NodeState} (hm : n.st.isMaster = true) (j : Nat) :
    ∃ given, machine.exec n (List.replicate j .getNext) =
        some ⟨{ n.st with maincounter := n.st.maincounter + j }, given, n.replicated⟩ ∧
      (∀ id ∈ n.given, id ∈ given) ∧
      ∀ id, n.st.maincounter < id → id ≤ n.st.maincounter + j → id ∈ given := by
  induction j generalizing n with
  | zero => exact ⟨n.given, rfl, fun _ h => h, fun id h1 h2 => by omega⟩
  | succ j ih =>
    set n₁ : NodeState := ⟨n.st.maincounterGetNext.2, n.st.maincounterGetNext.1 :: n.given,
      n.replicated⟩ with hn₁
    have hstep : machine.step n .getNext = some n₁ := by
      show step n .getNext = _
      simp only [step, hm, if_true]
      rfl
    obtain ⟨given, hexec, hkeep, hnew⟩ := ih (n := n₁) hm
    have hcount : n₁.st.maincounter = n.st.maincounter + 1 := rfl
    refine ⟨given, ?_, fun id hid => hkeep id (List.mem_cons_of_mem _ hid), fun id h1 h2 => ?_⟩
    · rw [List.replicate_succ, Machine.exec, hstep, Option.bind_some, hexec, hcount,
        Nat.add_assoc, Nat.add_comm 1 j]
      rfl
    · -- the first id, or one of the others
      rcases Nat.lt_or_ge (n.st.maincounter + 1) id with hlt | hge
      · exact hnew id hlt (by omega)
      · have hid : id = n.st.maincounterGetNext.1 := Nat.le_antisymm hge h1
        exact hkeep id (hid ▸ List.mem_cons_self)

theorem master_commit_maindb {st : SharedTable} (hm : st.isMaster = true) (now : Nat)
    (t : TransactionT) (env : CommitEnv) :
    (Store.commit st now t true env).table.maindb =
      if env.logOk = true ∧ env.dataOk = true then applyItems st.maindb t else st.maindb := by
  rcases (commit_result hm now t true env).maindb with ⟨hdb, hno⟩ | ⟨hdb, hwrites⟩
  · rw [hdb]
    split
    · rename_i hwrites
      rcases hno with hitem | hl | hd
      · rw [applyItems, hitem]
        rfl
      · rw [hwrites.1] at hl
        cases hl
      · rw [hwrites.2] at hd
        cases hd
    · rfl
  · rw [hdb, if_pos hwrites]

/-- The rows of a record that fits are rows of tables, under a stored id or a new one. -/
theorem rows_of_fits {T : Type} {t : StoreTable T} {u : KeyTypeE} (ht : t.SingleKey u) {db : DataDb}
    (hok : StoreTable.TableOk t u db) {c : Change T} (hfit : StoreTable.Fits t u db c) :
    ∀ i ∈ t.rows u c, TableKey i.key ∧
      ((db.get i.key).isSome = true ∨
        ∀ id ∈ idOf i.key, c.found = false ∧ id = t.id c.record) := by
  have hsec : TableKey (t.getKey c.record u) ∧ idOf (t.getKey c.record u) = none := by
    obtain ⟨ps, hps⟩ := ht.secondary c.record
    rw [hps]
    exact ⟨ht.ukey_range, rfl⟩
  have hprim : t.id c.record ≠ 0 → TableKey (encodePrimaryKey t.primaryKey (t.id c.record)) :=
    fun hid => ⟨ht.pkey_range.1, ht.pkey_range.2, Nat.pos_of_ne_zero hid⟩
  rw [StoreTable.Fits] at hfit
  intro i hi
  rw [StoreTable.rows] at hi
  cases hf : c.found with
  | true =>
    simp only [hf, if_true] at hi hfit
    obtain ⟨old, hold, hid⟩ := hfit
    obtain ⟨-, hne, hrow, -⟩ := (ht.find_eq_some hok (ht.keytype_ukey _)).mp hold
    rw [List.mem_singleton.mp hi]
    refine ⟨hprim (hid ▸ hne), Or.inl ?_⟩
    show (db.get (encodePrimaryKey t.primaryKey (t.id c.record))).isSome = true
    rw [hid, hrow]
    rfl
  | false =>
    simp only [hf, Bool.false_eq_true, if_false] at hi hfit
    rcases List.mem_cons.mp hi with rfl | hi
    · refine ⟨hsec.1, Or.inr fun id hmem => ?_⟩
      rw [show idOf (t.getKey c.record u) = none from hsec.2] at hmem
      cases hmem
    · rw [List.mem_singleton.mp hi]
      refine ⟨hprim hfit.1, Or.inr fun id hmem => ⟨rfl, ?_⟩⟩
      exact (Option.some.inj hmem).symm

/-- A commit as master keeps the agreement. -/
theorem SameRecords.commit {a b : SharedTable} (h : SameRecords a b) (hm : a.isMaster = true) (now : Nat)
    (t : TransactionT) (env : CommitEnv) :
    SameRecords (Store.commit a now t true env).table (Store.commit b now t true env).table := by
  have hmb : b.isMaster = true := h.isMaster ▸ hm
  have ha := commit_effect a now t true env
  have hb := commit_effect b now t true env
  refine ⟨?_, ?_, ?_⟩
  · rw [master_commit_maindb hm, master_commit_maindb hmb, h.maindb]
  · rw [ha.maincounter, hb.maincounter, h.maincounter]
  · rw [ha.isMaster, hb.isMaster, h.isMaster]

/-- **The payloads and the commit of a request** are ids given out one after the other and a commit
    as master. -/
theorem manage_run {k : RecKind} {n : NodeState} (hm : n.st.isMaster = true)
    (hok : k.service.TableOk n.st.maindb) (dbcache : OrdMap Key CacheV) (m : Manage)
    (input : List (k.Rec × PrepEnv)) (env : CommitEnv) :
    ∃ ls n', machine.exec n ls = some n' ∧ (∀ l ∈ ls, OfRequest l) ∧
      SameRecords n'.st
        (k.service.manage { n.st with dbcache := dbcache } m input env).table := by
  have hlaw := k.service_lawful
  set st : SharedTable := { n.st with dbcache := dbcache } with hst₀
  have hsame := hlaw.payloads_same m input { table := st }
  have hreq : ∀ j, ∀ l ∈ List.replicate j Label.getNext, OfRequest l := by
    intro j l hl
    rw [List.eq_of_mem_replicate hl]
    trivial
  rw [Service.manage]
  split
  · rename_i w e heq
    rw [heq] at hsame
    obtain ⟨tmp, count, hle, hst⟩ := hsame
    have hst' : w.table = { st with tmpcache := tmp, maincounter := count } := hst
    have hle' : n.st.maincounter ≤ count := hle
    obtain ⟨given, hexec, -⟩ := exec_getNext hm (count - n.st.maincounter)
    rw [Nat.add_sub_cancel' hle'] at hexec
    refine ⟨_, _, hexec, hreq _, ?_⟩
    simp only [TempNameCache.destroy, hst']
    exact ⟨rfl, rfl, rfl⟩
  · rename_i w heq
    rw [heq] at hsame
    obtain ⟨tmp, count, hle, hst⟩ := hsame
    have hst' : w.table = { st with tmpcache := tmp, maincounter := count } := hst
    have hle' : n.st.maincounter ≤ count := hle
    obtain ⟨cs, hw, habove⟩ := hlaw.payloads_staged_nil (show k.service.TableOk st.maindb from hok)
      heq
    obtain ⟨given, hexec, -, hgiven⟩ := exec_getNext hm (count - n.st.maincounter)
    rw [Nat.add_sub_cancel' hle'] at hexec hgiven
    set n₁ : NodeState := ⟨{ n.st with maincounter := count }, given, n.replicated⟩ with hn₁
    set t : TransactionT := { item := w.items, updater := m.updater.name } with ht
    -- the rows are those of records that fit, new ones under ids that were given out
    have hrows : ∀ i ∈ w.items, TableKey i.key ∧
        ((n.st.maindb.get i.key).isSome = true ∨ ∀ id ∈ idOf i.key, id ∈ given) := by
      intro i hi
      rw [hw.items] at hi
      obtain ⟨c, hc, hic⟩ := List.mem_flatMap.mp hi
      obtain ⟨hkey, hid⟩ := rows_of_fits hlaw.single hok (hw.fits c hc) i hic
      refine ⟨hkey, hid.imp_right fun hid id hmem => ?_⟩
      obtain ⟨hf, rfl⟩ := hid id hmem
      have hnew := hw.new c hc hf
      rw [hst'] at hnew
      exact hgiven _ (habove c hc hf) hnew
    have hcommit : machine.step n₁ (.commit t m.currtime env) =
        some ⟨(Store.commit n₁.st m.currtime t true env).table,
          given.filter (· ∉ usedIds t.item), n.replicated⟩ := by
      show step n₁ (.commit t m.currtime env) = _
      simp only [step]
      rw [if_pos ⟨hm, fun i hi => (hrows i hi).1, fun i hi => (hrows i hi).2⟩]
    refine ⟨List.replicate (count - n.st.maincounter) .getNext ++ [.commit t m.currtime env],
      ⟨(Store.commit n₁.st m.currtime t true env).table, given.filter (· ∉ usedIds t.item),
        n.replicated⟩, ?_, ?_, ?_⟩
    · rw [Machine.exec_append, hexec, Option.bind_some, Machine.exec, hcommit, Option.bind_some,
        Machine.exec]
    · intro l hl
      rcases List.mem_append.mp hl with hl | hl
      · exact hreq _ l hl
      · rw [List.mem_singleton.mp hl]
        trivial
    · have hagree : SameRecords n₁.st w.table := by
        rw [hst']
        exact ⟨rfl, rfl, rfl⟩
      have hafter := hagree.commit hm m.currtime t env
      exact ⟨hafter.maindb, hafter.maincounter, hafter.isMaster⟩

/-- **Requests are runs**: whatever a `ManageDataAction` does to the records and the counter is done
    by a run of such steps. -/
theorem manageDataAction_run {k : RecKind} {n : NodeState} (hok : StoreOk n.st.maindb)
    (env : ActionEnv) (resp : RespT k.Rec) :
    ∃ ls n', machine.exec n ls = some n' ∧ (∀ l ∈ ls, OfRequest l) ∧
      SameRecords n'.st (k.manageDataAction env n.st resp).table := by
  rw [k.manageDataAction_eq]
  rcases manageDataAction_cases k.head k.service env n.st resp with
    ⟨dbcache, e, hout⟩ | ⟨hm, action, merge, dbcache, updater, -, -, -, hout⟩
  · rw [hout]
    refine ⟨[], n, rfl, ?_, rfl, rfl, rfl⟩
    intro l hl
    cases hl
  · rw [hout]
    exact manage_run hm (hok k) dbcache _ _ _

/-! ## Runs on fixed inputs -/

/-- A slave that starts on new databases. -/
def blankSlave : SharedTable := reopened (str "here") false false (str "there") ⟨freshDb, freshLog, 0, 0⟩

theorem blankSlave_init : machine.init (started blankSlave) := by
  have hkeys : ∀ V : Type, WellKeyed (OrdMap.empty : OrdMap Key V) := by
    intro V k v hv
    cases hv
  have hinit : workServerInit { thisurl := str "here" } false (str "there") = .ok blankSlave := by
    decide +kernel
  exact ⟨_, _, _, _, hkeys DataV, hkeys LogV, hinit, rfl⟩

/-- A new master with an exter in its cache. -/
def deskMaster : NodeState := started
  { blankSlave with lastslave := [], isMaster := true
                    dbcache := OrdMap.empty.put (encodeSecondaryKey uExterdataName (str "desk"))
                      (.packed (.user { id := 7, name := str "desk", canAddUsers := true })) }

/-- The exter creates a user. -/
theorem manageDataAction_run_desk :
    ∃ ls n', machine.exec deskMaster ls = some n' ∧ (∀ l ∈ ls, OfRequest l) ∧
      SameRecords n'.st (RecKind.user.manageDataAction { decode := fun _ _ => .ok { name := str "desk" } } deskMaster.st
        { username := str "desk", sessionkey := str "k", action := .wCreate, keytype := kExterdata,
          payload := { name := str "ann" } }).table :=
  manageDataAction_run storeOk_freshDb _ _

/-- A transaction that puts one user. -/
def addBob (id : Nat) : TransactionT :=
  { item := [{ key := encodePrimaryKey kUserdata id, value := .user { id := id, name := str "bob" } }] }

theorem tableRows_addBob {id : Nat} (h : 0 < id) : TableRows (addBob id).item := by
  intro i hi
  rw [List.mem_singleton.mp hi]
  exact ⟨by decide, by decide, h⟩

/-- A commit of one user that succeeds stores it. -/
theorem hasRecord_addBob (st : SharedTable) (now : Nat) {id : Nat} (isMaster : Bool) :
    HasRecord (Store.commit st now (addBob id) isMaster {}).table.maindb kUserdata id := by
  obtain ⟨-, hc⟩ := commit_committed st now (addBob id) isMaster
    (List.cons_ne_nil _ _) (show ({} : CommitEnv).logOk = true from rfl) rfl
  refine ⟨by decide, ?_⟩
  rw [hc.maindb, applyItems, stamp_item]
  show ((st.maindb.put (encodePrimaryKey kUserdata id) _).get _).isSome = true
  rw [OrdMap.get_put_self]
  rfl

/-- A slave that starts with the user `2` on its disk: its counter is `2`. -/
def stockedSlave : SharedTable :=
  reopened (str "here") false false (str "there") ⟨applyItems freshDb (addBob 2), freshLog, 2, 0⟩

theorem stockedSlave_init : machine.init (started stockedSlave) := by
  have hmain : WellKeyed (applyItems OrdMap.empty (addBob 2)) := by
    intro k v hv
    have hput : ((OrdMap.empty : DataDb).put (encodePrimaryKey kUserdata 2) _).get k = some v := hv
    rw [OrdMap.get_put] at hput
    split at hput
    · rename_i hk
      exact fun _ => ⟨2, by rw [hk]; rfl⟩
    · cases hput
  have hlog : WellKeyed (OrdMap.empty : LogDb) := by
    intro k v hv
    cases hv
  have hinit : workServerInit
      { thisurl := str "here", maindb := applyItems OrdMap.empty (addBob 2) } false (str "there") =
        .ok stockedSlave := by
    decide +kernel
  exact ⟨_, _, _, _, hmain, hlog, hinit, rfl⟩

/-- The slave after it has received a user. -/
def received (id : Nat) : NodeState :=
  ⟨(Store.commit stockedSlave 0 (addBob id) false {}).table, [], [encodePrimaryKey kUserdata id]⟩

theorem step_received {id : Nat} (hid : 0 < id) :
    machine.step (started stockedSlave) (.replicate (addBob id) {}) = some (received id) := by
  show step (started stockedSlave) (.replicate (addBob id) {}) = _
  simp only [step]
  rw [if_pos ⟨rfl, tableRows_addBob hid⟩]
  rfl

theorem received_same (id : Nat) :
    (received id).st.isMaster = false ∧ (received id).st.maincounter = 2 := by
  have heff := commit_effect stockedSlave 0 (addBob id) false {}
  exact ⟨heff.isMaster, heff.maincounter⟩

theorem reach_received {id : Nat} (hid : 0 < id) : machine.ReachWhere InCounter (received id) :=
  .step (.init stockedSlave_init) (show InCounter (started stockedSlave) (.replicate _ _) from trivial)
    (step_received hid)

/-- The slave when it has elected itself. -/
def promoted (id : Nat) : NodeState :=
  { received id with st := Hrpc.masterUpdate (received id).st 0 (fun _ => false) }

theorem step_promoted (id : Nat) :
    step (received id) (.masterUpdate 0 (fun _ => false)) = some (promoted id) := by
  simp only [step, (received_same id).1, Bool.false_eq_true, if_false]
  rfl

theorem receivedWithin_iff {id : Nat} : ReceivedWithin (received id) ↔ id ≤ 2 := by
  rw [ReceivedWithin, (received_same id).2]
  constructor
  · exact fun h => h kUserdata id List.mem_cons_self (hasRecord_addBob _ _ _)
  · intro hle kt i hmem _
    rw [List.mem_singleton.mp hmem |> fun h => (Key.primary.inj h).2]
    exact hle

/-- A slave that has received the user `2`, which it knew, gives out fresh ids when it has elected
    itself; one that has received a user `3` does not. -/
theorem promoted_iff_received : NextIsFresh (promoted 2).st ∧ ¬ NextIsFresh (promoted 3).st := by
  have hiff : ∀ id, 0 < id → (NextIsFresh (promoted id).st ↔ id ≤ 2) := fun id hid =>
    (promoted_iff (reach_received hid) (step_promoted id)).trans receivedWithin_iff
  exact ⟨(hiff 2 (by decide)).mpr le_rfl, fun h => absurd ((hiff 3 (by decide)).mp h) (by decide)⟩

theorem promoted_isMaster : (promoted 2).st.isMaster = true := by
  decide +kernel

/-- A slave receives a user it knew, elects itself, gives out an id, and stores a user under it. -/
theorem record_ids_fresh_promoted :
    ∃ n, machine.exec (started stockedSlave)
        [.replicate (addBob 2) {}, .masterUpdate 0 (fun _ => false), .getNext,
          .commit (addBob 3) 7 {}] = some n ∧
      n.replicated ≠ [] ∧ n.st.isMaster = true ∧ HasRecord n.st.maindb kUserdata 3 ∧
      NextIsFresh n.st := by
  obtain ⟨hdb, -, hcount, -⟩ := masterUpdate_same (received 2).st 0 (fun _ => false)
  -- the master with the id `3` given out
  set n : NodeState := ⟨(promoted 2).st.maincounterGetNext.2, [3], (promoted 2).replicated⟩ with hn
  have hnext : machine.step (promoted 2) .getNext = some n := by
    show step (promoted 2) .getNext = _
    have hid : (promoted 2).st.maincounterGetNext.1 = 3 :=
      congrArg (· + 1) (hcount.trans (received_same 2).2)
    simp only [step, promoted_isMaster, if_true, hid]
    rfl
  have hcommit : machine.step n (.commit (addBob 3) 7 {}) =
      some ⟨(Store.commit n.st 7 (addBob 3) true {}).table, [], n.replicated⟩ := by
    show step n (.commit (addBob 3) 7 {}) = _
    simp only [step]
    rw [if_pos]
    · rfl
    · refine ⟨promoted_isMaster, tableRows_addBob (by decide), ?_⟩
      intro i hi
      rw [List.mem_singleton.mp hi]
      refine Or.inr fun id hid => ?_
      rw [← Option.some.inj hid]
      exact List.mem_singleton_self 3
  have hm : (Store.commit n.st 7 (addBob 3) true {}).table.isMaster = true :=
    (commit_effect n.st 7 (addBob 3) true {}).isMaster.trans (promoted_isMaster)
  have hok : InCounter (received 2) (.masterUpdate 0 (fun _ => false)) :=
    fun _ => receivedWithin_iff.mpr le_rfl
  have hreach : machine.ReachWhere InCounter n :=
    .step (.step (reach_received (by decide)) hok (step_promoted 2))
      (show InCounter (promoted 2) .getNext from trivial) hnext
  refine ⟨⟨(Store.commit n.st 7 (addBob 3) true {}).table, [], n.replicated⟩, ?_,
    List.cons_ne_nil _ _, hm, hasRecord_addBob _ _ _, ?_⟩
  · have hpromoted : machine.step (received 2) (.masterUpdate 0 (fun _ => false)) =
        some (promoted 2) := step_promoted 2
    rw [Machine.exec, step_received (by decide), Option.bind_some, Machine.exec, hpromoted,
      Option.bind_some, Machine.exec, hnext, Option.bind_some, Machine.exec, hcommit,
      Option.bind_some, Machine.exec]
  · exact (record_ids_fresh (.step hreach (show InCounter n (.commit (addBob 3) 7 {}) from trivial)
      hcommit) hm).1

/-- A new slave receives the user `2`, elects itself, and would give out `2` again. -/
theorem slave_reuses_id :
    ¬ ∀ n, machine.Reach n → n.st.isMaster = true → NextIsFresh n.st := by
  intro hall
  have hrep : machine.step (started blankSlave) (.replicate (addBob 2) {}) =
      some ⟨(Store.commit blankSlave 0 (addBob 2) false {}).table, [],
        [encodePrimaryKey kUserdata 2]⟩ := by
    show step (started blankSlave) (.replicate (addBob 2) {}) = _
    simp only [step]
    rw [if_pos ⟨rfl, tableRows_addBob (by decide)⟩]
    rfl
  set st := (Store.commit blankSlave 0 (addBob 2) false {}).table with hst
  have heff := commit_effect blankSlave 0 (addBob 2) false {}
  have hslave : st.isMaster = false := heff.isMaster
  have hcount : st.maincounter = 1 := heff.maincounter
  have hrec : HasRecord st.maindb kUserdata 2 := hasRecord_addBob _ _ _
  have helect : (elect st 0).url = st.thisurl := by
    rw [hst]
    decide +kernel
  have hpromote : machine.step ⟨st, [], [encodePrimaryKey kUserdata 2]⟩ (.masterUpdate 0 (fun _ => false)) =
      some ⟨Hrpc.masterUpdate st 0 (fun _ => false), [], [encodePrimaryKey kUserdata 2]⟩ := by
    show step ⟨st, [], [encodePrimaryKey kUserdata 2]⟩ (.masterUpdate 0 (fun _ => false)) = _
    simp only [step, hslave, Bool.false_eq_true, if_false]
  obtain ⟨hdb, -, hmain, -⟩ := masterUpdate_same st 0 (fun _ => false)
  have hreach := hall _ (.step (.step (.init blankSlave_init) trivial hrep) trivial hpromote)
    ((masterUpdate_isMaster _ _ _).mpr (Or.inr helect))
  have hlt : 2 < (Hrpc.masterUpdate st 0 (fun _ => false)).maincounter + 1 :=
    hreach kUserdata 2 (by rw [hdb]; exact hrec)
  rw [hmain, hcount] at hlt
  omega

end Zapdos.Node.Counters
