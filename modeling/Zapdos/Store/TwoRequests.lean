/-
  Two `ManageDataAction`s at once on one kind of records — what each has made, and from which records.

  A request stays good while the other one writes as long as what it has prepared does not change:
  under its own reservation no one writes, and `Current` keeps the rest.  So each request makes the
  changes it makes on its own, from the records before it (`Wrote`).
-/
import Zapdos.Store.RequestInvariant
import Zapdos.Store.SerialRun
import Zapdos.Store.StableReads

namespace Zapdos.Store

open Zapdos.Lib Requests
open Service (newCount newCount_nil newCount_append newCount_like)

namespace Requests

/-- The next step of the thread writes its records. -/
def Thread.writing : Thread → Bool
  | .commit .logged _ _ _ => true
  | _ => false

/-- The name of a record that is read and not yet reserved. -/
def Thread.readNames : Thread → List Key
  | .manage k _ task =>
    match task.rest, task.stage with
    | (data, _) :: _, .read _ _ => [k.service.key data]
    | _, _ => []
  | _ => []

/-- The name of a new record that is due for an id. -/
def Thread.numberNames : Thread → List Key
  | .manage k _ task =>
    match task.rest, task.stage with
    | (data, _) :: _, .ready false _ => [k.service.key data]
    | _, _ => []
  | _ => []

/-- How many ids the thread has taken. -/
def Thread.taken : Thread → ℕ
  | .manage _ _ task => task.taken
  | _ => 0

/-- A name that the thread has read. -/
theorem Thread.mem_readNames {k : RecKind} {m : Manage} {task : Progress k.Rec} {data : k.Rec}
    {env : PrepEnv} {rest : List (k.Rec × PrepEnv)} (hrest : task.rest = (data, env) :: rest)
    {found : Bool} {cdata : k.Rec} (hstage : task.stage = .read found cdata) :
    k.service.key data ∈ (Thread.manage k m task).readNames := by
  simp [Thread.readNames, hrest, hstage]

/-- A name that a number is asked for. -/
theorem Thread.mem_numberNames {k : RecKind} {m : Manage} {task : Progress k.Rec} {data : k.Rec}
    {env : PrepEnv} {rest : List (k.Rec × PrepEnv)} (hrest : task.rest = (data, env) :: rest)
    {cdata : k.Rec} (hstage : task.stage = .ready false cdata) :
    k.service.key data ∈ (Thread.manage k m task).numberNames := by
  simp [Thread.numberNames, hrest, hstage]

end Requests

/-- Two requests on one kind of records: those of the threads `0` and `1`. -/
structure TwoRequests (k : RecKind) where
  m : ℕ → Manage
  input : ℕ → List (k.Rec × PrepEnv)

namespace TwoRequests

variable {k : RecKind} (r : TwoRequests k)

/-- The requests, by thread. -/
def requests : ℕ → Option Request := fun o =>
  if o < 2 then some (.manage k (r.m o) (r.input o)) else none

/-- The names of a request. -/
def names (o : ℕ) : List Key := (r.input o).map fun p => k.service.key p.1

/-- The other request has this name, too. -/
def Shared (o : ℕ) (key : Key) : Prop := ∃ o', o' < 2 ∧ o' ≠ o ∧ key ∈ r.names o'

/-- **The condition on a step.**  When a request writes its records, the other one is not left with a
    record that it has read under one of these names and not yet reserved; and when a request takes an
    id for a name that both have, the other has taken none. -/
structure Current (σ : IdleMaster) (s : Sys) (l : Label) : Prop where
  fresh : (s.threads l.thread).writing = true → ∀ o, o < 2 →
    ∀ key ∈ (s.threads o).readNames, key ∉ r.names l.thread
  ids : ∀ key ∈ (s.threads l.thread).numberNames, r.Shared l.thread key →
    s.table.maincounter = σ.st.maincounter + (s.threads l.thread).taken

instance (o : ℕ) (key : Key) : Decidable (r.Shared o key) := by
  unfold Shared
  infer_instance

instance (σ : IdleMaster) (s : Sys) (l : Label) : Decidable (r.Current σ s l) :=
  decidable_of_iff
    (((s.threads l.thread).writing = true → ∀ o, o < 2 →
        ∀ key ∈ (s.threads o).readNames, key ∉ r.names l.thread) ∧
      ∀ key ∈ (s.threads l.thread).numberNames, r.Shared l.thread key →
        s.table.maincounter = σ.st.maincounter + (s.threads l.thread).taken)
    ⟨fun h => ⟨h.1, h.2⟩, fun h => ⟨h.fresh, h.ids⟩⟩

/-- The change a request makes on its own, but for the id of a new record that only it has. -/
structure Close (o : ℕ) (c c' : Change k.Rec) : Prop extends Service.Like k.service c c' where
  shared : r.Shared o (k.service.key c.record) → c = c'

/-! ## Where a request stands -/

/-- The payload a request is at is prepared against `db`. -/
def StageMade (σ : IdleMaster) (db : DataDb) (o : ℕ) (task : Progress k.Rec) : Prop :=
  ∀ data env rest, task.rest = (data, env) :: rest →
    match task.stage with
    | .next => True
    | .reserved => k.service.check data = .ok ()
    | .read found cdata =>
      k.service.check data = .ok () ∧
        k.service.prepare env db (r.m o) data = .ok (found, cdata)
    | .ready found cdata =>
      k.service.check data = .ok () ∧
        k.service.prepare env db (r.m o) data = .ok (found, cdata)
    | .numbered id cdata =>
      k.service.check data = .ok () ∧
        k.service.prepare env db (r.m o) data = .ok (false, cdata) ∧
        k.service.mayInsert cdata = .ok () ∧
        (r.Shared o (k.service.key data) → id = σ.st.maincounter + task.taken)

/-- The ids that are taken and not yet in the changes. -/
def pendingCount (th : Thread) : ℕ := if th.pending.isSome then 1 else 0

/-- **A request that has not written its records**: so far it has made the changes it makes on its own
    from the records as they are. -/
inductive Stands (σ : IdleMaster) (db : DataDb) (o : ℕ) : Thread → List (Change k.Rec) → Prop
  | waiting : Stands σ db o .waiting []
  | collecting {task done cs cs'} (hinput : r.input o = done ++ task.rest)
      (halone : k.service.Alone (r.m o) db σ.st.maincounter done cs')
      (hclose : List.Forall₂ (r.Close o) cs cs')
      (hnf : ∀ c ∈ cs, k.service.table.notfound c.record = false)
      (htaken : task.taken = newCount cs + pendingCount (.manage k (r.m o) task))
      (hnext : task.rest = [] → task.stage = .next) (hstage : r.StageMade σ db o task) :
      Stands σ db o (.manage k (r.m o) task) cs
  | committing {phase now nc t cs cs'} (hphase : phase ≠ .written)
      (halone : k.service.Alone (r.m o) db σ.st.maincounter (r.input o) cs')
      (hclose : List.Forall₂ (r.Close o) cs cs')
      (hnf : ∀ c ∈ cs, k.service.table.notfound c.record = false) :
      Stands σ db o (.commit phase now nc t) cs

/-- **The changes of a request** that goes from the records `db`: it makes them on its own, and all of
    them can be written. -/
structure Made (σ : IdleMaster) (db : DataDb) (o : ℕ) (cs : List (Change k.Rec)) : Prop where
  alone : ∃ cs', k.service.Alone (r.m o) db σ.st.maincounter (r.input o) cs' ∧
    List.Forall₂ (r.Close o) cs cs'
  notfound : ∀ c ∈ cs, k.service.table.notfound c.record = false
  fits : ∀ c ∈ cs, StoreTable.Fits k.service.table k.service.ukey db c
  apart : cs.Pairwise (StoreTable.Apart k.service.table k.service.ukey)

/-- **The requests that have written their records**, the last one first, and the records they have
    led to. -/
inductive Wrote (σ : IdleMaster) : DataDb → List (ℕ × List (Change k.Rec)) → Prop
  | nil : Wrote σ σ.st.maindb []
  | cons {db hist o cs} (h : Wrote σ db hist) (ho : o < 2) (hnew : o ∉ hist.map Prod.fst)
      (hmade : r.Made σ db o cs) :
      Wrote σ (db.write (dataBatch (cs.flatMap (k.service.table.rows k.service.ukey))))
        ((o, cs) :: hist)

/-- The changes of a thread, whatever their kind. -/
def changesOf (cs : ℕ → List (Change k.Rec)) : ℕ → List RecChange := fun o =>
  (cs o).map (RecChange.mk k)

/-- How many ids a thread has taken. -/
def idsTaken (s : Sys) (cs : ℕ → List (Change k.Rec)) (o : ℕ) : ℕ :=
  newCount (cs o) + pendingCount (s.threads o)

/-- **The invariant**, as long as no request has failed. -/
structure Good (σ : IdleMaster) (s : Sys) (cs : ℕ → List (Change k.Rec))
    (hist : List (ℕ × List (Change k.Rec))) : Prop where
  inv : Inv r.requests s (changesOf cs)
  only : ∀ o, 2 ≤ o → s.threads o = .waiting
  wrote : r.Wrote σ s.table.maindb hist
  before : ∀ o, o < 2 → o ∉ hist.map Prod.fst →
    r.Stands σ s.table.maindb o (s.threads o) (cs o)
  after : ∀ w ∈ hist, cs w.1 = w.2 ∧ ∃ t, writtenOf (s.threads w.1) = some t ∧
    t.item = w.2.flatMap (k.service.table.rows k.service.ukey)
  total : s.table.maincounter = σ.st.maincounter + idsTaken s cs 0 + idsTaken s cs 1
  free : ∀ i, σ.st.maincounter < i → i ≤ s.table.maincounter →
    (∃ o, (s.threads o).pending = some i) ∨ σ.st.maindb.get (encodePrimaryKey k.pkey i) = none

/-- A request has failed. -/
def Failed (s : Sys) : Prop :=
  ∃ o, o < 2 ∧ ((∃ nc, s.threads o = .leaving nc none) ∨ s.threads o = .ended none)

/-! ## Steps -/

variable {r}

/-- A thread with a request has one of the two. -/
theorem request_eq {o : ℕ} {q : Request} (h : r.requests o = some q) :
    o < 2 ∧ q = .manage k (r.m o) (r.input o) := by
  unfold requests at h
  split at h
  · rename_i ho
    exact ⟨ho, (Option.some.inj h).symm⟩
  · cases h

/-- Closing a thread leaves the count of new records. -/
theorem newCount_close {o : ℕ} {cs cs' : List (Change k.Rec)}
    (h : List.Forall₂ (r.Close o) cs cs') : newCount cs = newCount cs' :=
  newCount_like (h.imp fun _ _ hc => hc.toLike)

/-- The changes have the keys of the payloads. -/
theorem keys_close {db : DataDb} (hok : StoreOk db) {o n : ℕ}
    {done : List (k.Rec × PrepEnv)} {cs cs' : List (Change k.Rec)}
    (halone : k.service.Alone (r.m o) db n done cs') (hclose : List.Forall₂ (r.Close o) cs cs') :
    cs.map (fun c => k.service.key c.record) = done.map (fun p => k.service.key p.1) := by
  rw [← halone.keys k.service_lawful (hok k)]
  clear halone
  induction hclose with
  | nil => rfl
  | cons hc _ ih => rw [List.map_cons, List.map_cons, ih, hc.key]

/-- A payload that is prepared against `db` is prepared against `db'` just as well. -/
theorem StageMade.congr {σ : IdleMaster} {db db' : DataDb} {o : ℕ} {task : Progress k.Rec}
    (h : r.StageMade σ db o task)
    (hp : ∀ data env rest out, task.rest = (data, env) :: rest → task.stage ≠ .next →
      task.stage ≠ .reserved → k.service.prepare env db (r.m o) data = .ok out →
        k.service.prepare env db' (r.m o) data = .ok out) : r.StageMade σ db' o task := by
  intro data env rest hrest
  have hs := h data env rest hrest
  cases hst : task.stage with
  | next => trivial
  | reserved =>
    simp only [hst] at hs ⊢
    exact hs
  | read found cdata =>
    have hp' := hp data env rest (found, cdata) hrest (by simp [hst]) (by simp [hst])
    simp only [hst] at hs ⊢
    exact ⟨hs.1, hp' hs.2⟩
  | ready found cdata =>
    have hp' := hp data env rest (found, cdata) hrest (by simp [hst]) (by simp [hst])
    simp only [hst] at hs ⊢
    exact ⟨hs.1, hp' hs.2⟩
  | numbered id cdata =>
    have hp' := hp data env rest (false, cdata) hrest (by simp [hst]) (by simp [hst])
    simp only [hst] at hs ⊢
    exact ⟨hs.1, hp' hs.2.1, hs.2.2⟩

/-- **The other request writes** records under names that this one has not prepared. -/
theorem Stands.write {σ : IdleMaster} {db db' : DataDb} (hok : StoreOk db) {o : ℕ} {th : Thread}
    {cs : List (Change k.Rec)} (h : r.Stands σ db o th cs) {names : List Key}
    (hp : ∀ data env out, k.service.key data ∉ names →
      k.service.prepare env db (r.m o) data = .ok out →
        k.service.prepare env db' (r.m o) data = .ok out)
    (hcs : ∀ c ∈ cs, k.service.key c.record ∉ names)
    (hat : ∀ task data env rest, th = .manage k (r.m o) task → task.rest = (data, env) :: rest →
      task.stage ≠ .next → task.stage ≠ .reserved → k.service.key data ∉ names) :
    r.Stands σ db' o th cs := by
  have halone' : ∀ {n : ℕ} {done : List (k.Rec × PrepEnv)} {cs' : List (Change k.Rec)},
      k.service.Alone (r.m o) db n done cs' → List.Forall₂ (r.Close o) cs cs' →
        k.service.Alone (r.m o) db' n done cs' := by
    intro n done cs' halone hclose
    -- the payloads that are done have the names of the changes
    refine halone.congr fun p hpd out hout => hp p.1 p.2 out (fun hname => ?_) hout
    have hkeys := keys_close hok halone hclose
    have hmem : k.service.key p.1 ∈ cs.map (fun c => k.service.key c.record) := by
      rw [hkeys]
      exact List.mem_map.mpr ⟨p, hpd, rfl⟩
    obtain ⟨c, hc, he⟩ := List.mem_map.mp hmem
    exact hcs c hc (he ▸ hname)
  cases h with
  | waiting => exact .waiting
  | collecting hinput halone hclose hnf htaken hnext hstage =>
    refine .collecting hinput (halone' halone hclose) hclose hnf htaken hnext ?_
    exact hstage.congr fun data env rest out hrest hnext hreserved =>
      hp data env out (hat _ data env rest rfl hrest hnext hreserved)
  | committing hphase halone hclose hnf =>
    exact .committing hphase (halone' halone hclose) hclose hnf

/-- A row that is free was free at the beginning. -/
theorem Wrote.free {σ : IdleMaster} {db : DataDb} {hist : List (ℕ × List (Change k.Rec))}
    (h : r.Wrote σ db hist) {i : ℕ} (hrow : db.get (encodePrimaryKey k.pkey i) = none) :
    σ.st.maindb.get (encodePrimaryKey k.pkey i) = none := by
  induction h with
  | nil => exact hrow
  | @cons db hist o cs _ _ _ _ ih =>
    refine ih ?_
    rcases k.service_lawful.single.get_write_batch db cs i with ⟨c, -, -, hget⟩ | ⟨-, hget⟩
    · rw [show encodePrimaryKey k.service.table.primaryKey i = encodePrimaryKey k.pkey i from rfl,
        hrow] at hget
      cases hget
    · exact hget.symm.trans hrow

/-- The changes of the other threads. -/
theorem changesOf_update (cs : ℕ → List (Change k.Rec)) (o : ℕ) (cs' : List (Change k.Rec)) :
    changesOf (Function.update cs o cs') =
      Function.update (changesOf cs) o (cs'.map (RecChange.mk k)) := by
  funext o'
  unfold changesOf
  by_cases ho : o' = o
  · rw [ho, Function.update_self, Function.update_self]
  · rw [Function.update_of_ne ho, Function.update_of_ne ho]

/-- The count of ids after one thread has moved. -/
theorem total_update {s : Sys} {cs : ℕ → List (Change k.Rec)} {n mc mc' : ℕ}
    (h : mc = n + idsTaken s cs 0 + idsTaken s cs 1) {o : ℕ} (ho : o < 2) {st' : SharedTable}
    {th' : Thread} {cs' : List (Change k.Rec)}
    (hcount : mc' + idsTaken s cs o = mc + (newCount cs' + pendingCount th')) :
    mc' = n + idsTaken ⟨st', Function.update s.threads o th'⟩ (Function.update cs o cs') 0 +
      idsTaken ⟨st', Function.update s.threads o th'⟩ (Function.update cs o cs') 1 := by
  have hother : ∀ o', o' ≠ o → idsTaken ⟨st', Function.update s.threads o th'⟩
      (Function.update cs o cs') o' = idsTaken s cs o' := by
    intro o' hne
    simp only [idsTaken, Function.update_of_ne hne]
  have hmine : idsTaken ⟨st', Function.update s.threads o th'⟩ (Function.update cs o cs') o =
      newCount cs' + pendingCount th' := by
    simp only [idsTaken, Function.update_self]
  -- one of the two has moved
  obtain rfl | rfl : o = 0 ∨ o = 1 := by omega
  · rw [hmine, hother 1 (by decide)]
    omega
  · rw [hmine, hother 0 (by decide)]
    omega

/-- **One request moves** and writes no records. -/
theorem Good.update {σ : IdleMaster} {s : Sys} {cs : ℕ → List (Change k.Rec)}
    {hist : List (ℕ × List (Change k.Rec))} (h : r.Good σ s cs hist) {o : ℕ} (ho : o < 2)
    {st' : SharedTable} {th' : Thread} {adds : List (Change k.Rec)}
    (hinv : Inv r.requests ⟨st', Function.update s.threads o th'⟩
      (Function.update (changesOf cs) o (changesOf cs o ++ adds.map (RecChange.mk k))))
    (hdb : st'.maindb = s.table.maindb)
    (hstands : r.Stands σ s.table.maindb o (s.threads o) (cs o) →
      r.Stands σ s.table.maindb o th' (cs o ++ adds))
    (hafter : ∀ t, writtenOf (s.threads o) = some t → adds = [] ∧ writtenOf th' = some t)
    (hcount : st'.maincounter + idsTaken s cs o =
      s.table.maincounter + (newCount (cs o ++ adds) + pendingCount th'))
    (hpending : ∀ i, (s.threads o).pending = some i →
      th'.pending = some i ∨ σ.st.maindb.get (encodePrimaryKey k.pkey i) = none)
    (hnew : ∀ i, s.table.maincounter < i → i ≤ st'.maincounter → th'.pending = some i) :
    r.Good σ ⟨st', Function.update s.threads o th'⟩ (Function.update cs o (cs o ++ adds)) hist := by
  refine ⟨?_, ?_, ?_, ?_, ?_, ?_, ?_⟩
  · rw [changesOf_update, List.map_append]
    exact hinv
  · intro o' ho'
    have hne : o' ≠ o := by omega
    simp only [Function.update_of_ne hne]
    exact h.only o' ho'
  · rw [hdb]
    exact h.wrote
  · intro o' ho' hno
    rw [hdb]
    by_cases hoo : o' = o
    · subst hoo
      simp only [Function.update_self]
      exact hstands (h.before o' ho' hno)
    · simp only [Function.update_of_ne hoo]
      exact h.before o' ho' hno
  · intro w hw
    obtain ⟨hcs, t, ht, hitem⟩ := h.after w hw
    by_cases hoo : w.1 = o
    · rw [hoo] at ht hcs ⊢
      obtain ⟨rfl, ht'⟩ := hafter t ht
      simp only [Function.update_self, List.append_nil]
      exact ⟨hcs, t, ht', hitem⟩
    · simp only [Function.update_of_ne hoo]
      exact ⟨hcs, t, ht, hitem⟩
  · exact total_update h.total ho hcount
  · intro i hlt hle
    have hle' : i ≤ st'.maincounter := hle
    -- an id of before, or the one that was taken just now
    by_cases hi : i ≤ s.table.maincounter
    · rcases h.free i hlt hi with ⟨o', hp⟩ | hrow
      · by_cases hoo : o' = o
        · subst hoo
          rcases hpending i hp with hp' | hrow
          · refine Or.inl ⟨o', ?_⟩
            simp only [Function.update_self]
            exact hp'
          · exact Or.inr hrow
        · refine Or.inl ⟨o', ?_⟩
          simp only [Function.update_of_ne hoo]
          exact hp
      · exact Or.inr hrow
    · refine Or.inl ⟨o, ?_⟩
      simp only [Function.update_self]
      exact hnew i (by omega) hle'

/-- A thread that has not written its records is not in the history. -/
theorem Good.not_mem {σ : IdleMaster} {s : Sys} {cs : ℕ → List (Change k.Rec)}
    {hist : List (ℕ × List (Change k.Rec))} (h : r.Good σ s cs hist) {o : ℕ}
    (hw : writtenOf (s.threads o) = none) : o ∉ hist.map Prod.fst := by
  intro hmem
  obtain ⟨w, hw', rfl⟩ := List.mem_map.mp hmem
  obtain ⟨-, t, ht, -⟩ := h.after w hw'
  rw [hw] at ht
  cases ht

/-- The next stage of a payload, but for its id. -/
theorem Stands.restage {σ : IdleMaster} {db : DataDb} {o : ℕ} {task task' : Progress k.Rec}
    {cs : List (Change k.Rec)} (h : r.Stands σ db o (.manage k (r.m o) task) cs)
    (hrest : task'.rest = task.rest) (htaken : task'.taken = task.taken)
    (hpending : pendingCount (.manage k (r.m o) task') = pendingCount (.manage k (r.m o) task))
    (hne : task.rest ≠ []) (hstage : r.StageMade σ db o task → r.StageMade σ db o task') :
    r.Stands σ db o (.manage k (r.m o) task') cs := by
  cases h with
  | collecting hinput halone hclose hnf htk hnext hs =>
    refine .collecting ?_ halone hclose hnf ?_ ?_ (hstage hs)
    · rw [hrest]
      exact hinput
    · rw [htaken, hpending]
      exact htk
    · rw [hrest]
      exact fun he => absurd he hne

/-- A stage without records and ids. -/
theorem Good.restage {σ : IdleMaster} {s : Sys} {cs : ℕ → List (Change k.Rec)}
    {hist : List (ℕ × List (Change k.Rec))} (h : r.Good σ s cs hist) {o : ℕ} (ho2 : o < 2)
    {task task' : Progress k.Rec} (ho : s.threads o = .manage k (r.m o) task) {st' : SharedTable}
    (hinv : Inv r.requests ⟨st', Function.update s.threads o (.manage k (r.m o) task')⟩
      (Function.update (changesOf cs) o (changesOf cs o ++ ([] : List (Change k.Rec)).map
        (RecChange.mk k)))) (hdb : st'.maindb = s.table.maindb)
    (hcount : st'.maincounter = s.table.maincounter) (hrest : task'.rest = task.rest)
    (htaken : task'.taken = task.taken)
    (hpending : (Thread.manage k (r.m o) task).pending = none ∧
      (Thread.manage k (r.m o) task').pending = none) (hne : task.rest ≠ [])
    (hstage : r.StageMade σ s.table.maindb o task → r.StageMade σ s.table.maindb o task') :
    ∃ cs', r.Good σ ⟨st', Function.update s.threads o (.manage k (r.m o) task')⟩ cs' hist := by
  obtain ⟨hp, hp'⟩ := hpending
  have hzero : pendingCount (.manage k (r.m o) task') = pendingCount (.manage k (r.m o) task) := by
    unfold pendingCount
    rw [hp, hp']
  refine ⟨_, h.update ho2 hinv hdb ?_ ?_ ?_ ?_ ?_⟩
  · intro hst
    rw [ho] at hst
    rw [List.append_nil]
    exact hst.restage hrest htaken hzero hne hstage
  · intro t ht
    rw [ho] at ht
    cases ht
  · rw [hcount, List.append_nil, hzero, ← ho]
    rfl
  · intro i hi
    rw [ho, hp] at hi
    cases hi
  · intro i hlt hle
    omega

/-- A new record takes its id. -/
theorem Stands.number {σ : IdleMaster} {db : DataDb} {o mc : ℕ} {task : Progress k.Rec}
    {cs : List (Change k.Rec)} (h : r.Stands σ db o (.manage k (r.m o) task) cs) {data : k.Rec}
    {env : PrepEnv} {rest : List (k.Rec × PrepEnv)} {cdata : k.Rec}
    (hrest : task.rest = (data, env) :: rest) (hstage : task.stage = .ready false cdata)
    (hmay : k.service.mayInsert cdata = .ok ())
    (hids : r.Shared o (k.service.key data) → mc = σ.st.maincounter + task.taken) :
    r.Stands σ db o (.manage k (r.m o)
      { task with stage := .numbered (mc + 1) cdata, taken := task.taken + 1 }) cs := by
  cases h with
  | collecting hinput halone hclose hnf htaken hnext hs =>
    have hzero : pendingCount (.manage k (r.m o) task) = 0 := by
      simp [pendingCount, Thread.pending, hstage]
    refine .collecting hinput halone hclose hnf ?_ ?_ ?_
    · rw [hzero] at htaken
      simp [pendingCount, Thread.pending, htaken]
    · exact fun he => absurd he (by simp [hrest])
    · intro data' env' rest' he
      have hprev := hs data' env' rest' he
      simp only [hstage] at hprev
      cases hrest.symm.trans he
      refine ⟨hprev.1, hprev.2, hmay, fun hshared => ?_⟩
      -- for a name of both requests the other one has taken no id
      have hcount := hids hshared
      show mc + 1 = σ.st.maincounter + (task.taken + 1)
      omega

/-- A request takes an id. -/
theorem Good.number {σ : IdleMaster} {s : Sys} {cs : ℕ → List (Change k.Rec)}
    {hist : List (ℕ × List (Change k.Rec))} (h : r.Good σ s cs hist) {o : ℕ} (ho2 : o < 2)
    {task : Progress k.Rec} (ho : s.threads o = .manage k (r.m o) task) {data : k.Rec}
    {env : PrepEnv} {rest : List (k.Rec × PrepEnv)} {cdata : k.Rec}
    (hrest : task.rest = (data, env) :: rest) (hstage : task.stage = .ready false cdata)
    (hmay : k.service.mayInsert cdata = .ok ())
    (hids : r.Shared o (k.service.key data) →
      s.table.maincounter = σ.st.maincounter + task.taken) {task' : Progress k.Rec}
    (htask' : task' = { task with
      stage := .numbered (s.table.maincounter + 1) cdata, taken := task.taken + 1 })
    (hinv : Inv r.requests ⟨{ s.table with maincounter := s.table.maincounter + 1 },
        Function.update s.threads o (.manage k (r.m o) task')⟩
      (Function.update (changesOf cs) o
        (changesOf cs o ++ ([] : List (Change k.Rec)).map (RecChange.mk k)))) :
    ∃ cs', r.Good σ ⟨{ s.table with maincounter := s.table.maincounter + 1 },
      Function.update s.threads o (.manage k (r.m o) task')⟩ cs' hist := by
  subst htask'
  refine ⟨_, h.update ho2 hinv rfl ?_ ?_ ?_ ?_ ?_⟩
  · intro hst
    rw [ho] at hst
    rw [List.append_nil]
    exact hst.number hrest hstage hmay hids
  · intro t ht
    rw [ho] at ht
    cases ht
  · simp only [idsTaken, ho, pendingCount, Thread.pending, hstage, List.append_nil]
    simp
    omega
  · intro i hi
    rw [ho] at hi
    simp [Thread.pending, hstage] at hi
  · intro i hlt hle
    have hle' : i ≤ s.table.maincounter + 1 := hle
    have hi : i = s.table.maincounter + 1 := by omega
    simp [Thread.pending, hi]

/-- One more payload, and the change it makes on its own: a new record has the number that its
    request has got to, if the other one has the name, too. -/
theorem alone_add {σ : IdleMaster} {db : DataDb} {o : ℕ} {task : Progress k.Rec}
    {done : List (k.Rec × PrepEnv)} {cs cs' : List (Change k.Rec)}
    (halone : k.service.Alone (r.m o) db σ.st.maincounter done cs')
    (hclose : List.Forall₂ (r.Close o) cs cs')
    (htaken : task.taken = newCount cs + pendingCount (.manage k (r.m o) task))
    (hmade : r.StageMade σ db o task) {data : k.Rec} {env : PrepEnv}
    {rest : List (k.Rec × PrepEnv)} {found : Bool} {id : ℕ} {cdata : k.Rec}
    (hrest : task.rest = (data, env) :: rest)
    (hstage : (found = true ∧ id = 0 ∧ task.stage = .ready true cdata) ∨
      (found = false ∧ task.stage = .numbered id cdata))
    (hkey : k.service.key cdata = k.service.key data) :
    ∃ c', k.service.Alone (r.m o) db σ.st.maincounter (done ++ [(data, env)]) (cs' ++ [c']) ∧
      r.Close o ⟨found, k.service.fill (r.m o) data found id cdata⟩ c' := by
  have hlaw := k.service_lawful
  have hmade := hmade data env rest hrest
  rcases hstage with ⟨rfl, rfl, hst⟩ | ⟨rfl, hst⟩
  · -- a stored record is changed in the same way
    simp only [hst] at hmade
    exact ⟨_, halone.snoc_found hmade.1 hmade.2, Service.Like.refl _, fun _ => rfl⟩
  · -- a new one has the next number of its request, here perhaps a later one
    simp only [hst] at hmade
    refine ⟨_, halone.snoc_new hmade.1 hmade.2.1 hmade.2.2.1, ⟨rfl, ?_, ?_, ?_, ?_⟩, ?_⟩
    · exact (hlaw.fill_key _ _ _ _ _).trans (hlaw.fill_key _ _ _ _ _).symm
    · exact k.fill_notfound _ _ _ _ _ _
    · exact fun noXapian => k.fill_takes noXapian _ _ _ _ _ _
    · intro hf
      cases hf
    · intro hshared
      have hname : k.service.key (k.service.fill (r.m o) data false id cdata) =
          k.service.key data := (hlaw.fill_key _ _ _ _ _).trans hkey
      have hid := hmade.2.2.2 (hname ▸ hshared)
      have hpend : pendingCount (.manage k (r.m o) task) = 1 := by
        simp [pendingCount, Thread.pending, hst]
      rw [hpend, newCount_close hclose] at htaken
      rw [hid, htaken, Nat.add_assoc]

/-- A new record has one id pending, any other none. -/
theorem pendingCount_add {m : Manage} {task : Progress k.Rec} {found : Bool} {id : ℕ} {cdata : k.Rec}
    (hstage : (found = true ∧ id = 0 ∧ task.stage = .ready true cdata) ∨
      (found = false ∧ task.stage = .numbered id cdata)) :
    pendingCount (.manage k m task) = if found then 0 else 1 := by
  rcases hstage with ⟨rfl, -, hst⟩ | ⟨rfl, hst⟩
  · simp [pendingCount, Thread.pending, hst]
  · simp [pendingCount, Thread.pending, hst]

/-- A request adds a record to its changes. -/
theorem Good.add {σ : IdleMaster} {s : Sys} {cs : ℕ → List (Change k.Rec)}
    {hist : List (ℕ × List (Change k.Rec))} (h : r.Good σ s cs hist) {o : ℕ} (ho2 : o < 2)
    {task : Progress k.Rec} (ho : s.threads o = .manage k (r.m o) task) {data : k.Rec}
    {env : PrepEnv} {rest : List (k.Rec × PrepEnv)} {found : Bool} {id : ℕ} {cdata : k.Rec}
    {items : List TransItemT} (hrest : task.rest = (data, env) :: rest)
    (hstage : (found = true ∧ id = 0 ∧ task.stage = .ready true cdata) ∨
      (found = false ∧ task.stage = .numbered id cdata))
    (hadd : k.service.table.addRecord s.table.maindb (k.service.fill (r.m o) data found id cdata)
      task.items found = .ok (some items)) {task' : Progress k.Rec}
    (htask' : task' = { task with rest := rest, stage := .next, items := items })
    (hinv : Inv r.requests ⟨s.table, Function.update s.threads o (.manage k (r.m o) task')⟩
      (Function.update (changesOf cs) o (changesOf cs o ++
        [⟨found, k.service.fill (r.m o) data found id cdata⟩].map (RecChange.mk k)))) :
    ∃ cs', r.Good σ ⟨s.table, Function.update s.threads o (.manage k (r.m o) task')⟩ cs' hist := by
  subst htask'
  obtain ⟨-, -, -, hstageOk, -, -⟩ := h.inv.manage ho
  obtain ⟨hkey, hfit, -, -⟩ := ready_of_add (m := r.m o) hstageOk hrest hstage
  obtain ⟨-, hfits, hnf⟩ := added_fits h.inv.store hfit hadd
  have hcount : pendingCount (.manage k (r.m o) task) = if found then 0 else 1 :=
    pendingCount_add hstage
  refine ⟨_, h.update ho2 hinv rfl ?_ ?_ ?_ ?_ ?_⟩
  · -- the payload goes over to those that are done
    intro hst
    rw [ho] at hst
    cases hst with
    | collecting hinput halone hclose hnf' htaken hnext hs =>
      obtain ⟨c', halone', hclose'⟩ := alone_add halone hclose htaken hs hrest hstage hkey
      refine .collecting ?_ halone' (List.rel_append hclose (.cons hclose' .nil)) ?_ ?_
        (fun _ => rfl) (fun _ _ _ _ => trivial)
      · rw [hinput, hrest, List.append_assoc, List.singleton_append]
      · intro c hc
        rcases List.mem_append.mp hc with hc | hc
        · exact hnf' c hc
        · rw [List.mem_singleton.mp hc]
          exact hnf
      · show task.taken = _
        rw [htaken, hcount, newCount_append]
        cases found <;> rfl
  · intro t ht
    rw [ho] at ht
    cases ht
  · rw [idsTaken, ho, hcount, newCount_append]
    cases found <;> rfl
  · intro i hi
    rw [ho] at hi
    rcases hstage with ⟨rfl, rfl, hst⟩ | ⟨rfl, hst⟩
    · simp [Thread.pending, hst] at hi
    · -- the row of the new id was free
      simp only [Thread.pending, hst, Option.some.injEq] at hi
      subst hi
      obtain ⟨-, hrow, -⟩ := hfits
      have hid : k.service.table.id (k.service.fill (r.m o) data false id cdata) = id :=
        k.service_lawful.fill_id _ _ _ _ _
      exact Or.inr (h.wrote.free (hid ▸ hrow))
  · intro i hlt hle
    exact absurd (show i ≤ s.table.maincounter from hle) (by omega)

/-- **A step among the payloads.** -/
theorem Good.advance {σ : IdleMaster} {s : Sys} {cs : ℕ → List (Change k.Rec)}
    {hist : List (ℕ × List (Change k.Rec))} (h : r.Good σ s cs hist) {l : Label} (ho2 : l.thread < 2)
    {task task' : Progress k.Rec} (ho : s.threads l.thread = .manage k (r.m l.thread) task)
    (hcur : r.Current σ s l) {st' : SharedTable} {adds : List (Change k.Rec)}
    (hadv : k.service.Advances (r.m l.thread) s.table task st' task' adds)
    (hinv : Inv r.requests ⟨st', Function.update s.threads l.thread
      (.manage k (r.m l.thread) task')⟩ (Function.update (changesOf cs) l.thread
        (changesOf cs l.thread ++ adds.map (RecChange.mk k)))) :
    ∃ cs', r.Good σ ⟨st', Function.update s.threads l.thread (.manage k (r.m l.thread) task')⟩ cs'
      hist := by
  have hlaw := k.service_lawful
  cases hadv with
  | read hrest hstage hfirst hcheck hprepare =>
    -- the first four steps change the stage only
    refine h.restage ho2 ho hinv rfl rfl rfl rfl ?_ (by simp [hrest]) ?_
    · simp [Thread.pending, hstage]
    · intro _ data env rest he
      cases hrest.symm.trans he
      exact ⟨hcheck, hprepare⟩
  | reserve hrest hstage hfirst hcheck hreserve =>
    obtain ⟨-, -, rfl, -⟩ := hlaw.reserve_eq_ok.mp hreserve
    refine h.restage ho2 ho hinv rfl rfl rfl rfl ?_ (by simp [hrest]) ?_
    · simp [Thread.pending, hstage]
    · intro _ data env rest he
      cases hrest.symm.trans he
      exact hcheck
  | reserveRead hrest hstage hreserve =>
    obtain ⟨-, -, rfl, -⟩ := hlaw.reserve_eq_ok.mp hreserve
    refine h.restage ho2 ho hinv rfl rfl rfl rfl ?_ (by simp [hrest]) ?_
    · simp [Thread.pending, hstage]
    · intro hs data env rest he
      have hprev := hs data env rest he
      simp only [hstage] at hprev
      exact hprev
  | readReserved hrest hstage hprepare =>
    refine h.restage ho2 ho hinv rfl rfl rfl rfl ?_ (by simp [hrest]) ?_
    · simp [Thread.pending, hstage]
    · intro hs data env rest he
      have hprev := hs data env rest he
      simp only [hstage] at hprev
      cases hrest.symm.trans he
      exact ⟨hprev, hprepare⟩
  | @number data env rest cdata hrest hstage hmay =>
    refine h.number ho2 ho hrest hstage hmay (fun hshared => ?_) rfl hinv
    -- the condition on the step: no id of the other request stands between
    have hcount := hcur.ids (k.service.key data)
      (by rw [ho]; exact Thread.mem_numberNames hrest hstage) hshared
    rw [ho] at hcount
    exact hcount
  | add hrest hstage hadd => exact h.add ho2 ho hrest hstage hadd rfl hinv

/-- A batch is its changes. -/
theorem batch_mk (cs : List (Change k.Rec)) : RecChange.batch (cs.map (RecChange.mk k)) =
    cs.flatMap (k.service.table.rows k.service.ukey) := by
  unfold RecChange.batch
  rw [List.flatMap_map]
  rfl

/-- What is known of a request that has not written its records, typed. -/
theorem Good.live {σ : IdleMaster} {s : Sys} {cs : ℕ → List (Change k.Rec)}
    {hist : List (ℕ × List (Change k.Rec))} (h : r.Good σ s cs hist) {o : ℕ} {nc : TempNameCache}
    {items : List TransItemT} (hl : (s.threads o).live = some (nc, items)) :
    items = (cs o).flatMap (k.service.table.rows k.service.ukey) ∧
      (∀ c ∈ cs o, StoreTable.Fits k.service.table k.service.ukey s.table.maindb c) ∧
      (cs o).Pairwise (StoreTable.Apart k.service.table k.service.ukey) ∧
      ∀ c ∈ cs o, k.service.lock c.record ∈ (s.threads o).locks := by
  obtain ⟨q, hq, hcol⟩ := h.inv.live o nc items hl
  obtain ⟨-, rfl⟩ := request_eq hq
  have hmem : ∀ c ∈ cs o, RecChange.mk k c ∈ changesOf cs o := fun c hc =>
    List.mem_map.mpr ⟨c, hc, rfl⟩
  refine ⟨?_, fun c hc => hcol.fits _ (hmem c hc), ?_, fun c hc => ?_⟩
  · rw [hcol.items]
    exact batch_mk (cs o)
  · have hap : ((cs o).map (RecChange.mk k)).Pairwise RecChange.Apart := hcol.apart
    refine (List.pairwise_map.mp hap).imp fun hcc => ⟨hcc.1, fun hid => hcc.2 ?_⟩
    exact congrArg (encodePrimaryKey k.pkey) hid
  · rw [locks_of_live hl]
    exact hcol.locked _ (hmem c hc)

/-- No two requests hold the reservation of one name. -/
theorem Good.key_ne {σ : IdleMaster} {s : Sys} {cs : ℕ → List (Change k.Rec)}
    {hist : List (ℕ × List (Change k.Rec))} (h : r.Good σ s cs hist) {o o' : ℕ} (ho : o ≠ o')
    {x y : k.Rec} (hx : k.service.lock x ∈ (s.threads o).locks)
    (hy : k.service.lock y ∈ (s.threads o').locks) : k.service.key x ≠ k.service.key y := by
  intro hkey
  rw [← k.service_lawful.lock_eq_iff.mpr hkey] at hy
  exact h.inv.excl o o' ho _ hx hy

/-- A commit that has not written its records still has all its changes. -/
theorem live_commit {phase : Phase} (hphase : phase ≠ .written) (now : ℕ) (nc : TempNameCache)
    (t : TransactionT) : (Thread.commit phase now nc t).live = some (nc, t.item) ∧
      writtenOf (.commit phase now nc t) = none := by
  cases phase with
  | written => exact absurd rfl hphase
  | begin => exact ⟨rfl, rfl⟩
  | numbered => exact ⟨rfl, rfl⟩
  | logged => exact ⟨rfl, rfl⟩

/-- A request holds the reservations of its changes until it has written them. -/
theorem Good.locked {σ : IdleMaster} {s : Sys} {cs : ℕ → List (Change k.Rec)}
    {hist : List (ℕ × List (Change k.Rec))} (h : r.Good σ s cs hist) {o : ℕ} (ho2 : o < 2)
    (hno : o ∉ hist.map Prod.fst) :
    ∀ c ∈ cs o, k.service.lock c.record ∈ (s.threads o).locks := by
  intro c hc
  have hst := h.before o ho2 hno
  cases hth : s.threads o with
  | waiting =>
    -- no changes yet
    have hnil := h.inv.waiting o hth
    rw [changesOf, List.map_eq_nil_iff] at hnil
    rw [hnil] at hc
    cases hc
  | manage k' m task =>
    rw [← hth]
    exact (h.live (o := o) (by rw [hth]; rfl)).2.2.2 c hc
  | commit phase now nc t =>
    rw [hth] at hst
    cases hst with
    | committing hphase _ _ _ =>
      rw [← hth]
      exact (h.live (hth ▸ (live_commit hphase now nc t).1)).2.2.2 c hc
  -- whoever leaves has written or failed
  | leaving nc result =>
    rw [hth] at hst
    cases hst
  | ended result =>
    rw [hth] at hst
    cases hst

/-- A request holds the reservation of the name it is at, once it is reserved. -/
theorem Good.locked_at {σ : IdleMaster} {s : Sys} {cs : ℕ → List (Change k.Rec)}
    {hist : List (ℕ × List (Change k.Rec))} (h : r.Good σ s cs hist) {o : ℕ}
    {task : Progress k.Rec} (ho : s.threads o = .manage k (r.m o) task) {data : k.Rec}
    {env : PrepEnv} {rest : List (k.Rec × PrepEnv)} (hrest : task.rest = (data, env) :: rest)
    (hnext : task.stage ≠ .next) (hread : ∀ found cdata, task.stage ≠ .read found cdata) :
    k.service.lock data ∈ (s.threads o).locks := by
  obtain ⟨-, -, -, hstage, -, hlocks⟩ := h.inv.manage ho
  have hs := hstage data env rest hrest
  rw [hlocks]
  cases hstg : task.stage with
  | next => exact absurd hstg hnext
  | reserved =>
    simp only [hstg] at hs
    exact hs.1
  | read found cdata => exact absurd hstg (hread found cdata)
  | ready found cdata =>
    simp only [hstg] at hs
    exact hs.2.2.1
  | numbered id cdata =>
    simp only [hstg] at hs
    exact hs.2.1.1

/-- **The other request still stands** when one has written records that it is not left with. -/
theorem Good.stands_write {σ : IdleMaster} {s : Sys} {cs : ℕ → List (Change k.Rec)}
    {hist : List (ℕ × List (Change k.Rec))} (h : r.Good σ s cs hist) {o : ℕ}
    {nc : TempNameCache} {items : List TransItemT} (hl : (s.threads o).live = some (nc, items))
    {db' : DataDb} (hok' : StoreOk db') (hdb : db' = s.table.maindb.write (dataBatch items))
    (hfresh : ∀ o' m task data env rest found cdata, s.threads o' = .manage k m task →
      task.rest = (data, env) :: rest → task.stage = .read found cdata →
        k.service.key data ∉ (cs o).map (fun c => k.service.key c.record))
    {o' : ℕ} (ho' : o' < 2) (hne : o' ≠ o) (hno : o' ∉ hist.map Prod.fst) :
    r.Stands σ db' o' (s.threads o') (cs o') := by
  obtain ⟨hitems, hfits, hapart, hlocks⟩ := h.live hl
  rw [hitems] at hdb
  -- a name that the other one holds is none of those written
  have hother : ∀ x : k.Rec, k.service.lock x ∈ (s.threads o').locks →
      k.service.key x ∉ (cs o).map (fun c => k.service.key c.record) := by
    intro x hx hmem
    obtain ⟨c, hc, he⟩ := List.mem_map.mp hmem
    exact h.key_ne hne hx (hlocks c hc) he.symm
  refine (h.before o' ho' hno).write h.inv.store ?_
    (fun c hc => hother c.record (h.locked ho' hno c hc)) ?_
  · -- what is prepared for another name stays as it is
    intro data env out hname hprep
    refine k.prepare_congr h.inv.store hok' ?_ ?_ hprep
    · rw [hdb]
      exact sameNokey_write k _ _
    · rw [hdb]
      refine k.service_lawful.single.find_batch_other (h.inv.store k) hfits hapart
        (k.service_lawful.single.keytype_ukey data) fun c hc he => hname ?_
      exact List.mem_map.mpr ⟨c, hc, he⟩
  · -- the payload it is at: reserved, or read only and then under another name
    intro task data env rest hth hrest hnext _
    by_cases hread : ∃ found cdata, task.stage = .read found cdata
    · obtain ⟨found, cdata, hstage⟩ := hread
      exact hfresh o' _ task data env rest found cdata hth hrest hstage
    · refine hother data (h.locked_at hth hrest hnext fun found cdata hstage => ?_)
      exact hread ⟨found, cdata, hstage⟩

/-- **A request writes its records**, none of which the other is left with. -/
theorem Good.record {σ : IdleMaster} {s : Sys} {cs : ℕ → List (Change k.Rec)}
    {hist : List (ℕ × List (Change k.Rec))} (h : r.Good σ s cs hist) {o : ℕ} (ho2 : o < 2)
    {phase : Phase} {now : ℕ} {nc : TempNameCache} {t : TransactionT}
    (ho : s.threads o = .commit phase now nc t) (hphase : phase ≠ .written) {st' : SharedTable}
    {th' : Thread} (hinv : Inv r.requests ⟨st', Function.update s.threads o th'⟩ (changesOf cs))
    (hwritten : writtenOf th' = some t) (hpending : th'.pending = none)
    (hdb : st'.maindb = s.table.maindb.write (dataBatch t.item))
    (hcount : st'.maincounter = s.table.maincounter)
    (hfresh : ∀ o' m task data env rest found cdata, s.threads o' = .manage k m task →
      task.rest = (data, env) :: rest → task.stage = .read found cdata →
        k.service.key data ∉ (cs o).map (fun c => k.service.key c.record)) :
    ∃ hist', r.Good σ ⟨st', Function.update s.threads o th'⟩ cs hist' := by
  obtain ⟨hl, hw⟩ := live_commit hphase now nc t
  rw [← ho] at hl hw
  have hno : o ∉ hist.map Prod.fst := h.not_mem hw
  obtain ⟨hitems, hfits, hapart, -⟩ := h.live hl
  -- what it writes it makes on its own, from the records before the write
  have hmade : r.Made σ s.table.maindb o (cs o) := by
    have hst := h.before o ho2 hno
    rw [ho] at hst
    cases hst with
    | committing _ halone hclose hnf => exact ⟨⟨_, halone, hclose⟩, hnf, hfits, hapart⟩
  refine ⟨(o, cs o) :: hist, hinv, ?_, ?_, ?_, ?_, ?_, ?_⟩
  · intro o' ho'
    have hne : o' ≠ o := by omega
    simp only [Function.update_of_ne hne]
    exact h.only o' ho'
  · show r.Wrote σ st'.maindb _
    rw [hdb, hitems]
    exact .cons h.wrote ho2 hno hmade
  · intro o' ho' hno'
    obtain ⟨hne, hno'⟩ := not_or.mp (fun he => hno' (List.mem_cons.mpr he))
    simp only [Function.update_of_ne hne]
    exact h.stands_write hl hinv.store hdb hfresh ho' hne hno'
  · intro w hw
    rcases List.mem_cons.mp hw with he | hold
    · refine ⟨by rw [he], t, ?_, ?_⟩
      · simp only [he, Function.update_self]
        exact hwritten
      · rw [he]
        exact hitems
    · have hne : w.1 ≠ o := fun he => hno (List.mem_map.mpr ⟨w, hold, he⟩)
      simp only [Function.update_of_ne hne]
      exact h.after w hold
  · have hmine : idsTaken s cs o = newCount (cs o) + pendingCount th' := by
      unfold idsTaken pendingCount
      rw [hpending, ho]
      rfl
    have htotal := @total_update k s cs _ _ st'.maincounter h.total o ho2 st' th' (cs o)
      (by rw [hmine, hcount])
    rw [Function.update_eq_self] at htotal
    exact htotal
  · intro i hlt hle
    have hle' : i ≤ s.table.maincounter := hcount ▸ hle
    rcases h.free i hlt hle' with ⟨o', hp'⟩ | hrow
    · refine Or.inl ⟨o', ?_⟩
      -- a commit has no id pending
      have hne : o' ≠ o := by
        rintro rfl
        rw [ho] at hp'
        cases hp'
      simp only [Function.update_of_ne hne]
      exact hp'
    · exact Or.inr hrow

/-- A step that keeps the changes. -/
theorem changesOf_keep (cs : ℕ → List (Change k.Rec)) (o : ℕ) :
    Function.update (changesOf cs) o (changesOf cs o ++ []) = changesOf cs := by
  rw [List.append_nil, Function.update_eq_self]

/-- A step after the payloads that writes no records. -/
theorem Good.keep {σ : IdleMaster} {s : Sys} {cs : ℕ → List (Change k.Rec)}
    {hist : List (ℕ × List (Change k.Rec))} (h : r.Good σ s cs hist) {o : ℕ} (ho2 : o < 2)
    {st' : SharedTable} {th' : Thread}
    (hinv : Inv r.requests ⟨st', Function.update s.threads o th'⟩ (changesOf cs))
    (hdb : st'.maindb = s.table.maindb) (hcount : st'.maincounter = s.table.maincounter)
    (hpending : (s.threads o).pending = none ∧ th'.pending = none)
    (hstands : r.Stands σ s.table.maindb o (s.threads o) (cs o) →
      r.Stands σ s.table.maindb o th' (cs o))
    (hafter : ∀ t, writtenOf (s.threads o) = some t → writtenOf th' = some t) :
    r.Good σ ⟨st', Function.update s.threads o th'⟩ cs hist := by
  obtain ⟨hp, hp'⟩ := hpending
  have hgood : r.Good σ ⟨st', Function.update s.threads o th'⟩
      (Function.update cs o (cs o ++ [])) hist := by
    refine h.update ho2 ?_ hdb ?_ (fun t ht => ⟨rfl, hafter t ht⟩) ?_ ?_ ?_
    · rw [List.map_nil, changesOf_keep]
      exact hinv
    · rw [List.append_nil]
      exact hstands
    · unfold idsTaken pendingCount
      rw [hcount, hp, hp', List.append_nil]
    · intro i hi
      rw [hp] at hi
      cases hi
    · intro i hlt hle
      omega
  rw [List.append_nil, Function.update_eq_self] at hgood
  exact hgood

/-- A request starts. -/
theorem Good.start {σ : IdleMaster} {s : Sys} {cs : ℕ → List (Change k.Rec)}
    {hist : List (ℕ × List (Change k.Rec))} (h : r.Good σ s cs hist) {o : ℕ} (ho2 : o < 2)
    (ho : s.threads o = .waiting) {th' : Thread} (hth : th' = .manage k (r.m o) { rest := r.input o })
    (hinv : Inv r.requests ⟨s.table, Function.update s.threads o th'⟩ (changesOf cs)) :
    r.Good σ ⟨s.table, Function.update s.threads o th'⟩ cs hist := by
  subst hth
  have hcs : cs o = [] := List.map_eq_nil_iff.mp (h.inv.waiting _ ho)
  refine h.keep ho2 hinv rfl rfl ?_ ?_ ?_
  · rw [ho]
    exact ⟨rfl, rfl⟩
  · intro _
    rw [hcs]
    exact .collecting (List.nil_append _).symm .nil .nil (fun c hc => absurd hc List.not_mem_nil)
      rfl (fun _ => rfl) (fun _ _ _ _ => trivial)
  · intro t ht
    rw [ho] at ht
    cases ht

/-- A request is through with its payloads. -/
theorem Good.finish {σ : IdleMaster} {s : Sys} {cs : ℕ → List (Change k.Rec)}
    {hist : List (ℕ × List (Change k.Rec))} (h : r.Good σ s cs hist) {o : ℕ} (ho2 : o < 2)
    {task : Progress k.Rec} (ho : s.threads o = .manage k (r.m o) task) (hrest : task.rest = [])
    {now : ℕ} {t : TransactionT} (hinv : Inv r.requests ⟨s.table, Function.update s.threads o
      (.commit .begin now task.nc t)⟩ (changesOf cs)) :
    r.Good σ ⟨s.table, Function.update s.threads o (.commit .begin now task.nc t)⟩ cs hist := by
  have hst := h.before o ho2 (h.not_mem (by rw [ho]; rfl))
  rw [ho] at hst
  cases hst with
  | collecting hinput halone hclose hnf htaken hnext hs =>
    refine h.keep ho2 hinv rfl rfl ?_ ?_ ?_
    · rw [ho]
      simp [Thread.pending, hnext hrest]
    · intro _
      rw [hrest, List.append_nil] at hinput
      rw [← hinput] at halone
      exact .committing (by decide) halone hclose hnf
    · intro t ht
      rw [ho] at ht
      cases ht

/-- A step of the commit before the records are written. -/
theorem Good.commit {σ : IdleMaster} {s : Sys} {cs : ℕ → List (Change k.Rec)}
    {hist : List (ℕ × List (Change k.Rec))} (h : r.Good σ s cs hist) {o : ℕ} (ho2 : o < 2)
    {phase phase' : Phase} {now : ℕ} {nc : TempNameCache} {t t' : TransactionT}
    (ho : s.threads o = .commit phase now nc t) (hphase : phase ≠ .written)
    (hphase' : phase' ≠ .written) {st' : SharedTable} (hdb : st'.maindb = s.table.maindb)
    (hcount : st'.maincounter = s.table.maincounter)
    (hinv : Inv r.requests ⟨st', Function.update s.threads o (.commit phase' now nc t')⟩
      (changesOf cs)) :
    r.Good σ ⟨st', Function.update s.threads o (.commit phase' now nc t')⟩ cs hist := by
  refine h.keep ho2 hinv hdb hcount ?_ ?_ ?_
  · rw [ho]
    exact ⟨rfl, rfl⟩
  · intro hst
    rw [ho] at hst
    cases hst with
    | committing _ halone hclose hnf => exact .committing hphase' halone hclose hnf
  · intro t₁ ht
    rw [ho, (live_commit hphase now nc t).2] at ht
    cases ht

/-- A request without records has nothing to write. -/
theorem Good.empty {σ : IdleMaster} {s : Sys} {cs : ℕ → List (Change k.Rec)}
    {hist : List (ℕ × List (Change k.Rec))} (h : r.Good σ s cs hist) {o : ℕ} (ho2 : o < 2)
    {now : ℕ} {nc : TempNameCache} {t : TransactionT} (ho : s.threads o = .commit .begin now nc t)
    (hitem : t.item = [])
    (hinv : Inv r.requests ⟨s.table, Function.update s.threads o (.leaving nc (some t))⟩
      (changesOf cs)) :
    ∃ hist', r.Good σ ⟨s.table, Function.update s.threads o (.leaving nc (some t))⟩ cs hist' := by
  have hl : (s.threads o).live = some (nc, t.item) := by
    rw [ho]
    rfl
  obtain ⟨hitems, -⟩ := h.live hl
  -- every change has a row
  have hcs : ∀ c ∈ cs o, False := by
    intro c hc
    rw [hitem] at hitems
    exact StoreTable.rows_ne_nil _ _ c (List.flatMap_eq_nil_iff.mp hitems.symm c hc)
  refine h.record ho2 ho (by decide) hinv rfl rfl (by rw [hitem]; rfl) rfl ?_
  intro _ _ _ _ _ _ _ _ _ _ _ hmem
  obtain ⟨c, hc, -⟩ := List.mem_map.mp hmem
  exact hcs c hc

/-- When a request writes its records, the condition on the step says that the other one is not left
    with a record under one of their names. -/
theorem Good.fresh {σ : IdleMaster} {s : Sys} {cs : ℕ → List (Change k.Rec)}
    {hist : List (ℕ × List (Change k.Rec))} (h : r.Good σ s cs hist) {l : Label}
    (hcur : r.Current σ s l) (ho2 : l.thread < 2) {now : ℕ} {nc : TempNameCache} {t : TransactionT}
    (ho : s.threads l.thread = .commit .logged now nc t) {o' : ℕ} {m : Manage}
    {task : Progress k.Rec} {data : k.Rec} {env : PrepEnv} {rest : List (k.Rec × PrepEnv)}
    {found : Bool} {cdata : k.Rec} (hth : s.threads o' = .manage k m task)
    (hrest : task.rest = (data, env) :: rest) (hstage : task.stage = .read found cdata) :
    k.service.key data ∉ (cs l.thread).map (fun c => k.service.key c.record) := by
  have ho' : o' < 2 := by
    by_contra hge
    rw [h.only o' (Nat.le_of_not_lt hge)] at hth
    cases hth
  have hst := h.before _ ho2 (h.not_mem (by rw [ho]; rfl))
  rw [ho] at hst
  cases hst with
  | committing hphase halone hclose hnf =>
    -- the names of its changes are those of its payloads
    rw [keys_close h.inv.store halone hclose]
    refine hcur.fresh (by rw [ho]; rfl) o' ho' _ ?_
    rw [hth]
    exact Thread.mem_readNames hrest hstage

/-- A thread that moves is one of the two. -/
theorem Good.thread_lt {σ : IdleMaster} {s : Sys} {cs : ℕ → List (Change k.Rec)}
    {hist : List (ℕ × List (Change k.Rec))} (h : r.Good σ s cs hist) {o : ℕ} {env : CommitEnv}
    {st' : SharedTable} {th' : Thread} {adds : List RecChange}
    (hm : Moves (r.requests o) s.table env (s.threads o) st' th' adds) : o < 2 := by
  by_contra hge
  rw [h.only _ (Nat.le_of_not_lt hge)] at hm
  cases hm with
  | start hr => exact hge (request_eq hr).1
  | reset hr _ => exact hge (request_eq hr).1
  | refuse hr => exact hge (request_eq hr).1

/-- **One step**: all is well, or a request has failed. -/
theorem Good.moves {σ : IdleMaster} {s : Sys} {cs : ℕ → List (Change k.Rec)}
    {hist : List (ℕ × List (Change k.Rec))} (h : r.Good σ s cs hist) {l : Label}
    (hcur : r.Current σ s l) {st' : SharedTable} {th th' : Thread} {adds : List RecChange}
    (ho : s.threads l.thread = th) (hm : Moves (r.requests l.thread) s.table l.env th st' th' adds) :
    Failed ⟨st', Function.update s.threads l.thread th'⟩ ∨
      ∃ cs' hist', r.Good σ ⟨st', Function.update s.threads l.thread th'⟩ cs' hist' := by
  have ho2 : l.thread < 2 := h.thread_lt (ho ▸ hm)
  have hinv := inv_moves h.inv ho hm
  cases hm with
  | start hr =>
    obtain ⟨-, he⟩ := request_eq hr
    cases he
    rw [changesOf_keep] at hinv
    exact Or.inr ⟨cs, hist, h.start ho2 ho rfl hinv⟩
  -- neither request is a password reset
  | reset hr hold =>
    obtain ⟨-, he⟩ := request_eq hr
    cases he
  | refuse hr =>
    obtain ⟨-, he⟩ := request_eq hr
    cases he
  | advance hadv =>
    obtain ⟨input, hr, -, -⟩ := h.inv.task _ _ _ _ ho
    obtain ⟨-, he⟩ := request_eq hr
    cases he
    obtain ⟨cs', hgood⟩ := h.advance ho2 ho hcur hadv hinv
    exact Or.inr ⟨cs', hist, hgood⟩
  | @fail k' m task =>
    refine Or.inl ⟨l.thread, ho2, Or.inl ⟨task.nc, ?_⟩⟩
    simp only [Function.update_self]
  | finish hrest =>
    obtain ⟨input, hr, -, -⟩ := h.inv.task _ _ _ _ ho
    obtain ⟨-, he⟩ := request_eq hr
    cases he
    rw [changesOf_keep] at hinv
    exact Or.inr ⟨cs, hist, h.finish ho2 ho hrest hinv⟩
  | empty hitem =>
    rw [changesOf_keep] at hinv
    obtain ⟨hist', hgood⟩ := h.empty ho2 ho hitem hinv
    exact Or.inr ⟨cs, hist', hgood⟩
  | number hitem =>
    rw [changesOf_keep] at hinv
    exact Or.inr ⟨cs, hist, h.commit ho2 ho (by decide) (by decide) rfl rfl hinv⟩
  | log =>
    rw [changesOf_keep] at hinv
    exact Or.inr ⟨cs, hist, h.commit ho2 ho (by decide) (by decide) rfl rfl hinv⟩
  | write =>
    rw [changesOf_keep] at hinv
    obtain ⟨hist', hgood⟩ := h.record ho2 ho (by decide) hinv rfl rfl rfl rfl
      fun _ _ _ _ _ _ _ _ hth hrest hstage => h.fresh hcur ho2 ho hth hrest hstage
    exact Or.inr ⟨cs, hist', hgood⟩
  | @push now nc t =>
    rw [changesOf_keep] at hinv
    -- the rest of the commit leaves records and counter
    have hsame := commitTail_same s.table t true l.env
    refine Or.inr ⟨cs, hist, h.keep ho2 hinv hsame.maindb hsame.maincounter ?_ ?_ ?_⟩
    · rw [ho]
      exact ⟨rfl, rfl⟩
    · intro hst
      rw [ho] at hst
      cases hst with
      | committing hphase _ _ _ => exact absurd rfl hphase
    · intro t' ht
      rw [ho] at ht
      exact ht
  | @leave nc result =>
    rw [changesOf_keep] at hinv
    cases result with
    | none =>
      refine Or.inl ⟨l.thread, ho2, Or.inr ?_⟩
      simp only [Function.update_self]
    | some t =>
      refine Or.inr ⟨cs, hist, h.keep ho2 hinv rfl rfl ?_ ?_ ?_⟩
      · rw [ho]
        exact ⟨rfl, rfl⟩
      · intro hst
        rw [ho] at hst
        cases hst
      · intro t' ht
        rw [ho] at ht
        exact ht

/-! ## Runs -/

/-- It holds at the start. -/
theorem good_init (σ : IdleMaster) : r.Good σ ⟨σ.st, fun _ => .waiting⟩ (fun _ => []) [] := by
  refine ⟨inv_init r.requests σ, fun _ _ => rfl, .nil, fun _ _ _ => .waiting, ?_, rfl, ?_⟩
  · intro w hw
    cases hw
  · intro i hlt hle
    exact absurd hle (Nat.not_le_of_lt hlt)

/-- A failure is for ever. -/
theorem Failed.step {s s' : Sys} {l : Label} (h : Failed s)
    (hs : Requests.step r.requests s l = some s') : Failed s' := by
  obtain ⟨o, ho2, hend⟩ := h
  obtain ⟨⟨st', th'⟩, hth, rfl⟩ := Option.map_eq_some_iff.mp hs
  refine ⟨o, ho2, ?_⟩
  by_cases hoo : o = l.thread
  · subst hoo
    simp only [Function.update_self]
    rcases hend with ⟨nc, hnc⟩ | hnone
    · rw [hnc] at hth
      cases hth
      exact Or.inr rfl
    · rw [hnone] at hth
      cases hth
  · simp only [Function.update_of_ne hoo]
    exact hend

/-- **Every run** whose steps are current. -/
theorem good_reach {σ : IdleMaster} {s : Sys}
    (h : (machine r.requests σ).ReachWhere (r.Current σ) s) :
    Failed s ∨ ∃ cs hist, r.Good σ s cs hist := by
  refine Machine.ReachWhere.invariant (I := fun s => Failed s ∨ ∃ cs hist, r.Good σ s cs hist) h
    ?_ ?_
  · rintro s rfl
    exact Or.inr ⟨_, _, good_init σ⟩
  · intro s l s' hI hok hs
    rcases hI with hfail | ⟨cs, hist, hgood⟩
    · exact Or.inl (hfail.step hs)
    · obtain ⟨⟨st', th'⟩, hth, rfl⟩ := Option.map_eq_some_iff.mp hs
      obtain ⟨adds, hmoves⟩ := threadStep_moves hgood.inv.store hth
      exact hgood.moves hok rfl hmoves

/-- The two that have written, in their order. -/
theorem Wrote.both {σ : IdleMaster} {db : DataDb} {hist : List (ℕ × List (Change k.Rec))}
    (h : r.Wrote σ db hist) (hall : ∀ o, o < 2 → o ∈ hist.map Prod.fst) :
    ∃ a b csA csB, a < 2 ∧ b < 2 ∧ a ≠ b ∧ hist = [(b, csB), (a, csA)] ∧
      r.Made σ σ.st.maindb a csA ∧
      r.Made σ (σ.st.maindb.write (dataBatch (csA.flatMap (k.service.table.rows k.service.ukey)))) b
        csB ∧
      db = (σ.st.maindb.write (dataBatch (csA.flatMap (k.service.table.rows k.service.ukey)))).write
        (dataBatch (csB.flatMap (k.service.table.rows k.service.ukey))) := by
  cases h with
  | nil => cases hall 0 (by decide)
  | @cons db hist b csB h hb hnewb hmadeb =>
    cases h with
    | nil =>
      have h0 := List.mem_singleton.mp (hall 0 (by decide))
      have h1 := List.mem_singleton.mp (hall 1 (by decide))
      omega
    | @cons db hist a csA h ha hnewa hmadea =>
      have hne : a ≠ b := by
        rintro rfl
        exact hnewb List.mem_cons_self
      cases h with
      | nil => exact ⟨a, b, csA, csB, ha, hb, hne, rfl, hmadea, hmadeb, rfl⟩
      | @cons db hist o cs h ho hnew hmade =>
        -- there is no third one
        have hoa : o ≠ a := by
          rintro rfl
          exact hnewa List.mem_cons_self
        have hob : o ≠ b := by
          rintro rfl
          exact hnewb (List.mem_cons_of_mem _ List.mem_cons_self)
        omega

end TwoRequests

end Zapdos.Store
