/-
  What concurrent write requests rely on — the invariant of a master with any number of them.

  THE CRUX.  What a thread has collected stays good while others write (`Collected`): the names of a
  `ManageDataAction` are its own from the reservation on, a stored name keeps its id for ever, and a
  new id is handed out once.  `ResetPassAction` reserves nothing, but it only replaces a stored record.
-/
import Zapdos.Store.Requests

namespace Zapdos.Store.Requests

open Zapdos.Lib
open Privileges (Kind)
open PasswordReset (stored renewed)

/-- The reservations and the rows of a thread that has not yet written its records. -/
def Thread.live : Thread → Option (TempNameCache × List TransItemT)
  | .manage _ _ task => some (task.nc, task.items)
  | .commit .written _ _ _ => none
  | .commit _ _ nc t => some (nc, t.item)
  | _ => none

/-- The keys a thread holds in the cache of reservations. -/
def Thread.locks : Thread → List Key
  | .manage _ _ task => task.nc.inset
  | .commit _ _ nc _ => nc.inset
  | .leaving nc _ => nc.inset
  | _ => []

/-- An id that is taken and not yet in the rows. -/
def Thread.pending : Thread → Option ℕ
  | .manage _ _ task =>
    match task.stage with
    | .numbered id _ => some id
    | _ => none
  | _ => none

/-- The thread has taken this id for a new record. -/
def NewId (th : Thread) (cs : List RecChange) (i : ℕ) : Prop :=
  th.pending = some i ∨ ∃ c ∈ cs, c.found = false ∧ c.id = i

/-- **What a thread has collected** is good for the records as they are: every change fits, and is
    either under a reserved name or an update. -/
structure Collected (r : Request) (db : DataDb) (nc : TempNameCache) (items : List TransItemT)
    (cs : List RecChange) : Prop where
  items : items = RecChange.batch cs
  fits : ∀ c ∈ cs, c.Fits db
  apart : cs.Pairwise RecChange.Apart
  kind : ∀ c ∈ cs, ∀ c' ∈ cs, c.kind = c'.kind
  named : ∀ c ∈ cs, c.name ∈ r.names
  owned : ∀ c ∈ cs, (r.reserves = true ∧ c.lock ∈ nc.inset) ∨ (r.reserves = false ∧ c.found = true)

/-- The names that a request has collected are locked by its thread. -/
theorem Collected.locked {k : RecKind} {m : Manage} {input : List (k.Rec × PrepEnv)} {db : DataDb}
    {nc : TempNameCache} {items : List TransItemT} {cs : List RecChange}
    (h : Collected (.manage k m input) db nc items cs) : ∀ c ∈ cs, c.lock ∈ nc.inset := by
  intro c hc
  rcases h.owned c hc with ⟨-, hlock⟩ | ⟨hno, -⟩
  · exact hlock
  · cases hno

/-- The name is reserved and new to the changes. -/
def Own (k : RecKind) (task : Progress k.Rec) (cs : List RecChange) (data : k.Rec) : Prop :=
  k.service.lock data ∈ task.nc.inset ∧ ∀ c ∈ cs, c.name ≠ k.service.key data

/-- What is known of the payload a thread is at. -/
def StageOk (db : DataDb) (k : RecKind) (task : Progress k.Rec) (cs : List RecChange) : Prop :=
  ∀ data env rest, task.rest = (data, env) :: rest →
    match task.stage with
    | .next => True
    | .read found cdata =>
      k.service.key cdata = k.service.key data ∧
        (found = true → (⟨k, ⟨true, cdata⟩⟩ : RecChange).Fits db)
    | .reserved => Own k task cs data
    | .ready found cdata =>
      k.service.key cdata = k.service.key data ∧
        (found = true → (⟨k, ⟨true, cdata⟩⟩ : RecChange).Fits db) ∧ Own k task cs data
    | .numbered id cdata =>
      k.service.key cdata = k.service.key data ∧ Own k task cs data ∧
        ∀ c ∈ cs, c.found = false → c.id ≠ id

/-- **The invariant**, with the changes `cs` of the threads. -/
structure Inv (requests : ℕ → Option Request) (s : Sys) (cs : ℕ → List RecChange) : Prop where
  store : StoreOk s.table.maindb
  waiting : ∀ o, s.threads o = .waiting → cs o = []
  live : ∀ o nc items, (s.threads o).live = some (nc, items) →
    ∃ r, requests o = some r ∧ Collected r s.table.maindb nc items (cs o)
  task : ∀ o k m task, s.threads o = .manage k m task →
    ∃ input, requests o = some (.manage k m input) ∧ task.rest <:+ input ∧
      StageOk s.table.maindb k task (cs o)
  held : ∀ o, ∀ key ∈ (s.threads o).locks, (s.table.tmpcache.get key).isSome = true
  excl : ∀ o o', o ≠ o' → ∀ key ∈ (s.threads o).locks, key ∉ (s.threads o').locks
  counted : ∀ o i, NewId (s.threads o) (cs o) i → i ≤ s.table.maincounter
  once : ∀ o o', o ≠ o' → ∀ i, NewId (s.threads o) (cs o) i → ¬ NewId (s.threads o') (cs o') i

/-- What a thread on its way has locked are the names it has reserved. -/
theorem locks_of_live {th : Thread} {nc : TempNameCache} {items : List TransItemT}
    (h : th.live = some (nc, items)) : th.locks = nc.inset := by
  cases th with
  | waiting => cases h
  | manage k m task =>
    cases h
    rfl
  | commit phase now nc' t =>
    cases phase <;> cases h <;> rfl
  | leaving nc' result => cases h
  | ended result => cases h

/-- Changes of different threads do not bring the same new name or id. -/
theorem Inv.compatible {requests : ℕ → Option Request} {s : Sys} {cs : ℕ → List RecChange}
    (h : Inv requests s cs) {o o' : ℕ} (ho : o ≠ o') {nc nc' : TempNameCache}
    {items items' : List TransItemT} (hl : (s.threads o).live = some (nc, items))
    (hl' : (s.threads o').live = some (nc', items')) :
    ∀ c ∈ cs o, ∀ c' ∈ cs o', RecChange.Compatible c c' := by
  obtain ⟨r, -, hcol⟩ := h.live o nc items hl
  obtain ⟨r', -, hcol'⟩ := h.live o' nc' items' hl'
  intro c hc c' hc' hf hf'
  constructor
  · intro hname
    rcases hcol.owned c hc with ⟨-, hlock⟩ | ⟨-, hfound⟩
    · rcases hcol'.owned c' hc' with ⟨-, hlock'⟩ | ⟨-, hfound'⟩
      · -- the one name would be reserved twice
        rw [← locks_of_live hl] at hlock
        rw [← locks_of_live hl', ← RecChange.lock_of_name hname] at hlock'
        exact h.excl o o' ho c.lock hlock hlock'
      · rw [hf'] at hfound'
        cases hfound'
    · rw [hf] at hfound
      cases hfound
  · intro hid
    exact h.once o o' ho c.id (Or.inr ⟨c, hc, hf, rfl⟩) (Or.inr ⟨c', hc', hf', hid.symm⟩)

/-- The changes of a thread are compatible among themselves. -/
theorem Collected.compatible {r : Request} {db : DataDb} {nc : TempNameCache}
    {items : List TransItemT} {cs : List RecChange} (h : Collected r db nc items cs) :
    cs.Pairwise RecChange.Compatible :=
  h.apart.imp_of_mem fun {a b} ha hb hap => hap.compatible (h.kind a ha b hb)

/-- What is known of a payload is still known when the stored records stay stored. -/
theorem StageOk.mono {db db' : DataDb} {k : RecKind} {task : Progress k.Rec} {cs : List RecChange}
    (h : StageOk db k task cs)
    (hfound : ∀ c : RecChange, c.found = true → c.Fits db → c.Fits db') :
    StageOk db' k task cs := by
  intro data env rest hrest
  have hs := h data env rest hrest
  cases hst : task.stage with
  | next => trivial
  | read found cdata =>
    simp only [hst] at hs ⊢
    exact ⟨hs.1, fun hf => hfound _ rfl (hs.2 hf)⟩
  | reserved =>
    simp only [hst] at hs ⊢
    exact hs
  | ready found cdata =>
    simp only [hst] at hs ⊢
    exact ⟨hs.1, fun hf => hfound _ rfl (hs.2.1 hf), hs.2.2⟩
  | numbered id cdata =>
    simp only [hst] at hs ⊢
    exact hs

/-- **One thread moves**: what the others know stays true, if the records keep what they rely on and
    no key or id they hold is taken. -/
theorem Inv.update {requests : ℕ → Option Request} {s : Sys} {cs : ℕ → List RecChange}
    (h : Inv requests s cs) {o : ℕ} {st' : SharedTable} {th' : Thread} {cs' : List RecChange}
    (hstore : StoreOk st'.maindb)
    (hothers : ∀ o', o' ≠ o → ∀ nc items, (s.threads o').live = some (nc, items) →
      ∀ c ∈ cs o', c.Fits s.table.maindb → c.Fits st'.maindb)
    (hfound : ∀ c : RecChange, c.found = true → c.Fits s.table.maindb → c.Fits st'.maindb)
    (hcount : s.table.maincounter ≤ st'.maincounter)
    (hwait : th' ≠ .waiting)
    (hlive : ∀ nc items, th'.live = some (nc, items) →
      ∃ r, requests o = some r ∧ Collected r st'.maindb nc items cs')
    (htask : ∀ k m task, th' = .manage k m task →
      ∃ input, requests o = some (.manage k m input) ∧ task.rest <:+ input ∧
        StageOk st'.maindb k task cs')
    (hheld : ∀ key ∈ th'.locks, (st'.tmpcache.get key).isSome = true)
    (hkeep : ∀ key, (s.table.tmpcache.get key).isSome = true → key ∉ (s.threads o).locks →
      (st'.tmpcache.get key).isSome = true)
    (hlocks : ∀ key ∈ th'.locks, key ∈ (s.threads o).locks ∨ s.table.tmpcache.get key = none)
    (hids : ∀ i, NewId th' cs' i → NewId (s.threads o) (cs o) i ∨ s.table.maincounter < i)
    (hle : ∀ i, NewId th' cs' i → i ≤ st'.maincounter) :
    Inv requests ⟨st', Function.update s.threads o th'⟩ (Function.update cs o cs') := by
  -- the keys and ids of another thread are neither old nor new ones of this thread
  have hkeys : ∀ o', o' ≠ o → ∀ key ∈ (s.threads o').locks, key ∉ th'.locks := by
    intro o' ho key hkey hnew
    rcases hlocks key hnew with hold | hnone
    · exact h.excl o' o ho key hkey hold
    · -- it was free, so no one held it
      have hsome := h.held o' key hkey
      rw [hnone] at hsome
      cases hsome
  have hnew : ∀ o', o' ≠ o → ∀ i, NewId (s.threads o') (cs o') i → ¬ NewId th' cs' i := by
    intro o' ho i hi hi'
    rcases hids i hi' with hold | hlt
    · exact h.once o' o ho i hi hold
    · have hle' := h.counted o' i hi
      omega
  constructor
  case store => exact hstore
  case waiting =>
    exact forall_update (P := fun _ (th : Thread) (cs : List RecChange) => th = .waiting → cs = [])
      (fun hw => absurd hw hwait) fun o' _ => h.waiting o'
  case live =>
    refine forall_update (P := fun o (th : Thread) cs => ∀ nc items, th.live = some (nc, items) →
      ∃ r, requests o = some r ∧ Collected r st'.maindb nc items cs) hlive fun o' ho nc items hl => ?_
    obtain ⟨r, hr, hcol⟩ := h.live o' nc items hl
    exact ⟨r, hr, hcol.items, fun c hc => hothers o' ho nc items hl c hc (hcol.fits c hc),
      hcol.apart, hcol.kind, hcol.named, hcol.owned⟩
  case task =>
    refine forall_update (P := fun o (th : Thread) cs => ∀ k m task, th = .manage k m task →
      ∃ input, requests o = some (.manage k m input) ∧ task.rest <:+ input ∧
        StageOk st'.maindb k task cs) htask fun o' _ k m task ht => ?_
    obtain ⟨input, hr, hsuf, hstage⟩ := h.task o' k m task ht
    exact ⟨input, hr, hsuf, hstage.mono hfound⟩
  case held =>
    exact forall_update (g := cs) (b := cs')
      (P := fun _ (th : Thread) _ => ∀ key ∈ th.locks, (st'.tmpcache.get key).isSome = true) hheld
      fun o' ho key hkey => hkeep key (h.held o' key hkey) (h.excl o' o ho key hkey)
  case excl =>
    exact disjoint_update (g := cs) (b := cs') (P := fun (th : Thread) _ key => key ∈ th.locks) h.excl hkeys
  case counted =>
    exact forall_update (P := fun _ th cs => ∀ i, NewId th cs i → i ≤ st'.maincounter) hle
      fun o' _ i hi => (h.counted o' i hi).trans hcount
  case once => exact disjoint_update (P := NewId) h.once hnew

/-- A step that leaves records, reservations and counter as they are. -/
theorem Inv.quiet {requests : ℕ → Option Request} {s : Sys} {cs : ℕ → List RecChange}
    (h : Inv requests s cs) {o : ℕ} {st' : SharedTable} {th' : Thread} {cs' : List RecChange}
    (hdb : st'.maindb = s.table.maindb) (htmp : st'.tmpcache = s.table.tmpcache)
    (hcount : st'.maincounter = s.table.maincounter) (hwait : th' ≠ .waiting)
    (hlive : ∀ nc items, th'.live = some (nc, items) →
      ∃ r, requests o = some r ∧ Collected r s.table.maindb nc items cs')
    (htask : ∀ k m task, th' = .manage k m task →
      ∃ input, requests o = some (.manage k m input) ∧ task.rest <:+ input ∧
        StageOk s.table.maindb k task cs')
    (hlocks : ∀ key ∈ th'.locks, key ∈ (s.threads o).locks)
    (hids : ∀ i, NewId th' cs' i → NewId (s.threads o) (cs o) i) :
    Inv requests ⟨st', Function.update s.threads o th'⟩ (Function.update cs o cs') := by
  refine h.update ?_ ?_ ?_ ?_ hwait ?_ ?_ ?_ ?_ ?_ ?_ ?_
  · rw [hdb]
    exact h.store
  · intro o' _ nc items _ c _ hfit
    rw [hdb]
    exact hfit
  · intro c _ hfit
    rw [hdb]
    exact hfit
  · rw [hcount]
  · rw [hdb]
    exact hlive
  · rw [hdb]
    exact htask
  · intro key hkey
    rw [htmp]
    exact h.held o key (hlocks key hkey)
  · intro key hkey _
    rw [htmp]
    exact hkey
  · intro key hkey
    exact Or.inl (hlocks key hkey)
  · intro i hi
    exact Or.inl (hids i hi)
  · intro i hi
    rw [hcount]
    exact h.counted o i (hids i hi)

/-- **What `AddRecord` adds** for a record that is ready: rows of a change that fits, of a record that
    is not marked as missing. -/
theorem added_fits {k : RecKind} {db : DataDb} (hok : StoreOk db) {m : Manage} {data cdata : k.Rec}
    {found : Bool} {id : ℕ} {items items' : List TransItemT}
    (hfit : found = true → (⟨k, ⟨true, cdata⟩⟩ : RecChange).Fits db)
    (hadd : k.service.table.addRecord db (k.service.fill m data found id cdata) items found =
      .ok (some items')) :
    items' = items ++ (⟨k, ⟨found, k.service.fill m data found id cdata⟩⟩ : RecChange).rows ∧
      (⟨k, ⟨found, k.service.fill m data found id cdata⟩⟩ : RecChange).Fits db ∧
      k.service.table.notfound (k.service.fill m data found id cdata) = false := by
  have hlaw := k.service_lawful
  cases found with
  | true =>
    -- the record replaces the one it was made from: the fill keeps key and id
    have hold : ∃ old, k.service.table.find db
        (k.service.table.getKey cdata k.service.ukey) = some old ∧
          k.service.table.id cdata = k.service.table.id old := hfit rfl
    obtain ⟨old, hold, hid⟩ := hold
    have hold' : k.service.table.find db (k.service.table.getKey
        (k.service.fill m data true id cdata) k.service.ukey) = some old :=
      (congrArg _ (hlaw.fill_key m data true id cdata)).trans hold
    have hid' : k.service.table.id (k.service.fill m data true id cdata) =
        k.service.table.id old := by
      rw [hlaw.fill_id, if_pos rfl, hid]
    rw [hlaw.single.addRecord_update (hok k) hold' hid', Except.ok.injEq] at hadd
    split at hadd
    · rename_i hnf
      exact ⟨(Option.some.inj hadd).symm, ⟨old, hold', hid'⟩, hnf⟩
    · cases hadd
  | false =>
    -- `AddRecord` has looked up both keys
    rw [hlaw.single.addRecord_insert (hok k), Except.ok.injEq] at hadd
    split at hadd
    · rename_i hfree
      exact ⟨(Option.some.inj hadd).symm, ⟨hfree.2.1, hfree.2.2.1, hfree.2.2.2⟩, hfree.1⟩
    · cases hadd

/-! ## A thread among its payloads -/

/-- What is known of a thread among its payloads. -/
theorem Inv.manage {requests : ℕ → Option Request} {s : Sys} {cs : ℕ → List RecChange}
    (h : Inv requests s cs) {o : ℕ} {k : RecKind} {m : Manage} {task : Progress k.Rec}
    (ho : s.threads o = .manage k m task) :
    ∃ input, requests o = some (.manage k m input) ∧ task.rest <:+ input ∧
      StageOk s.table.maindb k task (cs o) ∧
      Collected (.manage k m input) s.table.maindb task.nc task.items (cs o) ∧
      (s.threads o).locks = task.nc.inset := by
  obtain ⟨input, hreq, hsuf, hstage⟩ := h.task o k m task ho
  obtain ⟨r, hreq', hcol⟩ := h.live o task.nc task.items (by rw [ho]; rfl)
  -- both are about the one request of the thread
  rw [hreq, Option.some.injEq] at hreq'
  subst hreq'
  refine ⟨input, hreq, hsuf, hstage, hcol, ?_⟩
  rw [ho]
  rfl

/-- A name that a request has not reserved is not among its changes. -/
theorem Collected.fresh {k : RecKind} {m : Manage} {input : List (k.Rec × PrepEnv)} {db : DataDb}
    {nc : TempNameCache} {items : List TransItemT} {cs : List RecChange}
    (h : Collected (.manage k m input) db nc items cs) {data : k.Rec}
    (hin : k.service.lock data ∉ nc.inset) : ∀ c ∈ cs, c.name ≠ k.service.key data := by
  intro c hc hname
  -- its lock would be reserved
  have hlock : c.lock = (⟨k, ⟨true, data⟩⟩ : RecChange).lock := RecChange.lock_of_name hname
  have hmem := h.locked c hc
  rw [hlock] at hmem
  exact hin hmem

/-- What a record that was read brings. -/
theorem prepared_fits {k : RecKind} {db : DataDb} (hok : StoreOk db) {m : Manage} {env : PrepEnv}
    {data cdata : k.Rec} {found : Bool}
    (hp : k.service.prepare env db m data = .ok (found, cdata)) :
    k.service.key cdata = k.service.key data ∧
      (found = true → (⟨k, ⟨true, cdata⟩⟩ : RecChange).Fits db) := by
  obtain ⟨hkey, hfound, hid⟩ := k.service_lawful.prepare (hok k) hp
  refine ⟨hkey, fun hf => ?_⟩
  rw [hf] at hfound
  obtain ⟨old, hold⟩ := Option.isSome_iff_exists.mp hfound.symm
  exact ⟨old, (congrArg _ hkey).trans hold, hid old hold⟩

/-- A thread that has no number yet has taken ids for its changes only. -/
theorem newId_of_unnumbered {k : RecKind} {m : Manage} {task : Progress k.Rec}
    {cs : List RecChange} {th : Thread} (hpending : ∀ i cdata, task.stage ≠ .numbered i cdata)
    {i : ℕ} (hi : NewId (.manage k m task) cs i) : NewId th cs i := by
  rcases hi with hi | hi
  · exfalso
    unfold Thread.pending at hi
    cases hst : task.stage with
    | numbered j cdata => exact hpending j cdata hst
    | next => simp [hst] at hi
    | read found cdata => simp [hst] at hi
    | reserved => simp [hst] at hi
    | ready found cdata => simp [hst] at hi
  · exact Or.inr hi

/-- The record of a payload is read. -/
theorem Inv.read {requests : ℕ → Option Request} {s : Sys} {cs : ℕ → List RecChange}
    (h : Inv requests s cs) {o : ℕ} {k : RecKind} {m : Manage} {task : Progress k.Rec}
    (ho : s.threads o = .manage k m task) {stage : Stage k.Rec}
    (hpending : ∀ i cdata, stage ≠ .numbered i cdata)
    (hstage : StageOk s.table.maindb k { task with stage := stage } (cs o)) :
    Inv requests ⟨s.table, Function.update s.threads o (.manage k m { task with stage := stage })⟩
      (Function.update cs o (cs o)) := by
  obtain ⟨input, hreq, hsuf, -, hcol, hlocks⟩ := h.manage ho
  refine h.quiet rfl rfl rfl (by simp) ?_ ?_ ?_ fun i hi => newId_of_unnumbered hpending hi
  · rintro nc items he
    cases he
    exact ⟨_, hreq, hcol⟩
  · rintro k' m' t he
    cases he
    exact ⟨input, hreq, hsuf, hstage⟩
  · intro key hkey
    rw [hlocks]
    exact hkey

/-- A name is reserved: the key was free, and is held from now on. -/
theorem Inv.acquire {requests : ℕ → Option Request} {s : Sys} {cs : ℕ → List RecChange}
    (h : Inv requests s cs) {o : ℕ} {k : RecKind} {m : Manage} {task : Progress k.Rec}
    (ho : s.threads o = .manage k m task) {r : k.Rec} {st' : SharedTable} {nc : TempNameCache}
    (hr : k.service.reserve s.table task.nc r = .ok (st', nc)) {stage : Stage k.Rec}
    (hpending : ∀ i cdata, stage ≠ .numbered i cdata)
    (hstage : StageOk s.table.maindb k { task with stage := stage, nc := nc } (cs o)) :
    Inv requests ⟨st', Function.update s.threads o
      (.manage k m { task with stage := stage, nc := nc })⟩ (Function.update cs o (cs o)) := by
  obtain ⟨input, hreq, hsuf, -, hcol, hlocks⟩ := h.manage ho
  obtain ⟨-, hfree, rfl, rfl⟩ := k.service_lawful.reserve_eq_ok.mp hr
  -- all that was reserved still is
  have hput : ∀ key, (s.table.tmpcache.get key).isSome = true →
      ((s.table.tmpcache.put (k.service.lock r) []).get key).isSome = true := by
    intro key hkey
    rw [OrdMap.get_put]
    split
    · rfl
    · exact hkey
  refine h.update h.store (fun _ _ _ _ _ _ _ hfit => hfit) (fun _ _ hfit => hfit) le_rfl (by simp)
    ?_ ?_ ?_ (fun key hkey _ => hput key hkey) ?_
    (fun i hi => Or.inl (newId_of_unnumbered hpending hi))
    fun i hi => h.counted o i (newId_of_unnumbered hpending hi)
  · rintro nc' items' he
    cases he
    exact ⟨_, hreq, hcol.items, hcol.fits, hcol.apart, hcol.kind, hcol.named, fun c hc =>
      Or.inl ⟨rfl, List.mem_insert_of_mem (hcol.locked c hc)⟩⟩
  · rintro k' m' task' he
    cases he
    exact ⟨input, hreq, hsuf, hstage⟩
  · intro key hkey
    rcases List.mem_insert_iff.mp hkey with rfl | hkey
    · simp
    · exact hput key (h.held o key (hlocks ▸ hkey))
  · intro key hkey
    rcases List.mem_insert_iff.mp hkey with rfl | hkey
    · exact Or.inr hfree
    · exact Or.inl (hlocks ▸ hkey)

/-- A new record takes the next id. -/
theorem Inv.number {requests : ℕ → Option Request} {s : Sys} {cs : ℕ → List RecChange}
    (h : Inv requests s cs) {o : ℕ} {k : RecKind} {m : Manage} {task : Progress k.Rec}
    (ho : s.threads o = .manage k m task) {cdata : k.Rec} (hstage : task.stage = .ready false cdata) :
    Inv requests ⟨{ s.table with maincounter := s.table.maincounter + 1 },
      Function.update s.threads o (.manage k m { task with
        stage := .numbered (s.table.maincounter + 1) cdata, taken := task.taken + 1 })⟩
      (Function.update cs o (cs o)) := by
  obtain ⟨input, hreq, hsuf, hstageOk, hcol, hlocks⟩ := h.manage ho
  have hids : ∀ i, NewId (.manage k m { task with
      stage := .numbered (s.table.maincounter + 1) cdata, taken := task.taken + 1 }) (cs o) i →
        NewId (s.threads o) (cs o) i ∨ i = s.table.maincounter + 1 := by
    rintro i (hi | hi)
    · exact Or.inr (Option.some.inj hi).symm
    · exact Or.inl (Or.inr hi)
  refine h.update h.store (fun _ _ _ _ _ _ _ hfit => hfit) (fun _ _ hfit => hfit)
    (Nat.le_succ _) (by simp) ?_ ?_ ?_ (fun _ hkey _ => hkey) ?_ (fun i hi => ?_) (fun i hi => ?_)
  · rintro nc items he
    cases he
    exact ⟨_, hreq, hcol⟩
  · rintro k' m' t he
    cases he
    refine ⟨input, hreq, hsuf, fun data env rest he => ?_⟩
    have hprev := hstageOk data env rest he
    simp only [hstage] at hprev
    refine ⟨hprev.1, hprev.2.2, fun c hc hf hid => ?_⟩
    -- the counter is past all ids that were taken
    have hle := h.counted o c.id (Or.inr ⟨c, hc, hf, rfl⟩)
    omega
  · intro key hkey
    exact h.held o key (hlocks ▸ hkey)
  · intro key hkey
    exact Or.inl (hlocks ▸ hkey)
  · rcases hids i hi with hi | rfl
    · exact Or.inl hi
    · exact Or.inr (Nat.lt_succ_self _)
  · rcases hids i hi with hi | rfl
    · exact (h.counted o i hi).trans (Nat.le_succ _)
    · exact le_rfl

/-- A record that `AddRecord` is called for is ready, and a new one has its id. -/
theorem ready_of_add {db : DataDb} {k : RecKind} {m : Manage} {task : Progress k.Rec}
    {cs : List RecChange} {data : k.Rec} {env : PrepEnv} {rest : List (k.Rec × PrepEnv)}
    {found : Bool} {id : ℕ} {cdata : k.Rec} (h : StageOk db k task cs)
    (hrest : task.rest = (data, env) :: rest)
    (hstage : (found = true ∧ id = 0 ∧ task.stage = .ready true cdata) ∨
      (found = false ∧ task.stage = .numbered id cdata)) :
    k.service.key cdata = k.service.key data ∧
      (found = true → (⟨k, ⟨true, cdata⟩⟩ : RecChange).Fits db) ∧ Own k task cs data ∧
      (found = false → (Thread.manage k m task).pending = some id ∧
        ∀ c ∈ cs, c.found = false → c.id ≠ id) := by
  have hprev := h data env rest hrest
  rcases hstage with ⟨rfl, rfl, hst⟩ | ⟨rfl, hst⟩
  · simp only [hst] at hprev
    refine ⟨hprev.1, fun _ => hprev.2.1 trivial, hprev.2.2, fun hf => ?_⟩
    cases hf
  · simp only [hst] at hprev
    refine ⟨hprev.1, fun hf => ?_, hprev.2.1, fun _ => ⟨?_, hprev.2.2⟩⟩
    · cases hf
    · simp only [Thread.pending, hst]

/-- **One change more**, of a record that is reserved and new to the changes. -/
theorem Collected.add {k : RecKind} {m : Manage} {input : List (k.Rec × PrepEnv)} {db : DataDb}
    {nc : TempNameCache} {items : List TransItemT} {cs : List RecChange} (hok : StoreOk db)
    (h : Collected (.manage k m input) db nc items cs) {change : Change k.Rec} {data : k.Rec}
    (hdata : data ∈ input.map Prod.fst) (hname : k.service.key change.record = k.service.key data)
    (hfits : (⟨k, change⟩ : RecChange).Fits db) (hlock : k.service.lock data ∈ nc.inset)
    (hnew : ∀ c ∈ cs, c.name ≠ k.service.key data)
    (hid : change.found = false → ∀ c ∈ cs, c.found = false →
      c.id ≠ (⟨k, change⟩ : RecChange).id) :
    Collected (.manage k m input) db nc (items ++ (⟨k, change⟩ : RecChange).rows)
      (cs ++ [⟨k, change⟩]) := by
  have hlaw := k.service_lawful
  have hnamed : ∀ c ∈ cs ++ [(⟨k, change⟩ : RecChange)], c.name ∈ (Request.manage k m input).names := by
    intro c hc
    rcases List.mem_append.mp hc with hc | hc
    · exact h.named c hc
    · rw [List.mem_singleton.mp hc]
      obtain ⟨p, hp, rfl⟩ := List.mem_map.mp hdata
      exact List.mem_map.mpr ⟨p, hp, hname.symm⟩
  -- a name tells the kind
  have hkind : ∀ c ∈ cs ++ [(⟨k, change⟩ : RecChange)], c.kind = k := by
    intro c hc
    obtain ⟨p, -, hp⟩ := List.mem_map.mp (hnamed c hc)
    have ht := congrArg Key.keytype hp
    rw [RecChange.keytype_name] at ht
    exact (RecKind.ukey_inj ((hlaw.single.keytype_ukey p.1).symm.trans ht)).symm
  refine ⟨?_, ?_, ?_, fun c hc c' hc' => (hkind c hc).trans (hkind c' hc').symm, hnamed, ?_⟩
  · rw [h.items]
    unfold RecChange.batch
    rw [List.flatMap_append, List.flatMap_singleton]
  · intro c hc
    rcases List.mem_append.mp hc with hc | hc
    · exact h.fits c hc
    · rw [List.mem_singleton.mp hc]
      exact hfits
  · refine List.pairwise_append.mpr ⟨h.apart, List.pairwise_singleton _ _, fun c hc c' hc' => ?_⟩
    rw [List.mem_singleton.mp hc']
    -- different names, and different ids if both are new
    have hne : c.name ≠ (⟨k, change⟩ : RecChange).name := fun he => hnew c hc (he.trans hname)
    exact RecChange.apart_of_fits hok (h.fits c hc) hfits
      (fun hf hf' => ⟨hne, hid hf' c hc hf⟩) hne
  · intro c hc
    rcases List.mem_append.mp hc with hc | hc
    · exact Or.inl ⟨rfl, h.locked c hc⟩
    · rw [List.mem_singleton.mp hc]
      refine Or.inl ⟨rfl, ?_⟩
      have hsame : (⟨k, change⟩ : RecChange).lock = k.service.lock data := hlaw.lock_eq_iff.mpr hname
      rw [hsame]
      exact hlock

/-- `AddRecord` adds the rows of a record. -/
theorem Inv.add {requests : ℕ → Option Request} {s : Sys} {cs : ℕ → List RecChange}
    (h : Inv requests s cs) {o : ℕ} {k : RecKind} {m : Manage} {task : Progress k.Rec}
    (ho : s.threads o = .manage k m task) {data : k.Rec} {env : PrepEnv}
    {rest : List (k.Rec × PrepEnv)} {found : Bool} {id : ℕ} {cdata : k.Rec}
    {items : List TransItemT} (hrest : task.rest = (data, env) :: rest)
    (hstage : (found = true ∧ id = 0 ∧ task.stage = .ready true cdata) ∨
      (found = false ∧ task.stage = .numbered id cdata))
    (hadd : k.service.table.addRecord s.table.maindb (k.service.fill m data found id cdata)
      task.items found = .ok (some items)) :
    Inv requests ⟨s.table, Function.update s.threads o
        (.manage k m { task with rest := rest, stage := .next, items := items })⟩
      (Function.update cs o
        (cs o ++ [⟨k, ⟨found, k.service.fill m data found id cdata⟩⟩])) := by
  have hlaw := k.service_lawful
  obtain ⟨input, hreq, hsuf, hstageOk, hcol, hlocks⟩ := h.manage ho
  obtain ⟨hkey, hfit, ⟨hlock, hnames⟩, hnumber⟩ := ready_of_add (m := m) hstageOk hrest hstage
  obtain ⟨rfl, hfits, -⟩ := added_fits h.store hfit hadd
  have hname : k.service.key (k.service.fill m data found id cdata) = k.service.key data :=
    (hlaw.fill_key m data found id cdata).trans hkey
  have hid : found = false → k.service.table.id (k.service.fill m data found id cdata) = id := by
    rintro rfl
    exact hlaw.fill_id m data false id cdata
  -- the payload is one of the request: what is left is a suffix of it
  have hdata : data ∈ input.map Prod.fst := by
    have hmem : (data, env) ∈ task.rest := by
      rw [hrest]
      exact List.mem_cons_self
    exact List.mem_map.mpr ⟨_, hsuf.subset hmem, rfl⟩
  refine h.quiet rfl rfl rfl (by simp) ?_ ?_ ?_ ?_
  · rintro nc items' he
    cases he
    refine ⟨_, hreq, hcol.add h.store hdata hname hfits hlock hnames fun hf c hc hf' => ?_⟩
    show c.id ≠ k.service.table.id (k.service.fill m data found id cdata)
    rw [hid hf]
    exact (hnumber hf).2 c hc hf'
  · rintro k' m' t he
    cases he
    refine ⟨input, hreq, ?_, fun _ _ _ _ => trivial⟩
    refine List.IsSuffix.trans ?_ hsuf
    rw [hrest]
    exact List.suffix_cons _ _
  · intro key hkey
    rw [hlocks]
    exact hkey
  · rintro i (hi | ⟨c, hc, hf, rfl⟩)
    · cases hi
    · rcases List.mem_append.mp hc with hc | hc
      · exact Or.inr ⟨c, hc, hf, rfl⟩
      · -- the id of the new record was pending
        rw [List.mem_singleton.mp hc] at hf ⊢
        have hpending := (hnumber hf).1
        rw [← ho, ← hid hf] at hpending
        exact Or.inl hpending

/-- **A step among the payloads.** -/
theorem inv_advance {requests : ℕ → Option Request} {s : Sys} {cs : ℕ → List RecChange}
    (h : Inv requests s cs) {o : ℕ} {k : RecKind} {m : Manage} {task task' : Progress k.Rec}
    {st' : SharedTable} {adds : List (Change k.Rec)} (ho : s.threads o = .manage k m task)
    (hadv : k.service.Advances m s.table task st' task' adds) :
    Inv requests ⟨st', Function.update s.threads o (.manage k m task')⟩
      (Function.update cs o (cs o ++ adds.map (RecChange.mk k))) := by
  have hlaw := k.service_lawful
  obtain ⟨input, hreq, hsuf, hstageOk, hcol, hlocks⟩ := h.manage ho
  cases hadv with
  | read hrest hstage hfirst hcheck hprepare =>
    rw [List.map_nil, List.append_nil]
    refine h.read ho (by simp) fun data env rest he => ?_
    cases hrest.symm.trans he
    exact prepared_fits h.store hprepare
  | reserve hrest hstage hfirst hcheck hreserve =>
    rw [List.map_nil, List.append_nil]
    refine h.acquire ho hreserve (by simp) fun data env rest he => ?_
    obtain ⟨hin, -, -, rfl⟩ := hlaw.reserve_eq_ok.mp hreserve
    cases hrest.symm.trans he
    exact ⟨List.mem_insert_self, hcol.fresh hin⟩
  | reserveRead hrest hstage hreserve =>
    rw [List.map_nil, List.append_nil]
    refine h.acquire ho hreserve (by simp) fun data env rest he => ?_
    obtain ⟨hin, -, -, rfl⟩ := hlaw.reserve_eq_ok.mp hreserve
    -- users, exters and items are read first; reserved is the name of the record
    have hprev := hstageOk data env rest he
    simp only [hstage] at hprev
    obtain ⟨hkey, hfit⟩ := hprev
    have hlock := hlaw.lock_eq_iff.mpr hkey
    rw [hlock] at hin
    refine ⟨hkey, hfit, ?_, hcol.fresh hin⟩
    show _ ∈ List.insert _ _
    rw [hlock]
    exact List.mem_insert_self
  | readReserved hrest hstage hprepare =>
    rw [List.map_nil, List.append_nil]
    refine h.read ho (by simp) fun data env rest he => ?_
    -- tags and categories are reserved first
    have hprev := hstageOk data env rest he
    simp only [hstage] at hprev
    cases hrest.symm.trans he
    obtain ⟨hkey, hfit⟩ := prepared_fits h.store hprepare
    exact ⟨hkey, hfit, hprev⟩
  | number hrest hstage hmay =>
    rw [List.map_nil, List.append_nil]
    exact h.number ho hstage
  | add hrest hstage hadd => exact h.add ho hrest hstage hadd

/-! ## The other steps -/

/-- A step that leaves the changes of the thread as they are: a failure, or one of the commit. -/
theorem Inv.keep {requests : ℕ → Option Request} {s : Sys} {cs : ℕ → List RecChange}
    (h : Inv requests s cs) {o : ℕ} {st' : SharedTable} {th' : Thread}
    (hdb : st'.maindb = s.table.maindb) (htmp : st'.tmpcache = s.table.tmpcache)
    (hcount : st'.maincounter = s.table.maincounter) (hwait : th' ≠ .waiting)
    (hlive : ∀ nc items, th'.live = some (nc, items) → (s.threads o).live = some (nc, items))
    (htask : ∀ k m task, th' ≠ .manage k m task) (hpending : th'.pending = none)
    (hlocks : ∀ key ∈ th'.locks, key ∈ (s.threads o).locks) :
    Inv requests ⟨st', Function.update s.threads o th'⟩ (Function.update cs o (cs o ++ [])) := by
  rw [List.append_nil]
  refine h.quiet hdb htmp hcount hwait (fun nc items hl => h.live o nc items (hlive nc items hl))
    (fun k m task ht => absurd ht (htask k m task)) hlocks ?_
  rintro i (hi | hi)
  · rw [hpending] at hi
    cases hi
  · exact Or.inr hi

/-- The records of a request are written. -/
theorem inv_write {requests : ℕ → Option Request} {s : Sys} {cs : ℕ → List RecChange}
    (h : Inv requests s cs) {o : ℕ} {now : ℕ} {nc : TempNameCache} {t : TransactionT}
    (ho : s.threads o = .commit .logged now nc t) :
    Inv requests ⟨{ s.table with maindb := s.table.maindb.write (dataBatch t.item) },
      Function.update s.threads o (.commit .written now nc t)⟩
        (Function.update cs o (cs o ++ [])) := by
  have hl : (s.threads o).live = some (nc, t.item) := by
    rw [ho]
    rfl
  obtain ⟨r, hr, hcol⟩ := h.live o nc t.item hl
  -- the batch keeps the store in order, and whatever is compatible with it fits as before
  have hwrite := RecChange.write_batch h.store hcol.fits hcol.compatible
  rw [← hcol.items] at hwrite
  have hlocks : ∀ key ∈ (Thread.commit .written now nc t).locks, key ∈ (s.threads o).locks := by
    rw [ho]
    exact fun key hkey => hkey
  have hids : ∀ i, NewId (.commit .written now nc t) (cs o) i → NewId (s.threads o) (cs o) i := by
    rintro i (hi | hi)
    · cases hi
    · exact Or.inr hi
  rw [List.append_nil]
  refine h.update hwrite.1 ?_ ?_ le_rfl (by simp) ?_ ?_ ?_ (fun _ hkey _ => hkey)
    (fun key hkey => Or.inl (hlocks key hkey)) (fun i hi => Or.inl (hids i hi))
    (fun i hi => h.counted o i (hids i hi))
  · intro o' hne nc' items' hl' c' hc' hfit
    exact hwrite.2 c' hfit fun c hc => h.compatible (Ne.symm hne) hl hl' c hc c' hc'
  · intro c' hfound hfit
    refine hwrite.2 c' hfit fun c hc _ hf' => ?_
    rw [hfound] at hf'
    cases hf'
  · intro nc' items' he
    cases he
  · intro k m task he
    cases he
  · intro key hkey
    exact h.held o key (hlocks key hkey)

/-- The destructor gives back the thread's own keys. -/
theorem inv_leave {requests : ℕ → Option Request} {s : Sys} {cs : ℕ → List RecChange}
    (h : Inv requests s cs) {o : ℕ} {nc : TempNameCache} {result : Option TransactionT}
    (ho : s.threads o = .leaving nc result) :
    Inv requests ⟨nc.destroy s.table, Function.update s.threads o (.ended result)⟩
      (Function.update cs o (cs o ++ [])) := by
  have hids : ∀ i, NewId (.ended result) (cs o) i → NewId (s.threads o) (cs o) i := by
    rintro i (hi | hi)
    · cases hi
    · exact Or.inr hi
  rw [List.append_nil]
  refine h.update h.store (fun _ _ _ _ _ _ _ hfit => hfit) (fun _ _ hfit => hfit) le_rfl (by simp)
    ?_ ?_ ?_ ?_ ?_ (fun i hi => Or.inl (hids i hi)) (fun i hi => h.counted o i (hids i hi))
  · intro nc' items' he
    cases he
  · intro k m task he
    cases he
  · intro key hkey
    cases hkey
  · intro key hkey hno
    rw [ho] at hno
    -- only the keys of the thread's own set are deleted
    have hout : key ∉ nc.inset := hno
    show ((nc.inset.foldl CacheContainer.delAssoc s.table.tmpcache).get key).isSome = true
    rw [get_foldl_delAssoc, if_neg hout]
    exact hkey
  · intro key hkey
    cases hkey

/-- A password reset has read its record. -/
theorem inv_reset {requests : ℕ → Option Request} {s : Sys} {cs : ℕ → List RecChange}
    (h : Inv requests s cs) {o : ℕ} {k : Kind} {currtime : ℕ} {resp : ResetRespT} {old : UserDataT}
    (hr : requests o = some (.resetPass k currtime resp))
    (hold : stored k s.table.maindb resp.username = some old) :
    Inv requests ⟨s.table, Function.update s.threads o (.commit .begin currtime {}
        { item := (resetChange k (renewed currtime resp old)).rows, updater := defaultAdmin })⟩
      (Function.update cs o [resetChange k (renewed currtime resp old)]) := by
  obtain ⟨hfit, hkey⟩ := PasswordReset.renewed_fits (StoreOk.table h.store k) hold currtime resp
  -- a reset brings no new record, so it needs no reservation and no id
  have hfound : (resetChange k (renewed currtime resp old)).found = true := by
    cases k <;> rfl
  refine h.quiet rfl rfl rfl (by simp) ?_ ?_ ?_ ?_
  · rintro nc items he
    cases he
    refine ⟨_, hr, ?_, ?_, List.pairwise_singleton _ _, ?_, ?_, ?_⟩
    · exact (List.flatMap_singleton _ _).symm
    · refine List.forall_mem_singleton.mpr ?_
      cases k <;> exact hfit
    · intro c hc c' hc'
      rw [List.mem_singleton.mp hc, List.mem_singleton.mp hc']
    · refine List.forall_mem_singleton.mpr (List.mem_singleton.mpr ?_)
      cases k <;> exact hkey
    · exact List.forall_mem_singleton.mpr (Or.inr ⟨rfl, hfound⟩)
  · intro k' m task he
    cases he
  · intro key hkey
    cases hkey
  · rintro i (hi | ⟨c, hc, hf, -⟩)
    · cases hi
    · rw [List.mem_singleton.mp hc, hfound] at hf
      cases hf

/-- **One step keeps the invariant**, with the changes it adds. -/
theorem inv_moves {requests : ℕ → Option Request} {s : Sys} {cs : ℕ → List RecChange}
    (h : Inv requests s cs) {o : ℕ} {env : CommitEnv} {st' : SharedTable} {th th' : Thread}
    {adds : List RecChange} (ho : s.threads o = th)
    (hm : Moves (requests o) s.table env th st' th' adds) :
    Inv requests ⟨st', Function.update s.threads o th'⟩ (Function.update cs o (cs o ++ adds)) := by
  cases hm with
  | @start k m input hr =>
    rw [h.waiting o ho, List.append_nil]
    refine h.quiet rfl rfl rfl (by simp) ?_ ?_ ?_ ?_
    · rintro nc items he
      cases he
      exact ⟨_, hr, rfl, by simp, List.Pairwise.nil, by simp, by simp, by simp⟩
    · rintro k' m' task he
      cases he
      exact ⟨input, hr, List.suffix_refl _, fun _ _ _ _ => trivial⟩
    · intro key hkey
      cases hkey
    · rintro i (hi | ⟨c, hc, -⟩)
      · cases hi
      · cases hc
  | reset hr hold =>
    rw [h.waiting o ho]
    exact inv_reset h hr hold
  | refuse hr =>
    refine h.keep rfl rfl rfl (by simp) ?_ (by simp) rfl ?_
    · intro nc items he
      cases he
    · intro key hkey
      cases hkey
  | advance hadv => exact inv_advance h ho hadv
  | fail =>
    refine h.keep rfl rfl rfl (by simp) ?_ (by simp) rfl ?_
    · intro nc items he
      cases he
    · rw [ho]
      exact fun key hkey => hkey
  | finish hrest =>
    refine h.keep rfl rfl rfl (by simp) ?_ (by simp) rfl ?_ <;> rw [ho]
    · exact fun nc items he => he
    · exact fun key hkey => hkey
  | empty hitem =>
    refine h.keep rfl rfl rfl (by simp) ?_ (by simp) rfl ?_
    · intro nc items he
      cases he
    · rw [ho]
      exact fun key hkey => hkey
  | number hitem =>
    refine h.keep rfl rfl rfl (by simp) ?_ (by simp) rfl ?_ <;> rw [ho]
    · intro nc items he
      rw [← he]
      simp only [Thread.live, stamp_item]
    · exact fun key hkey => hkey
  | log =>
    refine h.keep rfl rfl rfl (by simp) ?_ (by simp) rfl ?_ <;> rw [ho]
    · exact fun nc items he => he
    · exact fun key hkey => hkey
  | write => exact inv_write h ho
  | @push now nc t =>
    have hsame := commitTail_same s.table t true env
    refine h.keep hsame.maindb (commitTail_tmpcache _ _ _ _) hsame.maincounter (by simp) ?_
      (by simp) rfl ?_
    · intro nc' items he
      cases he
    · rw [ho]
      exact fun key hkey => hkey
  | leave => exact inv_leave h ho

/-- The invariant holds at the start. -/
theorem inv_init (requests : ℕ → Option Request) (σ : IdleMaster) :
    Inv requests ⟨σ.st, fun _ => .waiting⟩ (fun _ => []) := by
  have hno : ∀ i, ¬ NewId .waiting [] i := by
    rintro i (hi | ⟨c, hc, -⟩)
    · cases hi
    · cases hc
  refine ⟨σ.tables, fun _ _ => rfl, ?_, ?_, ?_, ?_, fun o i hi => absurd hi (hno i),
    fun o o' _ i hi => absurd hi (hno i)⟩
  · intro o nc items he
    cases he
  · intro o k m task he
    cases he
  · intro o key hkey
    cases hkey
  · intro o o' _ key hkey
    cases hkey

end Zapdos.Store.Requests
