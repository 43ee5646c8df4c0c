/-
  A request on its own — the changes it makes of the records it starts from.

  `Alone` says it without the loop: each payload is prepared against the same records, and the new
  ones get the next ids.  A request that finds its names free and its changes fitting commits exactly
  these changes (`manage_alone`), and succeeds if the search index has a place for them.
-/
import Zapdos.Store.BatchRequest

namespace Zapdos.Store

open Zapdos.Lib

namespace Service

variable {T : Type}

/-- How many of the changes bring a new record. -/
def newCount (cs : List (Change T)) : ℕ := cs.countP (fun c => !c.found)

@[simp] theorem newCount_nil : newCount ([] : List (Change T)) = 0 := rfl

@[simp] theorem newCount_cons (c : Change T) (cs : List (Change T)) :
    newCount (c :: cs) = newCount cs + if c.found then 0 else 1 := by
  unfold newCount
  rw [List.countP_cons]
  cases c.found <;> rfl

@[simp] theorem newCount_append (cs cs' : List (Change T)) :
    newCount (cs ++ cs') = newCount cs + newCount cs' := List.countP_append

variable (s : Service T)

/-- **The changes of a request** that starts from `db`, with `n` the last id handed out. -/
inductive Alone (m : Manage) (db : DataDb) : ℕ → List (T × PrepEnv) → List (Change T) → Prop
  | nil {n} : Alone m db n [] []
  | found {n p ps cs cdata} (hcheck : s.check p.1 = .ok ())
      (hprepare : s.prepare p.2 db m p.1 = .ok (true, cdata)) (hrest : Alone m db n ps cs) :
      Alone m db n (p :: ps) (⟨true, s.fill m p.1 true 0 cdata⟩ :: cs)
  | new {n p ps cs cdata} (hcheck : s.check p.1 = .ok ())
      (hprepare : s.prepare p.2 db m p.1 = .ok (false, cdata)) (hmay : s.mayInsert cdata = .ok ())
      (hrest : Alone m db (n + 1) ps cs) :
      Alone m db n (p :: ps) (⟨false, s.fill m p.1 false (n + 1) cdata⟩ :: cs)

/-- `AddToCache` gets through the rows of the change. -/
def Takes (noXapian : Bool) (c : Change T) : Prop :=
  CacheTakes noXapian {} (s.table.rows s.ukey c)

/-- The same change, but for the id of a new record. -/
structure Like (c c' : Change T) : Prop where
  found : c.found = c'.found
  key : s.key c.record = s.key c'.record
  notfound : s.table.notfound c.record = s.table.notfound c'.record
  takes : ∀ noXapian, s.Takes noXapian c ↔ s.Takes noXapian c'
  same : c.found = true → c = c'

variable {s}

theorem Like.refl (c : Change T) : s.Like c c := ⟨rfl, rfl, rfl, fun _ => Iff.rfl, fun _ => rfl⟩

theorem Like.trans {a b c : Change T} (h : s.Like a b) (h' : s.Like b c) : s.Like a c :=
  ⟨h.found.trans h'.found, h.key.trans h'.key, h.notfound.trans h'.notfound,
    fun noXapian => (h.takes noXapian).trans (h'.takes noXapian),
    fun hf => (h.same hf).trans (h'.same (h.found.symm.trans hf))⟩

theorem cacheTakes_flatMap {noXapian : Bool} {cs : List (Change T)} :
    CacheTakes noXapian {} (cs.flatMap (s.table.rows s.ukey)) ↔ ∀ c ∈ cs, s.Takes noXapian c := by
  simp only [Takes, CacheTakes, Option.not_mem_none, false_imp_iff, implies_true, and_true,
    List.mem_flatMap, forall_exists_index, and_imp]
  exact forall_comm.trans (forall_congr' fun c => forall_comm)

namespace Alone

variable {m : Manage} {db : DataDb}

/-- One more payload, for a stored record. -/
theorem snoc_found {n : ℕ} {ps : List (T × PrepEnv)} {cs : List (Change T)}
    (h : s.Alone m db n ps cs) {p : T × PrepEnv} {cdata : T} (hcheck : s.check p.1 = .ok ())
    (hprepare : s.prepare p.2 db m p.1 = .ok (true, cdata)) :
    s.Alone m db n (ps ++ [p]) (cs ++ [⟨true, s.fill m p.1 true 0 cdata⟩]) := by
  induction h with
  | nil => exact .found hcheck hprepare .nil
  | found hc hp _ ih => exact .found hc hp ih
  | new hc hp hm _ ih => exact .new hc hp hm ih

/-- One more payload, for a new record. -/
theorem snoc_new {n : ℕ} {ps : List (T × PrepEnv)} {cs : List (Change T)}
    (h : s.Alone m db n ps cs) {p : T × PrepEnv} {cdata : T} (hcheck : s.check p.1 = .ok ())
    (hprepare : s.prepare p.2 db m p.1 = .ok (false, cdata)) (hmay : s.mayInsert cdata = .ok ()) :
    s.Alone m db n (ps ++ [p])
      (cs ++ [⟨false, s.fill m p.1 false (n + newCount cs + 1) cdata⟩]) := by
  induction h with
  | nil => exact .new hcheck hprepare hmay .nil
  | found hc hp _ ih =>
    simp only [List.cons_append, newCount_cons, if_true, Nat.add_zero]
    exact .found hc hp ih
  | @new n q ps cs d hc hp hm _ ih =>
    have hnext : n + (newCount cs + 1) + 1 = n + 1 + newCount cs + 1 := by omega
    simp only [List.cons_append, newCount_cons, Bool.false_eq_true, if_false, hnext]
    exact .new hc hp hm ih

/-- Only what `PrepareData` makes of the payloads matters. -/
theorem congr {db' : DataDb} {n : ℕ} {ps : List (T × PrepEnv)} {cs : List (Change T)}
    (h : s.Alone m db n ps cs)
    (hp : ∀ p ∈ ps, ∀ out, s.prepare p.2 db m p.1 = .ok out → s.prepare p.2 db' m p.1 = .ok out) :
    s.Alone m db' n ps cs := by
  induction h with
  | nil => exact .nil
  | found hc hprep _ ih =>
    obtain ⟨hhead, htail⟩ := List.forall_mem_cons.mp hp
    exact .found hc (hhead _ hprep) (ih htail)
  | new hc hprep hm _ ih =>
    obtain ⟨hhead, htail⟩ := List.forall_mem_cons.mp hp
    exact .new hc (hhead _ hprep) hm (ih htail)

/-- New ids come from the counter, -/
theorem ids (hlaw : s.Lawful) {n : ℕ} {ps : List (T × PrepEnv)} {cs : List (Change T)}
    (h : s.Alone m db n ps cs) : ∀ c ∈ cs, c.found = false →
      n < s.table.id c.record ∧ s.table.id c.record ≤ n + newCount cs := by
  induction h with
  | nil =>
    intro c hc
    cases hc
  | found hcheck hprep _ ih =>
    refine List.forall_mem_cons.mpr ⟨fun hf => ?_, fun c hc hf => ?_⟩
    · cases hf
    · simp only [newCount_cons, if_true, Nat.add_zero]
      exact ih c hc hf
  | @new n p ps cs cdata hcheck hprep hmay _ ih =>
    have hid : s.table.id (s.fill m p.1 false (n + 1) cdata) = n + 1 :=
      hlaw.fill_id m p.1 false (n + 1) cdata
    simp only [newCount_cons, Bool.false_eq_true, if_false]
    refine List.forall_mem_cons.mpr ⟨fun _ => ?_, fun c hc hf => ?_⟩
    · show n < s.table.id (s.fill m p.1 false (n + 1) cdata) ∧
        s.table.id (s.fill m p.1 false (n + 1) cdata) ≤ _
      rw [hid]
      omega
    · obtain ⟨hlt, hle⟩ := ih c hc hf
      omega

/-- and each is handed out once. -/
theorem ids_ne (hlaw : s.Lawful) {n : ℕ} {ps : List (T × PrepEnv)} {cs : List (Change T)}
    (h : s.Alone m db n ps cs) : cs.Pairwise (fun c c' => c.found = false → c'.found = false →
      s.table.id c.record ≠ s.table.id c'.record) := by
  induction h with
  | nil => exact .nil
  | found hcheck hprep _ ih =>
    refine List.pairwise_cons.mpr ⟨fun c' _ hf => ?_, ih⟩
    cases hf
  | @new n p ps cs cdata hcheck hprep hmay hrest ih =>
    refine List.pairwise_cons.mpr ⟨fun c' hc' _ hf' => ?_, ih⟩
    have hid : s.table.id (s.fill m p.1 false (n + 1) cdata) = n + 1 :=
      hlaw.fill_id m p.1 false (n + 1) cdata
    obtain ⟨hlt, -⟩ := hrest.ids hlaw c' hc' hf'
    show s.table.id (s.fill m p.1 false (n + 1) cdata) ≠ _
    rw [hid]
    omega

/-- Each change has the key of its payload. -/
theorem keys (hlaw : s.Lawful) (hok : s.TableOk db) {n : ℕ} {ps : List (T × PrepEnv)}
    {cs : List (Change T)} (h : s.Alone m db n ps cs) :
    cs.map (fun c => s.key c.record) = ps.map (fun p => s.key p.1) := by
  induction h with
  | nil => rfl
  | found hcheck hprep _ ih =>
    obtain ⟨hkey, -⟩ := hlaw.prepare hok hprep
    rw [List.map_cons, List.map_cons, ih]
    exact congrArg (· :: _) ((hlaw.fill_key _ _ _ _ _).trans hkey)
  | new hcheck hprep hmay _ ih =>
    obtain ⟨hkey, -⟩ := hlaw.prepare hok hprep
    rw [List.map_cons, List.map_cons, ih]
    exact congrArg (· :: _) ((hlaw.fill_key _ _ _ _ _).trans hkey)

/-- Starting from another id changes the ids of new records only. -/
theorem rebase (hlaw : s.Lawful)
    (hnf : ∀ m data found id id' r, s.table.notfound (s.fill m data found id r) =
      s.table.notfound (s.fill m data found id' r))
    (htakes : ∀ noXapian m data found id id' r, s.Takes noXapian ⟨found, s.fill m data found id r⟩ ↔
      s.Takes noXapian ⟨found, s.fill m data found id' r⟩) {n : ℕ} {ps : List (T × PrepEnv)}
    {cs : List (Change T)} (h : s.Alone m db n ps cs) (n' : ℕ) :
    ∃ cs', s.Alone m db n' ps cs' ∧ List.Forall₂ s.Like cs cs' := by
  induction h generalizing n' with
  | nil => exact ⟨[], .nil, .nil⟩
  | found hcheck hprep _ ih =>
    obtain ⟨cs', halone, hlike⟩ := ih n'
    exact ⟨_, .found hcheck hprep halone, .cons (Like.refl _) hlike⟩
  | new hcheck hprep hmay _ ih =>
    obtain ⟨cs', halone, hlike⟩ := ih (n' + 1)
    refine ⟨_, .new hcheck hprep hmay halone, .cons ⟨rfl, ?_, hnf _ _ _ _ _ _,
      fun noXapian => htakes noXapian _ _ _ _ _ _, fun hf => ?_⟩ hlike⟩
    · exact (hlaw.fill_key _ _ _ _ _).trans (hlaw.fill_key _ _ _ _ _).symm
    · cases hf

end Alone

theorem takes_like {cs cs' : List (Change T)} (h : List.Forall₂ s.Like cs cs') {noXapian : Bool}
    (htakes : ∀ c ∈ cs, s.Takes noXapian c) : ∀ c ∈ cs', s.Takes noXapian c := by
  intro c' hc'
  obtain ⟨c, hc, hlike⟩ := forall₂_mem h hc'
  exact (hlike.takes noXapian).mp (htakes c hc)

theorem newCount_like {cs cs' : List (Change T)} (h : List.Forall₂ s.Like cs cs') :
    newCount cs = newCount cs' := by
  induction h with
  | nil => rfl
  | cons hc _ ih => rw [newCount_cons, newCount_cons, ih, hc.found]

/-! ## The loop -/

/-- The table with one more reservation. -/
def withKey (st : SharedTable) (key : Key) : SharedTable :=
  { st with tmpcache := st.tmpcache.put key [] }

namespace Lawful

variable (h : s.Lawful)

include h

/-- One payload whose name is free, through all its stages. -/
theorem payload_ready {m : Manage} {w : Work T} {data : T} {env : PrepEnv} {found : Bool}
    {cdata : T} (hok : s.TableOk w.table.maindb) (hcheck : s.check data = .ok ())
    (hp : s.prepare env w.table.maindb m data = .ok (found, cdata))
    (hin : s.lock data ∉ w.nc.inset) (hfree : w.table.tmpcache.get (s.lock data) = none)
    {st' : SharedTable} {r : T} {items : List TransItemT}
    (hadd : s.add (withKey w.table (s.lock data)) m data found cdata w.items =
      (st', .ok (r, items))) :
    ∃ payloads, s.payload m w data env =
      (⟨st', ⟨w.nc.inset.insert (s.lock data)⟩, items, payloads⟩, .ok ()) := by
  have hlock : s.lock cdata = s.lock data := h.lock_eq_iff.mpr (h.prepare hok hp).1
  have hreserve : ∀ r, s.lock r = s.lock data → s.reserve w.table w.nc r =
      .ok (withKey w.table (s.lock data), ⟨w.nc.inset.insert (s.lock data)⟩) := by
    intro r hr
    rw [← hr] at hin hfree ⊢
    exact h.reserve_eq_ok.mpr ⟨hin, hfree, rfl, rfl⟩
  have hp' : s.prepare env (withKey w.table (s.lock data)).maindb m data = .ok (found, cdata) := hp
  unfold payload
  cases hfirst : s.readFirst with
  | true =>
    refine ⟨w.payloads ++ [r], ?_⟩
    simp only [hcheck, if_true, hp, hreserve cdata hlock, hadd]
  | false =>
    refine ⟨w.payloads ++ [data], ?_⟩
    simp only [hcheck, Bool.false_eq_true, if_false, hp', hreserve data rfl, hadd]

/-- The other payloads have other names. -/
theorem unused_rest {p : T × PrepEnv} {ps : List (T × PrepEnv)} {nc : TempNameCache}
    (hin : ∀ q ∈ p :: ps, s.lock q.1 ∉ nc.inset) (hhead : ∀ q ∈ ps, s.key p.1 ≠ s.key q.1) :
    ∀ q ∈ ps, s.lock q.1 ∉ nc.inset.insert (s.lock p.1) := by
  intro q hq hmem
  rcases List.mem_insert_iff.mp hmem with he | hmem
  · exact hhead q hq (h.lock_eq_iff.mp he).symm
  · exact hin q (List.mem_cons_of_mem _ hq) hmem

theorem free_rest {p : T × PrepEnv} {ps : List (T × PrepEnv)} {tmp : OrdMap Key Bytes}
    (hfree : ∀ q ∈ p :: ps, tmp.get (s.lock q.1) = none)
    (hhead : ∀ q ∈ ps, s.key p.1 ≠ s.key q.1) :
    ∀ q ∈ ps, (tmp.put (s.lock p.1) []).get (s.lock q.1) = none := by
  intro q hq
  rw [OrdMap.get_put_ne]
  · exact hfree q (List.mem_cons_of_mem _ hq)
  · exact fun he => hhead q hq (h.lock_eq_iff.mp he).symm

/-- **The loop over the payloads** of a request on its own. -/
theorem payloads_alone {m : Manage} {db : DataDb} {n : ℕ} {ps : List (T × PrepEnv)}
    {cs : List (Change T)} (hok : s.TableOk db) (ha : s.Alone m db n ps cs)
    (hkeys : ps.Pairwise (fun p q => s.key p.1 ≠ s.key q.1))
    (hfits : ∀ c ∈ cs, StoreTable.Fits s.table s.ukey db c ∧ s.table.notfound c.record = false)
    {w : Work T} (hdb : w.table.maindb = db) (hcount : w.table.maincounter = n)
    (hin : ∀ p ∈ ps, s.lock p.1 ∉ w.nc.inset)
    (hfree : ∀ p ∈ ps, w.table.tmpcache.get (s.lock p.1) = none) :
    ∃ w', s.payloads m ps w = (w', .ok ()) ∧
      w'.items = w.items ++ cs.flatMap (s.table.rows s.ukey) ∧
      w'.table.maincounter = n + newCount cs := by
  induction ha generalizing w with
  | nil =>
    refine ⟨w, rfl, ?_, ?_⟩
    · rw [List.flatMap_nil, List.append_nil]
    · rw [hcount, newCount_nil, Nat.add_zero]
  | @found n p ps cs cdata hcheck hp _ ih =>
    obtain ⟨data, env⟩ := p
    obtain ⟨hhead, htail⟩ := List.pairwise_cons.mp hkeys
    obtain ⟨⟨-, hnf⟩, hrest⟩ := List.forall_mem_cons.mp hfits
    obtain ⟨hkey, hfound, hid⟩ := h.prepare hok hp
    obtain ⟨old, hold⟩ := Option.isSome_iff_exists.mp hfound.symm
    have hold' : s.stored db cdata = some old := (congrArg _ hkey).trans hold
    subst hdb
    have hadd := @add_found T s h (withKey w.table (s.lock data)) hok m data cdata old hold'
      (hid old hold) w.items
    rw [if_pos (show s.table.notfound (s.fill m data true 0 cdata) = false from hnf)] at hadd
    obtain ⟨out, hpay⟩ := h.payload_ready hok hcheck hp (hin _ List.mem_cons_self)
      (hfree _ List.mem_cons_self) hadd
    obtain ⟨w', hrun, hitems, hmc⟩ := ih htail hrest (w := ⟨withKey w.table (s.lock data),
      ⟨w.nc.inset.insert (s.lock data)⟩, _, out⟩) rfl hcount (h.unused_rest hin hhead)
      (h.free_rest hfree hhead)
    refine ⟨w', ?_, ?_, ?_⟩
    · rw [payloads, hpay]
      exact hrun
    · rw [hitems, List.flatMap_cons, List.append_assoc]
      rfl
    · rw [hmc, newCount_cons, if_pos rfl, Nat.add_zero]
  | @new n p ps cs cdata hcheck hp hmay _ ih =>
    obtain ⟨data, env⟩ := p
    obtain ⟨hhead, htail⟩ := List.pairwise_cons.mp hkeys
    obtain ⟨⟨hfit, hnf⟩, hrest⟩ := List.forall_mem_cons.mp hfits
    subst hdb hcount
    have hid : s.table.id (s.fill m data false (w.table.maincounter + 1) cdata) =
        w.table.maincounter + 1 := h.fill_id m data false _ cdata
    rw [StoreTable.Fits, if_neg (show ¬ false = true by decide)] at hfit
    obtain ⟨-, hrow, hname⟩ := hfit
    rw [show s.table.id _ = w.table.maincounter + 1 from hid] at hrow
    have hname' : w.table.maindb.get (s.key cdata) = none :=
      (congrArg _ (h.fill_key m data false (w.table.maincounter + 1) cdata)).symm.trans hname
    have hadd := @add_new T s h (withKey w.table (s.lock data)) hok m data cdata w.items
    rw [hmay] at hadd
    dsimp only at hadd
    rw [if_pos ⟨hnf, hrow, hname'⟩] at hadd
    obtain ⟨out, hpay⟩ := h.payload_ready hok hcheck hp (hin _ List.mem_cons_self)
      (hfree _ List.mem_cons_self) hadd
    obtain ⟨w', hrun, hitems, hmc⟩ := ih htail hrest (w := ⟨{ withKey w.table (s.lock data) with
      maincounter := w.table.maincounter + 1 }, ⟨w.nc.inset.insert (s.lock data)⟩, _, out⟩) rfl rfl
      (h.unused_rest hin hhead) (h.free_rest hfree hhead)
    refine ⟨w', ?_, ?_, ?_⟩
    · rw [payloads, hpay]
      exact hrun
    · rw [hitems, List.flatMap_cons, List.append_assoc]
      rfl
    · rw [hmc, newCount_cons, if_neg (show ¬ false = true by decide)]
      omega

/-- **A request on its own** commits its changes, and succeeds if `AddToCache` takes them. -/
theorem manage_alone {st : SharedTable} (hm : st.isMaster = true) (hok : s.TableOk st.maindb)
    {m : Manage} {ps : List (T × PrepEnv)} {cs : List (Change T)}
    (ha : s.Alone m st.maindb st.maincounter ps cs)
    (hkeys : ps.Pairwise (fun p q => s.key p.1 ≠ s.key q.1))
    (hfits : ∀ c ∈ cs, StoreTable.Fits s.table s.ukey st.maindb c ∧
      s.table.notfound c.record = false)
    (hfree : ∀ p ∈ ps, st.tmpcache.get (s.lock p.1) = none) (pushOk : Bool) :
    ((∀ c ∈ cs, s.Takes st.noXapian c) →
        ∃ out, (s.manage st m ps { pushOk := pushOk }).result = .ok out) ∧
      (s.manage st m ps { pushOk := pushOk }).table.maindb =
        st.maindb.write (dataBatch (cs.flatMap (s.table.rows s.ukey))) ∧
      (s.manage st m ps { pushOk := pushOk }).table.maincounter = st.maincounter + newCount cs ∧
      (s.manage st m ps { pushOk := pushOk }).table.isMaster = true ∧
      (s.manage st m ps { pushOk := pushOk }).table.noXapian = st.noXapian ∧
      (s.manage st m ps { pushOk := pushOk }).table.tmpcache = st.tmpcache := by
  obtain ⟨w, hrun, hitems, hmc⟩ := h.payloads_alone hok ha hkeys hfits (w := { table := st }) rfl rfl
    (fun _ _ => List.not_mem_nil) hfree
  have htmp := h.manage_tmpcache hm m ps { pushOk := pushOk }
  have hsame := h.payloads_same m ps { table := st }
  rw [hrun] at hsame
  obtain ⟨tmp, n, -, hst⟩ := hsame
  have hst' : w.table = { st with tmpcache := tmp, maincounter := n } := hst
  have hdb : w.table.maindb = st.maindb := by rw [hst']
  have hmaster : w.table.isMaster = true := by
    rw [hst']
    exact hm
  have hno : w.table.noXapian = st.noXapian := by rw [hst']
  rw [List.nil_append] at hitems
  rw [Service.manage, hrun] at htmp ⊢
  dsimp only at htmp ⊢
  rw [hitems] at htmp ⊢
  by_cases hitem : cs.flatMap (s.table.rows s.ukey) = []
  · obtain ⟨hempty, hres⟩ := commit_empty w.table m.currtime
      { item := cs.flatMap (s.table.rows s.ukey), updater := m.updater.name } true
      { pushOk := pushOk } hitem
    refine ⟨fun _ => ?_, ?_, hempty.maincounter.trans hmc, hempty.isMaster.trans hmaster,
      hempty.noXapian.trans hno, htmp⟩
    · rw [hres]
      exact ⟨_, rfl⟩
    · refine hempty.maindb.trans (hdb.trans ?_)
      rw [hitem]
      rfl
  · obtain ⟨hres, hcom⟩ := commit_committed w.table m.currtime
      { item := cs.flatMap (s.table.rows s.ukey), updater := m.updater.name } true
      hitem (show ({ pushOk := pushOk } : CommitEnv).logOk = true from rfl) rfl
    refine ⟨fun htakes => ?_, ?_, hcom.maincounter.trans hmc, hcom.isMaster.trans hmaster,
      hcom.noXapian.trans hno, htmp⟩
    · rw [hres, if_pos]
      · exact ⟨_, rfl⟩
      · rw [hno]
        exact cacheTakes_flatMap.mpr htakes
    · refine hcom.maindb.trans ?_
      rw [applyItems, stamp_item, hdb]

end Lawful

/-! ## Changes like those of another run -/

theorem Like.trans_all {as bs cs : List (Change T)} (h : List.Forall₂ s.Like as bs)
    (h' : List.Forall₂ s.Like bs cs) : List.Forall₂ s.Like as cs := by
  induction h generalizing cs with
  | nil => exact h'
  | cons hab _ ih =>
    cases h' with
    | cons hbc hrest => exact .cons (hab.trans hbc) (ih hrest)

/-- A change fits where its name shows the same and its id is free. -/
theorem Like.fits (h : s.Lawful) {db db' : DataDb} (hok : s.TableOk db) (hok' : s.TableOk db')
    {c c' : Change T} (hlike : s.Like c c') (hfit : StoreTable.Fits s.table s.ukey db c)
    (hstored : s.stored db' c.record = s.stored db c.record)
    (hnew : c'.found = false → s.table.id c'.record ≠ 0 ∧
      db'.get (encodePrimaryKey s.table.primaryKey (s.table.id c'.record)) = none) :
    StoreTable.Fits s.table s.ukey db' c' := by
  have ht := h.single
  cases hf : c'.found with
  | false =>
    have hf' : c.found = false := hlike.found.trans hf
    rw [StoreTable.Fits, if_neg (by simp [hf'])] at hfit
    obtain ⟨-, -, hname⟩ := hfit
    obtain ⟨hpos, hrow⟩ := hnew hf
    have hnone : s.stored db' c.record = none :=
      hstored.trans ((ht.find_eq_none hok (ht.keytype_ukey c.record)).mpr hname)
    rw [StoreTable.Fits, if_neg (by simp [hf])]
    refine ⟨hpos, hrow, ?_⟩
    rw [show s.table.getKey c'.record s.ukey = s.table.getKey c.record s.ukey from hlike.key.symm]
    exact (ht.find_eq_none hok' (ht.keytype_ukey c.record)).mp hnone
  | true =>
    obtain rfl := hlike.same (hlike.found.trans hf)
    rw [StoreTable.Fits, if_pos hf] at hfit ⊢
    obtain ⟨old, hold, hid⟩ := hfit
    exact ⟨old, hstored.trans hold, hid⟩

theorem apart_like (h : s.Lawful) {db : DataDb} (hok : s.TableOk db) {cs cs' : List (Change T)}
    (hlike : List.Forall₂ s.Like cs cs') (hapart : cs.Pairwise (StoreTable.Apart s.table s.ukey))
    (hfits : ∀ c ∈ cs', StoreTable.Fits s.table s.ukey db c)
    (hids : cs'.Pairwise (fun c c' => c.found = false → c'.found = false →
      s.table.id c.record ≠ s.table.id c'.record)) :
    cs'.Pairwise (StoreTable.Apart s.table s.ukey) := by
  have hmap : cs.map (fun c => s.key c.record) = cs'.map (fun c => s.key c.record) := by
    clear hapart hfits hids
    induction hlike with
    | nil => rfl
    | cons hc _ ih => rw [List.map_cons, List.map_cons, ih, hc.key]
  have hkeys : (cs.map (fun c => s.key c.record)).Pairwise (· ≠ ·) :=
    List.pairwise_map.mpr (hapart.imp fun hab => hab.1)
  rw [hmap] at hkeys
  refine ((List.pairwise_map.mp hkeys).and hids).imp_of_mem fun ha hb hab => ?_
  exact apart_of_key h.single hok (hfits _ ha) (hfits _ hb) hab.1 hab.2

/-- What a request leaves that has run on its own. -/
structure RanAlone (s : Service T) (st : SharedTable) (out : ActionOut T) (cs : List (Change T)) :
    Prop where
  ok : (∀ c ∈ cs, s.Takes st.noXapian c) → ∃ payloads, out.result = .ok payloads
  maindb : out.table.maindb = st.maindb.write (dataBatch (cs.flatMap (s.table.rows s.ukey)))
  maincounter : out.table.maincounter = st.maincounter + newCount cs
  isMaster : out.table.isMaster = true
  noXapian : out.table.noXapian = st.noXapian
  tmpcache : out.table.tmpcache = st.tmpcache
  fits : ∀ c ∈ cs, StoreTable.Fits s.table s.ukey st.maindb c
  apart : cs.Pairwise (StoreTable.Apart s.table s.ukey)

/-- **A request on its own** whose changes are like some that can be written. -/
theorem Lawful.manage_like (h : s.Lawful) {st : SharedTable} (hm : st.isMaster = true)
    (htmp : st.tmpcache = OrdMap.empty) (hok : s.TableOk st.maindb) {m : Manage}
    {ps : List (T × PrepEnv)} {cs cs' : List (Change T)}
    (ha : s.Alone m st.maindb st.maincounter ps cs') {db : DataDb} (hdb : s.TableOk db)
    (hlike : List.Forall₂ s.Like cs cs') (hnf : ∀ c ∈ cs, s.table.notfound c.record = false)
    (hfits : ∀ c ∈ cs, StoreTable.Fits s.table s.ukey db c)
    (hapart : cs.Pairwise (StoreTable.Apart s.table s.ukey))
    (hstored : ∀ c ∈ cs, s.stored st.maindb c.record = s.stored db c.record)
    (hfree : ∀ i, st.maincounter < i → i ≤ st.maincounter + newCount cs →
      st.maindb.get (encodePrimaryKey s.table.primaryKey i) = none) :
    s.RanAlone st (s.manage st m ps {}) cs' := by
  have hnew : ∀ c ∈ cs', c.found = false → s.table.id c.record ≠ 0 ∧
      st.maindb.get (encodePrimaryKey s.table.primaryKey (s.table.id c.record)) = none := by
    intro c hc hf
    obtain ⟨hlt, hle⟩ := ha.ids h c hc hf
    rw [← newCount_like hlike] at hle
    exact ⟨by omega, hfree _ hlt hle⟩
  have hfits' : ∀ c ∈ cs', StoreTable.Fits s.table s.ukey st.maindb c := by
    intro c hc
    obtain ⟨d, hd, hl⟩ := forall₂_mem hlike hc
    exact hl.fits h hdb hok (hfits d hd) (hstored d hd) (hnew c hc)
  have hnf' : ∀ c ∈ cs', s.table.notfound c.record = false := by
    intro c hc
    obtain ⟨d, hd, hl⟩ := forall₂_mem hlike hc
    exact hl.notfound.symm.trans (hnf d hd)
  have hapart' := apart_like h hok hlike hapart hfits' (ha.ids_ne h)
  have hkeys : ps.Pairwise (fun p q => s.key p.1 ≠ s.key q.1) := by
    have hmap : (cs'.map (fun c => s.key c.record)).Pairwise (· ≠ ·) :=
      List.pairwise_map.mpr (hapart'.imp fun hab => hab.1)
    rw [ha.keys h hok] at hmap
    exact List.pairwise_map.mp hmap
  have hgone : ∀ p ∈ ps, st.tmpcache.get (s.lock p.1) = none := by
    intro p _
    rw [htmp]
    rfl
  obtain ⟨hres, hmain, hcount, hmaster, hno, hcache⟩ := h.manage_alone hm hok ha hkeys
    (fun c hc => ⟨hfits' c hc, hnf' c hc⟩) hgone true
  exact ⟨hres, hmain, hcount, hmaster, hno, hcache, hfits', hapart'⟩

end Service

/-- A new id does not show in the place of a record. -/
theorem RecKind.fill_takes (k : RecKind) (noXapian : Bool) (m : Manage) (data : k.Rec) (found : Bool)
    (id id' : ℕ) (r : k.Rec) :
    k.service.Takes noXapian ⟨found, k.service.fill m data found id r⟩ ↔
      k.service.Takes noXapian ⟨found, k.service.fill m data found id' r⟩ := by
  have hplaced : k.Placed (k.service.fill m data found id r) ↔
      k.Placed (k.service.fill m data found id' r) := by
    cases k with
    | localdata => cases found <;> exact Iff.rfl
    | wikidata => cases found <;> exact Iff.rfl
    | user => exact Iff.rfl
    | exter => exact Iff.rfl
    | tag => exact Iff.rfl
    | category => exact Iff.rfl
  have htakes : ∀ c : Change k.Rec, k.service.Takes noXapian c ↔
      (noXapian = false → k.Placed c.record) := by
    intro c
    have hone := k.cacheTakes_rows_iff noXapian (show ({} : CommitEnv).indexFails = none from rfl) [c]
    rw [List.flatMap_singleton, List.forall_mem_singleton] at hone
    exact hone
  rw [htakes, htakes, hplaced]

end Zapdos.Store
