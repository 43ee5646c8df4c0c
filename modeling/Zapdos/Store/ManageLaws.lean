/-
  What a whole write request does.

  A request works on its payloads one after the other and collects their rows; nothing but the
  counter and the reservations of the node changes on the way.  At the end all rows are committed as
  one transaction, or, if any payload failed, none.

  THE CRUX.  `Staged` ties the collected rows to the payloads: each payload contributed the rows of
  one record, prepared against the records as they are, and no two of them have the same key (one
  request never reserves a name twice) or the same id (ids of new records come from the counter and
  are free).
-/
import Mathlib.Data.List.Forall2
import Zapdos.Store.ServiceLaws
import Zapdos.Store.StoreBatch

namespace Zapdos.Store

open Zapdos.Lib

/-! ## The commit of a request -/

/-- **Everything a commit can do** to the store: nothing without items, else nothing but take a log
    id (the log write fails), or write the log alone (the data write fails), or both, and then throw
    or not. -/
inductive CommitResult (st : SharedTable) (now : Nat) (t : TransactionT) (isMaster : Bool)
    (env : CommitEnv) (st' : SharedTable) : Except Exc Unit → Prop
  | empty (hitem : t.item = []) (hdb : st'.maindb = st.maindb) (hlog : st'.logdb = st.logdb)
      (hcount : st'.logcounter = st.logcounter) : CommitResult st now t isMaster env st' (.ok ())
  | noLog {e : Exc} (hitem : t.item ≠ []) (henv : env.logOk = false)
      (hdb : st'.maindb = st.maindb) (hlog : st'.logdb = st.logdb)
      (hcount : st'.logcounter = st.logcounter + 1) :
      CommitResult st now t isMaster env st' (.error e)
  | noData {e : Exc} (hitem : t.item ≠ []) (henv : env.logOk = true ∧ env.dataOk = false)
      (hdb : st'.maindb = st.maindb)
      (hlog : st'.logdb = st.logdb.write (logBatch (stamp now t isMaster (st.logcounter + 1))))
      (hcount : st'.logcounter = st.logcounter + 1) :
      CommitResult st now t isMaster env st' (.error e)
  | thrown (hitem : t.item ≠ []) (henv : env.logOk = true ∧ env.dataOk = true)
      (htakes : ¬ CacheTakes st.noXapian env t.item) (hdb : st'.maindb = applyItems st.maindb t)
      (hlog : st'.logdb = st.logdb.write (logBatch (stamp now t isMaster (st.logcounter + 1))))
      (hcount : st'.logcounter = st.logcounter + 1) :
      CommitResult st now t isMaster env st' (.error xapianError)
  | done (hitem : t.item ≠ []) (henv : env.logOk = true ∧ env.dataOk = true)
      (htakes : CacheTakes st.noXapian env t.item) (hdb : st'.maindb = applyItems st.maindb t)
      (hlog : st'.logdb = st.logdb.write (logBatch (stamp now t isMaster (st.logcounter + 1))))
      (hcount : st'.logcounter = st.logcounter + 1) :
      CommitResult st now t isMaster env st' (.ok ())

/-- A commit on a master. -/
theorem commit_result {st : SharedTable} (hm : st.isMaster = true) (now : Nat) (t : TransactionT)
    (isMaster : Bool) (env : CommitEnv) :
    CommitResult st now t isMaster env (commit st now t isMaster env).table
      (commit st now t isMaster env).result := by
  rw [commit, if_pos hm]
  have hbody := commitBody_cases st now t isMaster env
  generalize commitBody st now t isMaster env = out at hbody ⊢
  cases hbody with
  | empty hitem => exact .empty hitem rfl rfl rfl
  | noLog hitem hlog => exact .noLog hitem hlog rfl rfl rfl
  | noData hitem hlog hdata => exact .noData hitem ⟨hlog, hdata⟩ rfl rfl rfl
  | @done written hitem hlog hdata hwritten =>
    have htail := commitTail_same written (stamp now t isMaster (st.logcounter + 1)) isMaster env
    rw [commitTail_result, stamp_item]
    subst hwritten
    split
    · rename_i htakes
      exact .done hitem ⟨hlog, hdata⟩ htakes htail.maindb htail.logdb htail.logcounter
    · rename_i hno
      exact .thrown hitem ⟨hlog, hdata⟩ hno htail.maindb htail.logdb htail.logcounter

/-- What becomes of the records: all rows are written, or none. -/
theorem CommitResult.maindb {st st' : SharedTable} {now : Nat} {t : TransactionT} {isMaster : Bool}
    {env : CommitEnv} {res : Except Exc Unit} (h : CommitResult st now t isMaster env st' res) :
    (st'.maindb = st.maindb ∧ (t.item = [] ∨ env.logOk = false ∨ env.dataOk = false)) ∨
      (st'.maindb = applyItems st.maindb t ∧ env.logOk = true ∧ env.dataOk = true) := by
  cases h with
  | empty hitem hdb => exact .inl ⟨hdb, .inl hitem⟩
  | noLog _ henv hdb => exact .inl ⟨hdb, .inr (.inl henv)⟩
  | noData _ henv hdb => exact .inl ⟨hdb, .inr (.inr henv.2)⟩
  | thrown _ henv _ hdb => exact .inr ⟨hdb, henv⟩
  | done _ henv _ hdb => exact .inr ⟨hdb, henv⟩

/-! ## The payloads of a request -/

theorem forall₂_mem {A B : Type*} {R : A → B → Prop} {l : List A} {l' : List B}
    (h : List.Forall₂ R l l') {b : B} (hb : b ∈ l') : ∃ a ∈ l, R a b := by
  induction h with
  | nil => cases hb
  | cons hab _ ih =>
    rcases List.mem_cons.mp hb with rfl | hb
    · exact ⟨_, List.mem_cons_self, hab⟩
    · obtain ⟨a, ha, hr⟩ := ih hb
      exact ⟨a, List.mem_cons_of_mem _ ha, hr⟩

namespace Service

variable {T : Type} (s : Service T)

/-- The record that one payload leads to. -/
def Made (m : Manage) (db : DataDb) (p : T × PrepEnv) (c : Change T) : Prop :=
  s.check p.1 = .ok () ∧
    ∃ cdata id, s.prepare p.2 db m p.1 = .ok (c.found, cdata) ∧
      (c.found = false → s.mayInsert cdata = .ok ()) ∧ c.record = s.fill m p.1 c.found id cdata

/-- The tables differ in reservations and in the counter for new records. -/
def SameBut (st st' : SharedTable) : Prop :=
  ∃ tmpcache maincounter, st.maincounter ≤ maincounter ∧
    st' = { st with tmpcache := tmpcache, maincounter := maincounter }

/-- A request on its way: the rows so far are those of the records so far. -/
structure Staged (m : Manage) (st : SharedTable) (ps : List (T × PrepEnv)) (w : Work T)
    (cs : List (Change T)) : Prop where
  same : SameBut st w.table
  items : w.items = cs.flatMap (s.table.rows s.ukey)
  made : List.Forall₂ (s.Made m st.maindb) ps cs
  /-- `AddRecord` refuses records that are marked as not found -/
  unflagged : ∀ c ∈ cs, s.table.notfound c.record = false
  fits : ∀ c ∈ cs, StoreTable.Fits s.table s.ukey st.maindb c
  apart : cs.Pairwise (StoreTable.Apart s.table s.ukey)
  locked : ∀ c ∈ cs, s.lock c.record ∈ w.nc.inset
  new : ∀ c ∈ cs, c.found = false → s.table.id c.record ≤ w.table.maincounter

theorem SameBut.refl (st : SharedTable) : SameBut st st :=
  ⟨st.tmpcache, st.maincounter, le_rfl, rfl⟩

theorem SameBut.trans {a b c : SharedTable} (h : SameBut a b) (h' : SameBut b c) : SameBut a c := by
  obtain ⟨t, n, hn, rfl⟩ := h
  obtain ⟨t', n', hn', rfl⟩ := h'
  exact ⟨t', n', hn.trans hn', rfl⟩

variable {s}

/-- Different keys are enough for records that fit, unless both are new. -/
theorem apart_of_key {db : DataDb} (ht : s.table.SingleKey s.ukey) (hok : s.TableOk db)
    {c c' : Change T} (hfit : StoreTable.Fits s.table s.ukey db c)
    (hfit' : StoreTable.Fits s.table s.ukey db c') (hkey : s.key c.record ≠ s.key c'.record)
    (hnew : c.found = false → c'.found = false → s.table.id c.record ≠ s.table.id c'.record) :
    StoreTable.Apart s.table s.ukey c c' := by
  refine ⟨hkey, fun hid => ?_⟩
  rw [StoreTable.Fits] at hfit hfit'
  have hrow : ∀ r old, s.table.find db (s.table.getKey r s.ukey) = some old →
      db.get (encodePrimaryKey s.table.primaryKey (s.table.id old)) =
        some (s.table.serialize old) ∧ s.table.getKey old s.ukey = s.table.getKey r s.ukey := by
    intro r old hold
    obtain ⟨h1, -, h2, -⟩ := (ht.find_eq_some hok (ht.keytype_ukey r)).mp hold
    exact ⟨h2, h1⟩
  cases hf : c.found with
  | false =>
    cases hf' : c'.found with
    | false => exact hnew hf hf' hid
    | true =>
      simp only [hf, Bool.false_eq_true, if_false] at hfit
      simp only [hf', if_true] at hfit'
      obtain ⟨old, hold, hid'⟩ := hfit'
      have := (hrow _ old hold).1
      rw [← hid', ← hid, hfit.2.1] at this
      cases this
  | true =>
    simp only [hf, if_true] at hfit
    obtain ⟨old, hold, hido⟩ := hfit
    obtain ⟨hget, hk⟩ := hrow _ old hold
    cases hf' : c'.found with
    | false =>
      simp only [hf', Bool.false_eq_true, if_false] at hfit'
      rw [← hido, hid, hfit'.2.1] at hget
      cases hget
    | true =>
      simp only [hf', if_true] at hfit'
      obtain ⟨old', hold', hido'⟩ := hfit'
      obtain ⟨hget', hk'⟩ := hrow _ old' hold'
      -- one id, one record
      rw [← hido, hid, hido', hget', Option.some.injEq] at hget
      have := congrArg s.table.parse hget
      rw [ht.parse_serialize, ht.parse_serialize, Option.some.injEq] at this
      exact hkey (hk.symm.trans ((congrArg (s.table.getKey · s.ukey) this.symm).trans hk'))

/-- Whatever becomes of the last stage, it changes only the counter. -/
theorem add_same (st : SharedTable) (m : Manage) (data : T) (found : Bool) (cdata : T)
    (items : List TransItemT) : SameBut st (s.add st m data found cdata items).1 := by
  rw [Service.add]
  cases found with
  | true => exact SameBut.refl st
  | false =>
    simp only [Bool.false_eq_true, if_false]
    cases s.mayInsert cdata with
    | error e => exact SameBut.refl st
    | ok => exact ⟨st.tmpcache, st.maincounter + 1, Nat.le_succ _, rfl⟩

/-- Before the first payload. -/
theorem staged_nil (m : Manage) (st : SharedTable) : s.Staged m st [] { table := st } [] where
  same := SameBut.refl st
  items := rfl
  made := .nil
  unflagged := nofun
  fits := nofun
  apart := .nil
  locked := nofun
  new := nofun

namespace Lawful

variable (h : s.Lawful)

include h

/-- A reservation changes the reservations only. -/
theorem reserve_same {st st' : SharedTable} {nc nc' : TempNameCache} {r : T}
    (hr : s.reserve st nc r = .ok (st', nc')) : SameBut st st' ∧ st'.maincounter = st.maincounter := by
  obtain ⟨-, -, rfl, -⟩ := h.reserve_eq_ok.mp hr
  exact ⟨⟨_, st.maincounter, le_rfl, rfl⟩, rfl⟩

/-- The last stage for a payload that was prepared against these records and reserved. -/
theorem add_ok {st st' : SharedTable} {m : Manage} {env : PrepEnv} {data cdata r : T}
    {found : Bool} {items items' : List TransItemT} (hok : s.TableOk st.maindb)
    (hp : s.prepare env st.maindb m data = .ok (found, cdata))
    (ha : s.add st m data found cdata items = (st', .ok (r, items'))) :
    SameBut st st' ∧ items' = items ++ s.table.rows s.ukey ⟨found, r⟩ ∧
      StoreTable.Fits s.table s.ukey st.maindb ⟨found, r⟩ ∧ s.key r = s.key data ∧
      (found = false → s.mayInsert cdata = .ok () ∧ st.maincounter < s.table.id r ∧
        s.table.id r = st'.maincounter) ∧
      s.table.notfound r = false ∧ ∃ id, r = s.fill m data found id cdata := by
  obtain ⟨hkey, hfound, hold⟩ := h.prepare hok hp
  have hkr : ∀ id, s.key (s.fill m data found id cdata) = s.key data := fun id =>
    (h.fill_key m data found id cdata).trans hkey
  cases found with
  | true =>
    obtain ⟨old, hst⟩ := Option.isSome_iff_exists.mp hfound.symm
    have hst' : s.stored st.maindb cdata = some old := (congrArg _ hkey).trans hst
    rw [h.add_found hok hst' (hold old hst)] at ha
    split at ha
    · rename_i hflag
      simp only [Prod.mk.injEq, Except.ok.injEq] at ha
      obtain ⟨rfl, rfl, rfl⟩ := ha
      refine ⟨SameBut.refl st, rfl, ?_, hkr 0, nofun, hflag, 0, rfl⟩
      refine ⟨old, (congrArg _ (hkr 0)).trans hst, ?_⟩
      exact (h.fill_id m data true 0 cdata).trans (hold old hst)
    · simp [badData] at ha
  | false =>
    rw [h.add_new hok] at ha
    cases hadm : s.mayInsert cdata with
    | error e => simp [hadm] at ha
    | ok =>
      simp only [hadm] at ha
      split at ha
      · rename_i hfree
        simp only [Prod.mk.injEq, Except.ok.injEq] at ha
        obtain ⟨rfl, rfl, rfl⟩ := ha
        have hid : s.table.id (s.fill m data false (st.maincounter + 1) cdata) =
            st.maincounter + 1 := h.fill_id m data false _ cdata
        refine ⟨⟨st.tmpcache, st.maincounter + 1, Nat.le_succ _, rfl⟩, rfl, ?_, hkr _,
          fun _ => ⟨rfl, by rw [hid]; exact Nat.lt_succ_self _, hid⟩, hfree.1, _, rfl⟩
        have hfit : s.table.id (s.fill m data false (st.maincounter + 1) cdata) ≠ 0 := by
          rw [hid]
          exact Nat.succ_ne_zero _
        refine ⟨hfit, ?_, ?_⟩
        · rw [hid]
          exact hfree.2.1
        · exact (congrArg _ (h.fill_key m data false _ cdata)).trans hfree.2.2
      · simp [badData] at ha

/-- A record keeps the key of its payload. -/
theorem made_key {m : Manage} {db : DataDb} (hok : s.TableOk db) {p : T × PrepEnv} {c : Change T}
    (hc : s.Made m db p c) : s.key c.record = s.key p.1 := by
  obtain ⟨-, cdata, id, hp, -, hfill⟩ := hc
  obtain ⟨hkey, -⟩ := h.prepare hok hp
  rw [hfill]
  exact (h.fill_key m p.1 c.found id cdata).trans hkey

/-- What a payload makes of the stored record. -/
theorem made_found {m : Manage} {db : DataDb} (hok : s.TableOk db) {p : T × PrepEnv} {c : Change T}
    (hc : s.Made m db p c) {old : T} (hold : s.stored db p.1 = some old) :
    ∃ cdata id, s.prepare p.2 db m p.1 = .ok (true, cdata) ∧
      c.record = s.fill m p.1 true id cdata := by
  obtain ⟨-, cdata, id, hp, -, hfill⟩ := hc
  obtain ⟨-, hfound, -⟩ := h.prepare hok hp
  rw [hold] at hfound
  have hf : c.found = true := hfound
  rw [hf] at hp hfill
  exact ⟨cdata, id, hp, hfill⟩

/-- **The step lemma**: one more payload, one more record. -/
theorem staged_snoc {m : Manage} {st : SharedTable} (hok : s.TableOk st.maindb)
    {ps : List (T × PrepEnv)} {w : Work T} {cs : List (Change T)} (hw : s.Staged m st ps w cs)
    {data cdata r locked : T} {env : PrepEnv} {found : Bool} {st₁ st₂ : SharedTable}
    {nc : TempNameCache} {items : List TransItemT} (hcheck : s.check data = .ok ())
    (hp : s.prepare env w.table.maindb m data = .ok (found, cdata))
    (hlocked : s.key locked = s.key data) (hr : s.reserve w.table w.nc locked = .ok (st₁, nc))
    (ha : s.add st₁ m data found cdata w.items = (st₂, .ok (r, items))) (payloads : List T) :
    s.Staged m st (ps ++ [(data, env)]) ⟨st₂, nc, items, payloads⟩ (cs ++ [⟨found, r⟩]) ∧
      (found = false → st.maincounter < s.table.id r) := by
  obtain ⟨hsame₁, hcount⟩ := h.reserve_same hr
  obtain ⟨hin, -, hst₁, rfl⟩ := h.reserve_eq_ok.mp hr
  have hdb : w.table.maindb = st.maindb := by
    obtain ⟨t, n, -, hst⟩ := hw.same
    rw [hst]
  have hdb₁ : st₁.maindb = st.maindb := by rw [hst₁, hdb]
  rw [hdb] at hp
  rw [← hdb₁] at hok hp
  obtain ⟨hsame₂, hitems, hfit, hkey, hnew, hflag, id, hfill⟩ := h.add_ok hok hp ha
  rw [hdb₁] at hok hp hfit
  have hcle : w.table.maincounter ≤ st₂.maincounter := by
    obtain ⟨t, n, hn, rfl⟩ := hsame₂
    exact hcount ▸ hn
  have hlock : s.lock r = s.lock locked := h.lock_eq_iff.mpr (hkey.trans hlocked.symm)
  have habove : st.maincounter ≤ st₁.maincounter := by
    obtain ⟨t, n, hn, he⟩ := hw.same
    rw [hcount, he]
    exact hn
  refine ⟨⟨(hw.same.trans hsame₁).trans hsame₂, ?_, ?_, ?_, ?_, ?_, ?_, ?_⟩,
    fun hf => habove.trans_lt (hnew hf).2.1⟩
  · rw [hitems, hw.items, List.flatMap_append, List.flatMap_singleton]
  · exact List.rel_append hw.made
      (.cons ⟨hcheck, cdata, id, hp, fun hf => (hnew hf).1, hfill⟩ .nil)
  · intro c hc
    rcases List.mem_append.mp hc with hc | hc
    · exact hw.unflagged c hc
    · rw [List.mem_singleton.mp hc]
      exact hflag
  · intro c hc
    rcases List.mem_append.mp hc with hc | hc
    · exact hw.fits c hc
    · rw [List.mem_singleton.mp hc]
      exact hfit
  · refine List.pairwise_append.mpr ⟨hw.apart, List.pairwise_singleton _ _, ?_⟩
    intro c hc c' hc'
    rw [List.mem_singleton.mp hc']
    refine apart_of_key h.single hok (hw.fits c hc) hfit ?_ ?_
    · -- the name of this payload was not yet reserved by the request
      intro he
      refine hin (hlock ▸ ?_)
      rw [← h.lock_eq_iff.mpr he]
      exact hw.locked c hc
    · intro hf hf'
      have hle := hw.new c hc hf
      obtain ⟨-, hlt, -⟩ := hnew hf'
      exact (lt_of_le_of_lt (hle.trans hcount.ge) hlt).ne
  · intro c hc
    rcases List.mem_append.mp hc with hc | hc
    · exact List.mem_insert_of_mem (hw.locked c hc)
    · rw [List.mem_singleton.mp hc, hlock]
      exact List.mem_insert_self
  · intro c hc hf
    rcases List.mem_append.mp hc with hc | hc
    · exact (hw.new c hc hf).trans hcle
    · rw [List.mem_singleton.mp hc] at hf ⊢
      exact (hnew hf).2.2.le

omit h in
/-- **Everything a payload can do** to the shared table, successful or not: nothing, or reserve a
    name, after which a record may be added. -/
theorem payload_stages (m : Manage) (w : Work T) (data : T) (env : PrepEnv) :
    ((s.payload m w data env).1.table = w.table ∧ (s.payload m w data env).1.nc = w.nc) ∨
    ∃ r st₁, s.reserve w.table w.nc r = .ok (st₁, (s.payload m w data env).1.nc) ∧
      ((s.payload m w data env).1.table = st₁ ∨
        ∃ found cdata, (s.payload m w data env).1.table =
          (s.add st₁ m data found cdata w.items).1) := by
  rw [Service.payload]
  cases s.check data with
  | error e => exact Or.inl ⟨rfl, rfl⟩
  | ok =>
    cases s.readFirst with
    | true =>
      simp only [if_true]
      cases s.prepare env w.table.maindb m data with
      | error e => exact Or.inl ⟨rfl, rfl⟩
      | ok fc =>
        obtain ⟨found, cdata⟩ := fc
        simp only
        cases hr : s.reserve w.table w.nc cdata with
        | error e => exact Or.inl ⟨rfl, rfl⟩
        | ok sn =>
          obtain ⟨st₁, nc⟩ := sn
          simp only
          generalize hadd : s.add st₁ m data found cdata w.items = out
          obtain ⟨st₂, res⟩ := out
          have hst₂ : st₂ = (s.add st₁ m data found cdata w.items).1 := by rw [hadd]
          cases res with
          | error e => exact Or.inr ⟨cdata, st₁, hr, Or.inr ⟨found, cdata, hst₂⟩⟩
          | ok ri => exact Or.inr ⟨cdata, st₁, hr, Or.inr ⟨found, cdata, hst₂⟩⟩
    | false =>
      simp only [Bool.false_eq_true, if_false]
      cases hr : s.reserve w.table w.nc data with
      | error e => exact Or.inl ⟨rfl, rfl⟩
      | ok sn =>
        obtain ⟨st₁, nc⟩ := sn
        simp only
        cases s.prepare env st₁.maindb m data with
        | error e => exact Or.inr ⟨data, st₁, hr, Or.inl rfl⟩
        | ok fc =>
          obtain ⟨found, cdata⟩ := fc
          simp only
          generalize hadd : s.add st₁ m data found cdata w.items = out
          obtain ⟨st₂, res⟩ := out
          have hst₂ : st₂ = (s.add st₁ m data found cdata w.items).1 := by rw [hadd]
          cases res with
          | error e => exact Or.inr ⟨data, st₁, hr, Or.inr ⟨found, cdata, hst₂⟩⟩
          | ok ri => exact Or.inr ⟨data, st₁, hr, Or.inr ⟨found, cdata, hst₂⟩⟩

/-- A payload, successful or not, changes reservations and the counter only. -/
theorem payload_same (m : Manage) (w : Work T) (data : T) (env : PrepEnv) :
    SameBut w.table (s.payload m w data env).1.table := by
  rcases payload_stages (s := s) m w data env with ⟨hst, -⟩ | ⟨r, st₁, hr, hst | ⟨found, cdata, hst⟩⟩
  · rw [hst]
    exact SameBut.refl w.table
  · rw [hst]
    exact (h.reserve_same hr).1
  · rw [hst]
    exact (h.reserve_same hr).1.trans (add_same st₁ m data found cdata w.items)

/-- A successful payload went through the three stages. -/
theorem payload_ok {m : Manage} {w w' : Work T} (hok : s.TableOk w.table.maindb) {data : T}
    {env : PrepEnv} (hrun : s.payload m w data env = (w', .ok ())) :
    s.check data = .ok () ∧ ∃ found cdata locked st₁ nc st₂ r items payloads,
      s.prepare env w.table.maindb m data = .ok (found, cdata) ∧ s.key locked = s.key data ∧
        s.reserve w.table w.nc locked = .ok (st₁, nc) ∧
        s.add st₁ m data found cdata w.items = (st₂, .ok (r, items)) ∧
        w' = ⟨st₂, nc, items, payloads⟩ := by
  rw [Service.payload] at hrun
  cases hcheck : s.check data with
  | error e => simp [hcheck] at hrun
  | ok =>
    refine ⟨rfl, ?_⟩
    simp only [hcheck] at hrun
    cases hfirst : s.readFirst with
    | true =>
      simp only [hfirst, if_true] at hrun
      cases hp : s.prepare env w.table.maindb m data with
      | error e => simp [hp] at hrun
      | ok fc =>
        obtain ⟨found, cdata⟩ := fc
        simp only [hp] at hrun
        cases hr : s.reserve w.table w.nc cdata with
        | error e => simp [hr] at hrun
        | ok sn =>
          obtain ⟨st₁, nc⟩ := sn
          simp only [hr] at hrun
          split at hrun
          · simp at hrun
          · rename_i st₂ r items ha
            simp only [Prod.mk.injEq, and_true] at hrun
            exact ⟨found, cdata, cdata, st₁, nc, st₂, r, items, _, rfl, (h.prepare hok hp).1, hr,
              ha, hrun.symm⟩
    | false =>
      simp only [hfirst, Bool.false_eq_true, if_false] at hrun
      cases hr : s.reserve w.table w.nc data with
      | error e => simp [hr] at hrun
      | ok sn =>
        obtain ⟨st₁, nc⟩ := sn
        have hdb : st₁.maindb = w.table.maindb := by
          obtain ⟨-, -, rfl, -⟩ := h.reserve_eq_ok.mp hr
          rfl
        simp only [hr, hdb] at hrun
        cases hp : s.prepare env w.table.maindb m data with
        | error e => simp [hp] at hrun
        | ok fc =>
          obtain ⟨found, cdata⟩ := fc
          simp only [hp] at hrun
          split at hrun
          · simp at hrun
          · rename_i st₂ r items ha
            simp only [Prod.mk.injEq, and_true] at hrun
            exact ⟨found, cdata, data, st₁, nc, st₂, r, items, _, rfl, rfl, hr, ha, hrun.symm⟩

/-- The payloads change reservations and the counter only. -/
theorem payloads_same (m : Manage) (input : List (T × PrepEnv)) (w : Work T) :
    SameBut w.table (s.payloads m input w).1.table := by
  induction input generalizing w with
  | nil => exact SameBut.refl _
  | cons p rest ih =>
    obtain ⟨data, env⟩ := p
    have hstep := h.payload_same m w data env
    rw [Service.payloads]
    split
    · rename_i w' e heq
      rw [heq] at hstep
      exact hstep
    · rename_i w' heq
      rw [heq] at hstep
      exact hstep.trans (ih w')

/-- **The run lemma**: successful payloads leave one record each, new ones under ids from the
    counter. -/
theorem payloads_staged {m : Manage} {st : SharedTable} (hok : s.TableOk st.maindb)
    {input ps : List (T × PrepEnv)} {w w' : Work T} {cs : List (Change T)}
    (hw : s.Staged m st ps w cs)
    (habove : ∀ c ∈ cs, c.found = false → st.maincounter < s.table.id c.record)
    (hrun : s.payloads m input w = (w', .ok ())) :
    ∃ cs', s.Staged m st (ps ++ input) w' cs' ∧
      ∀ c ∈ cs', c.found = false → st.maincounter < s.table.id c.record := by
  induction input generalizing ps w cs with
  | nil =>
    rw [Service.payloads, Prod.mk.injEq] at hrun
    rw [List.append_nil, ← hrun.1]
    exact ⟨cs, hw, habove⟩
  | cons p rest ih =>
    obtain ⟨data, env⟩ := p
    rw [Service.payloads] at hrun
    split at hrun
    · simp at hrun
    · rename_i w₁ hstep
      have hdb : s.TableOk w.table.maindb := by
        obtain ⟨t, n, -, hst⟩ := hw.same
        rw [hst]
        exact hok
      obtain ⟨hcheck, found, cdata, locked, st₁, nc, st₂, r, items, payloads, hp, hlocked, hr, ha,
        rfl⟩ := h.payload_ok hdb hstep
      obtain ⟨hnext, hnew⟩ := h.staged_snoc hok hw hcheck hp hlocked hr ha payloads
      have hall : ∀ c ∈ cs ++ [(⟨found, r⟩ : Change T)], c.found = false →
          st.maincounter < s.table.id c.record := by
        intro c hc
        rcases List.mem_append.mp hc with hc | hc
        · exact habove c hc
        · rw [List.mem_singleton.mp hc]
          exact hnew
      have := ih hnext hall hrun
      rwa [List.append_assoc, List.singleton_append] at this

/-- The run lemma, from the first payload. -/
theorem payloads_staged_nil {m : Manage} {st : SharedTable} (hok : s.TableOk st.maindb)
    {input : List (T × PrepEnv)} {w : Work T}
    (hrun : s.payloads m input { table := st } = (w, .ok ())) :
    ∃ cs, s.Staged m st input w cs ∧
      ∀ c ∈ cs, c.found = false → st.maincounter < s.table.id c.record := by
  refine h.payloads_staged hok (staged_nil m st) ?_ hrun
  intro c hc
  cases hc

/-- A request whose payloads do not all succeed writes nothing. -/
theorem manage_of_not_ok {st : SharedTable} {m : Manage} {input : List (T × PrepEnv)}
    (hno : ¬ ∃ w, s.payloads m input { table := st } = (w, .ok ())) (env : CommitEnv) :
    (∃ e, (s.manage st m input env).result = .error e) ∧
      (s.manage st m input env).table.maindb = st.maindb ∧
      (s.manage st m input env).table.logdb = st.logdb ∧
      (s.manage st m input env).table.logcounter = st.logcounter := by
  have hsame := h.payloads_same m input { table := st }
  rw [Service.manage]
  split
  · rename_i w e heq
    rw [heq] at hsame
    obtain ⟨t, n, -, hst⟩ := hsame
    have hst' : w.table = { st with tmpcache := t, maincounter := n } := hst
    exact ⟨⟨e, rfl⟩, by simp only [TempNameCache.destroy, hst'], by
      simp only [TempNameCache.destroy, hst'], by simp only [TempNameCache.destroy, hst']⟩
  · rename_i w heq
    exact absurd ⟨w, heq⟩ hno

/-- A request whose payloads all succeed commits their rows. -/
theorem manage_of_ok {st : SharedTable} (hm : st.isMaster = true) (hok : s.TableOk st.maindb)
    {m : Manage} {input : List (T × PrepEnv)} {w : Work T}
    (hrun : s.payloads m input { table := st } = (w, .ok ())) (env : CommitEnv) :
    ∃ (cs : List (Change T)) (res : Except Exc Unit),
      List.Forall₂ (s.Made m st.maindb) input cs ∧
      (∀ c ∈ cs, s.table.notfound c.record = false) ∧
      (∀ c ∈ cs, StoreTable.Fits s.table s.ukey st.maindb c) ∧
      cs.Pairwise (StoreTable.Apart s.table s.ukey) ∧
      CommitResult st m.currtime
        { item := cs.flatMap (s.table.rows s.ukey), updater := m.updater.name } true env
        (s.manage st m input env).table res ∧
      ((∃ e, (s.manage st m input env).result = .error e) ↔ ∃ e, res = .error e) := by
  have hsame := h.payloads_same m input { table := st }
  rw [hrun] at hsame
  obtain ⟨t, n, -, hst⟩ := hsame
  have hst' : w.table = { st with tmpcache := t, maincounter := n } := hst
  obtain ⟨cs, hw, -⟩ := h.payloads_staged_nil hok hrun
  have hmaster : w.table.isMaster = true := by
    rw [hst']
    exact hm
  have hcommit := commit_result hmaster m.currtime
    { item := w.items, updater := m.updater.name } true env
  rw [Service.manage, hrun]
  simp only
  refine ⟨cs, (commit w.table m.currtime { item := w.items, updater := m.updater.name } true
    env).result, hw.made, hw.unflagged, hw.fits, hw.apart, ?_, ?_⟩
  · generalize (commit w.table m.currtime { item := w.items, updater := m.updater.name } true
      env).result = res at hcommit ⊢
    rw [hw.items] at hcommit ⊢
    cases hcommit with
    | empty hitem hdb hlog hcount =>
      exact .empty hitem (hdb.trans (by rw [hst'])) (hlog.trans (by rw [hst']))
        (hcount.trans (by rw [hst']))
    | noLog hitem henv hdb hlog hcount =>
      exact .noLog hitem henv (hdb.trans (by rw [hst'])) (hlog.trans (by rw [hst']))
        (hcount.trans (by rw [hst']))
    | noData hitem henv hdb hlog hcount =>
      exact .noData hitem henv (hdb.trans (by rw [hst'])) (hlog.trans (by rw [hst']))
        (hcount.trans (by rw [hst']))
    | thrown hitem henv hno hdb hlog hcount =>
      exact .thrown hitem henv (by rwa [hst'] at hno) (hdb.trans (by rw [hst']))
        (hlog.trans (by rw [hst'])) (hcount.trans (by rw [hst']))
    | done hitem henv htakes hdb hlog hcount =>
      exact .done hitem henv (by rwa [hst'] at htakes) (hdb.trans (by rw [hst']))
        (hlog.trans (by rw [hst'])) (hcount.trans (by rw [hst']))
  · cases (commit w.table m.currtime { item := w.items, updater := m.updater.name } true
      env).result with
    | error e => exact ⟨fun _ => ⟨e, rfl⟩, fun _ => ⟨e, rfl⟩⟩
    | ok => exact ⟨fun ⟨e, he⟩ => (nomatch he), fun ⟨e, he⟩ => (nomatch he)⟩

/-- **Everything a request can do to the records**: nothing, or write the records its payloads lead
    to. -/
theorem manage_maindb {st : SharedTable} (hm : st.isMaster = true) (hok : s.TableOk st.maindb)
    (m : Manage) (input : List (T × PrepEnv)) (env : CommitEnv) :
    (s.manage st m input env).table.maindb = st.maindb ∨
      ∃ cs, List.Forall₂ (s.Made m st.maindb) input cs ∧
        (∀ c ∈ cs, s.table.notfound c.record = false) ∧
        (∀ c ∈ cs, StoreTable.Fits s.table s.ukey st.maindb c) ∧
        cs.Pairwise (StoreTable.Apart s.table s.ukey) ∧
        (s.manage st m input env).table.maindb =
          st.maindb.write (dataBatch (cs.flatMap (s.table.rows s.ukey))) := by
  by_cases hrun : ∃ w, s.payloads m input { table := st } = (w, .ok ())
  · obtain ⟨w, hrun⟩ := hrun
    obtain ⟨cs, res, hmade, hflag, hfit, hap, hcommit, -⟩ := h.manage_of_ok hm hok hrun env
    rcases hcommit.maindb with ⟨hdb, -⟩ | ⟨hdb, -⟩
    · exact .inl hdb
    · exact .inr ⟨cs, hmade, hflag, hfit, hap, hdb⟩
  · exact .inl (h.manage_of_not_ok hrun env).2.1

end Lawful

end Service

/-! ## The head of a request -/

/-- The payloads a request works on. -/
def ActionHead.payloadsOf {T : Type} (head : ActionHead T) (resp : RespT T) : List T :=
  if head.payloadName resp.payload ≠ [] then resp.payloads ++ [resp.payload] else resp.payloads

/-- **The head of `ManageDataAction`** refuses the request, having touched only the cache, or hands
    it on with the updater of its session. -/
theorem manageDataAction_cases {T : Type} (head : ActionHead T) (s : Service T) (env : ActionEnv)
    (st : SharedTable) (resp : RespT T) :
    (∃ dbcache e, manageDataAction head s env st resp =
      { table := { st with dbcache := dbcache }, result := .error e }) ∨
    (st.isMaster = true ∧ ∃ action merge dbcache updater,
      writeActionFilter resp.action = .ok (action, merge) ∧
      checkSession env.decode env.sessionTime st
          { name := resp.username, sessionkey := resp.sessionkey,
            keytype := head.updaterKeytype resp } head.onlyadmin =
        ({ st with dbcache := dbcache }, .ok (some updater)) ∧
      head.checkUpdater updater = .ok () ∧
      manageDataAction head s env st resp =
        s.manage { st with dbcache := dbcache }
          ⟨updater, action, head.allowedFields resp.fields, merge, env.currtime⟩
          (withEnv env.prep (head.payloadsOf resp)) env.commit) := by
  rw [manageDataAction]
  by_cases hm : st.isMaster = true
  · rw [if_neg (by rw [hm]; decide)]
    cases hact : writeActionFilter resp.action with
    | error e => exact .inl ⟨st.dbcache, e, rfl⟩
    | ok am =>
      obtain ⟨action, merge⟩ := am
      obtain ⟨dbcache, hsame⟩ := checkSession_same env.decode env.sessionTime st
        { name := resp.username, sessionkey := resp.sessionkey,
          keytype := head.updaterKeytype resp } head.onlyadmin
      simp only
      generalize hsess : checkSession env.decode env.sessionTime st
        { name := resp.username, sessionkey := resp.sessionkey,
          keytype := head.updaterKeytype resp } head.onlyadmin = sess at hsame ⊢
      obtain ⟨st', res⟩ := sess
      have hst' : st' = { st with dbcache := dbcache } := hsame
      subst hst'
      match res with
      | .error e => exact .inl ⟨dbcache, e, rfl⟩
      | .ok none => exact .inl ⟨dbcache, _, rfl⟩
      | .ok (some updater) =>
        simp only
        cases hupd : head.checkUpdater updater with
        | error e => exact .inl ⟨dbcache, e, rfl⟩
        | ok => exact .inr ⟨hm, action, merge, dbcache, updater, rfl, rfl, hupd, rfl⟩
  · rw [if_pos (by simpa using hm)]
    exact .inl ⟨st.dbcache, _, rfl⟩

/-- A payload of a request is one of its message. -/
theorem mem_withEnv {T : Type} {prep : Nat → PrepEnv} {ps : List T} {p : T × PrepEnv}
    (h : p ∈ withEnv prep ps) : p.1 ∈ ps := by
  obtain ⟨⟨x, i⟩, hx, rfl⟩ := List.mem_map.mp h
  exact List.fst_mem_of_mem_zipIdx hx

theorem withEnv_eq_nil_iff {T : Type} {prep : Nat → PrepEnv} {ps : List T} :
    withEnv prep ps = [] ↔ ps = [] := by
  rw [withEnv, List.map_eq_nil_iff, List.zipIdx_eq_nil_iff]

theorem ActionHead.mem_payloadsOf {T : Type} {head : ActionHead T} {resp : RespT T} {p : T}
    (h : p ∈ head.payloadsOf resp) : p ∈ resp.payloads ++ [resp.payload] := by
  rw [ActionHead.payloadsOf] at h
  split at h
  · exact h
  · exact List.mem_append_left _ h

end Zapdos.Store
