/-
  Opening the databases — `StoreLevel::Initialize` and the counters `WorkServer::init` sets.

  `Initialize` writes an empty fence row at id `0` of every primary key type that has none yet, and
  then finds the last used ids by stepping back from the first row of the next key type.  The default
  build does this on one database that holds records and log; the model does it on the record rows
  and on the log rows, which share nothing but the fences.

  THE SPEC.  After `Initialize` the log counter is the greatest id in the log and the record counter is
  not below any record id (`storeInitialize_spec`).
-/
import Zapdos.Lib.Replay
import Zapdos.Store.StoreTrans

namespace Zapdos.Store

open Zapdos.Lib

/-! ## Fences -/

section Fences

variable {V : Type}

/-- Put the fence of one key type if it is missing. -/
def putFence (blank : V) (db : OrdMap Key V) (keytype : KeyTypeE) : OrdMap Key V :=
  match db.get (encodePrimaryKey keytype 0) with
  | some _ => db
  | none => db.put (encodePrimaryKey keytype 0) blank

/-- The key types from `K_NONODE` to `K_MAXNODE`. -/
def fenceTypes : List KeyTypeE := List.range' kNonode (kMaxnode - kNonode + 1)

/-- The fences of all primary key types. -/
def putFences (blank : V) (db : OrdMap Key V) : OrdMap Key V :=
  fenceTypes.foldl (putFence blank) db

theorem get_putFence (blank : V) (db : OrdMap Key V) (kt : KeyTypeE) (k : Key) :
    (putFence blank db kt).get k =
      if k = encodePrimaryKey kt 0 then some ((db.get k).getD blank) else db.get k := by
  rw [putFence]
  by_cases hk : k = encodePrimaryKey kt 0
  · subst hk
    rw [if_pos rfl]
    cases hg : db.get (encodePrimaryKey kt 0) with
    | some v => simp [hg]
    | none => simp
  · rw [if_neg hk]
    cases hg : db.get (encodePrimaryKey kt 0) with
    | some v => rfl
    | none => exact OrdMap.get_put_ne db hk blank

/-- The keys of fences. -/
def isFence : Key → Bool
  | .primary kt id => decide (id = 0 ∧ kNonode ≤ kt ∧ kt ≤ kMaxnode)
  | .secondary _ _ => false

theorem isFence_iff (k : Key) :
    isFence k = true ↔ ∃ kt ∈ fenceTypes, k = encodePrimaryKey kt 0 := by
  have hmem : ∀ kt, kt ∈ fenceTypes ↔ kNonode ≤ kt ∧ kt ≤ kMaxnode := by
    intro (kt : Nat)
    rw [fenceTypes, List.mem_range'_1]
    show 10 ≤ kt ∧ kt < 10 + (50 - 10 + 1) ↔ 10 ≤ kt ∧ kt ≤ 50
    omega
  cases k with
  | primary kt id =>
    simp only [isFence, decide_eq_true_iff, encodePrimaryKey, Key.primary.injEq]
    constructor
    · rintro ⟨rfl, hkt⟩
      exact ⟨kt, (hmem kt).mpr hkt, rfl, rfl⟩
    · rintro ⟨_, hkt, rfl, rfl⟩
      exact ⟨rfl, (hmem kt).mp hkt⟩
  | secondary kt ps => simp [isFence, encodePrimaryKey]

theorem get_foldl_putFence (blank : V) (kts : List KeyTypeE) (db : OrdMap Key V) (k : Key) :
    (kts.foldl (putFence blank) db).get k =
      if ∃ kt ∈ kts, k = encodePrimaryKey kt 0 then some ((db.get k).getD blank)
      else db.get k := by
  induction kts generalizing db with
  | nil => simp
  | cons kt kts ih =>
    rw [List.foldl_cons, ih, get_putFence]
    by_cases hk : k = encodePrimaryKey kt 0
    · have hex : ∃ kt' ∈ kt :: kts, k = encodePrimaryKey kt' 0 := ⟨kt, List.mem_cons_self, hk⟩
      rw [if_pos hk, if_pos hex]
      split_ifs <;> rfl
    · rw [if_neg hk]
      have hiff : (∃ kt' ∈ kt :: kts, k = encodePrimaryKey kt' 0) ↔
          ∃ kt' ∈ kts, k = encodePrimaryKey kt' 0 := by
        simp [hk]
      simp only [hiff]

/-- A fence appears where a row was missing; nothing else changes. -/
theorem get_putFences (blank : V) (db : OrdMap Key V) (k : Key) :
    (putFences blank db).get k =
      if isFence k then some ((db.get k).getD blank) else db.get k := by
  rw [putFences, get_foldl_putFence]
  simp only [← isFence_iff]

/-- Opening a database that has its fences changes nothing. -/
theorem putFences_eq_self (blank : V) (db : OrdMap Key V)
    (h : ∀ k, isFence k = true → (db.get k).isSome = true) : putFences blank db = db := by
  refine OrdMap.ext fun k => ?_
  rw [get_putFences]
  by_cases hk : isFence k = true
  · rw [if_pos hk]
    obtain ⟨v, hv⟩ := Option.isSome_iff_exists.mp (h k hk)
    rw [hv]
    rfl
  · rw [if_neg hk]

-- from here on the fences are known by `get_putFences`, never by writing 41 rows
attribute [irreducible] putFences

/-- The id of the row before the first row of `keytype`, if that row is of the type before. -/
def lastIdBefore (db : OrdMap Key V) (keytype : KeyTypeE) (missing missing0 : String) :
    Except Exc (Option Nat) :=
  if db.seek (encodePrimaryKey keytype 0) = [] then initialExc missing
  else match db.seekPrev (encodePrimaryKey keytype 0) with
    | none => initialExc missing0
    | some (key, _) =>
      if key.keytype ≠ keytype - 1 then pure none
      else match key with
        | .primary _ id => pure (some id)
        | .secondary _ _ => badData "Invalid Key probed"

/-- Primary rows have primary keys. -/
def WellKeyed {V : Type} (db : OrdMap Key V) : Prop :=
  ∀ k v, db.get k = some v → k.keytype ≤ kMaxnode → ∃ id, k = .primary k.keytype id

/-- The rows of a database as the store writes them: the fences are there, and every row of a
    primary key type has a primary key. -/
structure Fenced (db : OrdMap Key V) : Prop where
  fence : ∀ k, isFence k = true → (db.get k).isSome = true
  primary : ∀ k v, db.get k = some v → k.keytype ≤ kMaxnode → ∃ id, k = .primary k.keytype id

/-- **Stepping back** from the first row of a key type finds the greatest id of the type before. -/
theorem lastIdBefore_spec {db : OrdMap Key V} (h : Fenced db) {kt : Nat}
    (hlo : kNonode < kt) (hhi : kt ≤ kMaxnode) (missing missing0 : String) :
    ∃ id, lastIdBefore db kt missing missing0 = .ok (some id) ∧
      (db.get (encodePrimaryKey (kt - 1) id)).isSome = true ∧
      ∀ i, (db.get (encodePrimaryKey (kt - 1) i)).isSome = true → i ≤ id := by
  have hfence : ∀ kt', kNonode ≤ kt' → kt' ≤ kMaxnode →
      ∃ v, db.get (encodePrimaryKey kt' 0) = some v := fun kt' h1 h2 =>
    Option.isSome_iff_exists.mp (h.fence _ (by simp [isFence, encodePrimaryKey, h1, h2]))
  have hlo' : 10 < kt := hlo
  have hkt : kt - 1 < kt := by omega
  obtain ⟨v, hv⟩ := hfence kt hlo.le hhi
  obtain ⟨w, hw⟩ := hfence (kt - 1) (Nat.le_sub_one_of_lt hlo) (hkt.le.trans hhi)
  have hseek : db.seek (encodePrimaryKey kt 0) ≠ [] := by
    intro he
    have hm := db.mem_seek.mpr ⟨le_refl (encodePrimaryKey kt 0), hv⟩
    rw [he] at hm
    cases hm
  have hbefore : ∀ i, encodePrimaryKey (kt - 1) i < encodePrimaryKey kt 0 := fun i =>
    lt_of_keytype_lt hkt
  obtain ⟨⟨key, u⟩, hprev⟩ := OrdMap.seekPrev_isSome hw (hbefore 0)
  obtain ⟨hget, hlt, hmax⟩ := OrdMap.seekPrev_eq_some hprev
  -- the row found is not before the fence of the type before, and not of the type itself
  have hge : kt - 1 ≤ key.keytype := keytype_le_of_le (hmax _ _ hw (hbefore 0))
  have hle : key.keytype ≤ kt := keytype_le_of_le hlt.le
  obtain ⟨id, hid⟩ := h.primary key u hget (hle.trans hhi)
  have hne : key.keytype ≠ kt := by
    intro he
    rw [hid, he] at hlt
    exact absurd (primary_lt_primary.mp hlt) (Nat.not_lt_zero _)
  have hkey : key.keytype = kt - 1 := by
    exact Nat.le_antisymm (Nat.le_sub_one_of_lt (lt_of_le_of_ne hle hne)) hge
  rw [hkey] at hid
  subst hid
  refine ⟨id, ?_, ?_, fun i hi => ?_⟩
  · rw [lastIdBefore, if_neg hseek, hprev]
    simp [Key.keytype, pure, Except.pure]
  · exact Option.isSome_iff_exists.mpr ⟨u, hget⟩
  · obtain ⟨x, hx⟩ := Option.isSome_iff_exists.mp hi
    exact primary_le_primary.mp (hmax _ _ hx (hbefore i))

theorem fenced_putFences {db : OrdMap Key V} (blank : V)
    (h : ∀ k v, db.get k = some v → k.keytype ≤ kMaxnode → ∃ id, k = .primary k.keytype id) :
    Fenced (putFences blank db) := by
  refine ⟨fun k hk => ?_, fun k v hv hk => ?_⟩
  · rw [get_putFences, if_pos hk]
    rfl
  · rw [get_putFences] at hv
    by_cases hf : isFence k = true
    · obtain ⟨kt, -, rfl⟩ := (isFence_iff k).mp hf
      exact ⟨0, rfl⟩
    · rw [if_neg hf] at hv
      exact h k v hv hk

end Fences

/-! ## `Initialize` -/

/-- The last log id: the row before `K_MAXNODE`. -/
def lastLkeyOf (db : LogDb) : Except Exc Nat := do
  let id ← lastIdBefore db kMaxnode "Fixed record K_MAXNODE missing"
    "Zero record before K_MAXNODE missing"
  pure (id.getD 0)

/-- The loop over the key types, from `K_LOGNODE` down to the one after `K_NONODE`. -/
def lastPkeyLoop {V : Type} (db : OrdMap Key V) : List KeyTypeE → Nat → Except Exc Nat
  | [], last => pure last
  | kt :: kts, last => do
    let id ← lastIdBefore db kt "Some fixed records missing" "Some zero records missing"
    lastPkeyLoop db kts (max last (id.getD 0))

/-- The key types of that loop. -/
def pkeyTypes : List KeyTypeE := (List.range' (kNonode + 1) (kLognode - kNonode)).reverse

/-- What `Initialize` leaves behind. -/
structure Opened where
  maindb : DataDb
  logdb : LogDb
  lastPkey : Nat
  lastLkey : Nat

/-- `Initialize`. -/
def storeInitialize (maindb : DataDb) (logdb : LogDb) : Except Exc Opened := do
  let maindb := putFences .blank maindb
  let logdb := putFences .blank logdb
  let lastLkey ← lastLkeyOf logdb
  let lastPkey ← lastPkeyLoop maindb pkeyTypes 0
  pure ⟨maindb, logdb, lastPkey, lastLkey⟩

/-- The shared table of a node that has just opened its databases: besides its settings, everything
    else starts blank. -/
def reopened (thisurl : Bytes) (noXapian isMaster : Bool) (master : Bytes) (o : Opened) :
    SharedTable where
  thisurl := thisurl
  master := master
  isMaster := isMaster
  noXapian := noXapian
  maincounter := if o.lastPkey > 0 then o.lastPkey else 1
  logcounter := if o.lastLkey > 0 then o.lastLkey else 0
  maindb := o.maindb
  logdb := o.logdb

/-- The part of `WorkServer::init` that opens the databases and sets the counters; address and
    `no_xapian` are set before. -/
def workServerInit (st : SharedTable) (isMaster : Bool) (master : Bytes) :
    Except Exc SharedTable := do
  let o ← storeInitialize st.maindb st.logdb
  pure (reopened st.thisurl st.noXapian isMaster master o)

theorem lastPkeyLoop_spec {V : Type} {db : OrdMap Key V} (h : Fenced db) (kts : List KeyTypeE)
    (hkts : ∀ kt ∈ kts, kNonode < kt ∧ kt ≤ kMaxnode) (last : Nat) :
    ∃ n, lastPkeyLoop db kts last = .ok n ∧ last ≤ n ∧
      (∀ kt ∈ kts, ∀ i, (db.get (encodePrimaryKey (kt - 1) i)).isSome = true → i ≤ n) ∧
      (n = last ∨ ∃ kt ∈ kts, (db.get (encodePrimaryKey (kt - 1) n)).isSome = true) := by
  induction kts generalizing last with
  | nil => exact ⟨last, rfl, le_refl _, by simp, Or.inl rfl⟩
  | cons kt kts ih =>
    obtain ⟨hlo, hhi⟩ := hkts kt List.mem_cons_self
    obtain ⟨id, hid, hin, hmax⟩ := lastIdBefore_spec h hlo hhi "Some fixed records missing"
      "Some zero records missing"
    obtain ⟨n, hn, hle, hall, hmem⟩ := ih (fun kt' h' => hkts kt' (List.mem_cons_of_mem _ h'))
      (max last id)
    refine ⟨n, ?_, by omega, ?_, ?_⟩
    · rw [lastPkeyLoop, hid]
      exact hn
    · intro kt' hkt' i hi
      rcases List.mem_cons.mp hkt' with rfl | hkt'
      · have := hmax i hi
        omega
      · exact hall kt' hkt' i hi
    · rcases hmem with hmem | ⟨kt', hkt', hm⟩
      · rcases Nat.le_total last id with hl | hl
        · refine Or.inr ⟨kt, List.mem_cons_self, ?_⟩
          rw [hmem, max_eq_right hl]
          exact hin
        · exact Or.inl (by rw [hmem, max_eq_left hl])
      · exact Or.inr ⟨kt', List.mem_cons_of_mem _ hkt', hm⟩

theorem mem_pkeyTypes {kt : Nat} :
    kt ∈ pkeyTypes ↔ kNonode < kt ∧ kt ≤ kLognode := by
  rw [pkeyTypes, List.mem_reverse, List.mem_range'_1]
  show 10 + 1 ≤ kt ∧ kt < 10 + 1 + (49 - 10) ↔ 10 < kt ∧ kt ≤ 49
  omega

/-- **`Initialize`** on databases whose primary rows have primary keys: it succeeds, adds the
    missing fences, and reports the greatest log id and the greatest record id. -/
theorem storeInitialize_spec {maindb : DataDb} {logdb : LogDb}
    (hmain : ∀ k v, maindb.get k = some v → k.keytype ≤ kMaxnode → ∃ id, k = .primary k.keytype id)
    (hlog : ∀ k v, logdb.get k = some v → k.keytype ≤ kMaxnode → ∃ id, k = .primary k.keytype id) :
    ∃ p l, storeInitialize maindb logdb =
        .ok ⟨putFences DataV.blank maindb, putFences LogV.blank logdb, p, l⟩ ∧
      ((putFences LogV.blank logdb).get (encodePrimaryKey kLognode l)).isSome = true ∧
      (∀ i, ((putFences LogV.blank logdb).get (encodePrimaryKey kLognode i)).isSome = true →
        i ≤ l) ∧
      (∀ kt, kNonode ≤ kt → kt < kLognode → ∀ i,
        ((putFences DataV.blank maindb).get (encodePrimaryKey kt i)).isSome = true → i ≤ p) := by
  have hfm : Fenced (putFences DataV.blank maindb) := fenced_putFences DataV.blank hmain
  have hfl : Fenced (putFences LogV.blank logdb) := fenced_putFences LogV.blank hlog
  have hmax : kLognode < kMaxnode := by decide
  have hmin : kNonode < kMaxnode := by decide
  have h49 : kMaxnode - 1 = kLognode := rfl
  obtain ⟨l, hl, hlin, hlmax⟩ := lastIdBefore_spec hfl hmin (le_refl _)
    "Fixed record K_MAXNODE missing" "Zero record before K_MAXNODE missing"
  rw [h49] at hlin hlmax
  obtain ⟨p, hp, -, hpall, -⟩ := lastPkeyLoop_spec hfm pkeyTypes
    (fun kt hkt => ⟨(mem_pkeyTypes.mp hkt).1, (mem_pkeyTypes.mp hkt).2.trans hmax.le⟩) 0
  refine ⟨p, l, ?_, hlin, hlmax, ?_⟩
  · simp only [storeInitialize, lastLkeyOf, hl, hp, bind, Except.bind, pure, Except.pure,
      Option.getD_some]
  · intro kt h1 h2 i hi
    have hkt := hpall (kt + 1) (mem_pkeyTypes.mpr ⟨Nat.lt_succ_of_le h1, h2⟩) i
    rw [Nat.add_sub_cancel] at hkt
    exact hkt hi

/-- The records after opening: only fences are added. -/
theorem storeInitialize_maindb {maindb : DataDb} {logdb : LogDb} {o : Opened}
    (h : storeInitialize maindb logdb = .ok o) : o.maindb = putFences .blank maindb := by
  rw [storeInitialize] at h
  obtain ⟨l, -, h⟩ := bind_eq_ok.mp h
  obtain ⟨p, -, h⟩ := bind_eq_ok.mp h
  cases h
  rfl

attribute [irreducible] storeInitialize

/-! ## Transactions on the rows of tables -/

/-- The keys a table writes: a record under its id, or a row of an index. -/
def TableKey : Key → Prop
  | .primary kt id => kNonode < kt ∧ kt < kLognode ∧ 0 < id
  | .secondary kt _ => kMaxnode < kt

instance : DecidablePred TableKey := fun k =>
  match k with
  | .primary kt id => inferInstanceAs (Decidable (kNonode < kt ∧ kt < kLognode ∧ 0 < id))
  | .secondary kt _ => inferInstanceAs (Decidable (kMaxnode < kt))

/-- All rows of a transaction are rows of tables. -/
def TableRows (items : List TransItemT) : Prop := ∀ i ∈ items, TableKey i.key

instance (items : List TransItemT) : Decidable (TableRows items) :=
  inferInstanceAs (Decidable (∀ i ∈ items, TableKey i.key))

theorem isFence_of_tableKey {k : Key} (h : TableKey k) : isFence k = false := by
  cases k with
  | primary kt id =>
    obtain ⟨-, -, hid⟩ := h
    have : id ≠ 0 := Nat.ne_of_gt hid
    simp [isFence, this]
  | secondary kt ps => rfl

theorem mem_dataBatch_key {items : List TransItemT} {op : OrdMap.BatchOp Key DataV}
    (h : op ∈ dataBatch items) : ∃ i ∈ items, op.key = i.key := by
  obtain ⟨i, hi, rfl⟩ := List.mem_map.mp h
  refine ⟨i, hi, ?_⟩
  split <;> rfl

/-- Transactions without a row in common can be applied in either order. -/
theorem applyItems_comm (db : DataDb) {t t' : TransactionT}
    (h : ∀ i ∈ t.item, ∀ j ∈ t'.item, i.key ≠ j.key) :
    applyItems (applyItems db t) t' = applyItems (applyItems db t') t := by
  refine OrdMap.write_comm db ?_
  intro a ha b hb
  obtain ⟨i, hi, hia⟩ := mem_dataBatch_key ha
  obtain ⟨j, hj, hjb⟩ := mem_dataBatch_key hb
  rw [hia, hjb]
  exact h i hi j hj

/-- A row a batch leaves was there before, or is one of the batch. -/
theorem get_applyItems_some {db : DataDb} {t : TransactionT} {k : Key} {v : DataV}
    (h : (applyItems db t).get k = some v) :
    db.get k = some v ∨ ∃ i ∈ t.item, i.key = k := by
  by_cases hk : ∀ op ∈ dataBatch t.item, op.key ≠ k
  · rw [applyItems, OrdMap.get_write_of_not_mem db hk] at h
    exact Or.inl h
  · push Not at hk
    obtain ⟨op, hop, rfl⟩ := hk
    obtain ⟨i, hi, he⟩ := mem_dataBatch_key hop
    exact Or.inr ⟨i, hi, he.symm⟩

/-- Rows of tables leave the fences alone. -/
theorem Fenced.applyItems {db : DataDb} (h : Fenced db) {t : TransactionT}
    (ht : TableRows t.item) : Fenced (applyItems db t) := by
  refine ⟨fun k hk => ?_, fun k v hv hk => ?_⟩
  · rw [Store.applyItems, OrdMap.get_write_of_not_mem]
    · exact h.fence k hk
    · intro op hop he
      obtain ⟨i, hi, hik⟩ := mem_dataBatch_key hop
      have := isFence_of_tableKey (ht i hi)
      rw [← hik, he, hk] at this
      cases this
  · rcases get_applyItems_some hv with hv | ⟨i, hi, rfl⟩
    · exact h.primary k v hv hk
    · have hik := ht i hi
      cases hkey : i.key with
      | primary kt id => exact ⟨id, rfl⟩
      | secondary kt ps =>
        rw [hkey] at hik hk
        exact absurd hk (not_le.mpr hik)

theorem Fenced.logBatch {db : LogDb} (h : Fenced db) (t : TransactionT) (hid : 0 < t.id) :
    Fenced (db.write (logBatch t)) := by
  have hts : ∀ k : Key, k.keytype ≤ kMaxnode → k.keytype ≠ iLognodeTs := fun k hk he => by
    rw [he] at hk
    exact absurd hk (by decide)
  refine ⟨fun k hk => ?_, fun k v hv hk => ?_⟩
  · obtain ⟨kt, hkt, rfl⟩ := (isFence_iff k).mp hk
    have hne : encodePrimaryKey kt 0 ≠ encodePrimaryKey kLognode t.id := by
      intro he
      simp only [encodePrimaryKey, Key.primary.injEq] at he
      omega
    rw [logBatch_other hne]
    · exact h.fence _ hk
    · refine hts _ ?_
      simp only [isFence, encodePrimaryKey, decide_eq_true_iff] at hk
      exact hk.2.2
  · by_cases he : k = encodePrimaryKey kLognode t.id
    · exact ⟨t.id, he ▸ rfl⟩
    · rw [logBatch_other he (hts k hk)] at hv
      exact h.primary k v hv hk

/-! ## What is on disk -/

/-- The databases are in order at log position `n`: the log holds exactly the entries `1 … n` and
    the records are their replay over `base`. -/
structure OnDisk (base : DataDb) (maindb : DataDb) (logdb : LogDb) (n : Nat) : Prop where
  main : Fenced maindb
  log : Fenced logdb
  entries : ∃ f, HoldsEntries logdb f ∧ NumLog.UpTo f n ∧
    maindb = NumLog.replay applyItems f base n

/-- Both writes of a commit take the databases one position further. -/
theorem OnDisk.commit {base maindb : DataDb} {logdb : LogDb} {n : Nat}
    (h : OnDisk base maindb logdb n) {e : TransactionT} (hid : e.id = n + 1)
    (hrows : TableRows e.item) :
    OnDisk base (applyItems maindb e) (logdb.write (logBatch e)) (n + 1) := by
  obtain ⟨f, hf, hup, hdata⟩ := h.entries
  refine ⟨h.main.applyItems hrows, h.log.logBatch e (by omega),
    Function.update f (n + 1) (some e), ?_, hup.update e, ?_⟩
  · rw [← hid]
    exact hf.write e (by omega)
  · rw [NumLog.replay_update_succ, hdata]

/-- A restart of a node whose log may have holes: the log counter is the last id that has an entry,
    the record counter is at or above every record id, and no row changes. -/
theorem workServerInit_last {st : SharedTable} (hmain : Fenced st.maindb)
    (hlog : Fenced st.logdb) {f : NumLog TransactionT} (hf : HoldsEntries st.logdb f)
    (isMaster : Bool) (master : Bytes) :
    ∃ st', workServerInit st isMaster master = .ok st' ∧ st'.maindb = st.maindb ∧
      st'.logdb = st.logdb ∧ st'.isMaster = isMaster ∧ st'.master = master ∧
      NumLog.Below f st'.logcounter ∧
      (st'.logcounter = 0 ∨ ∃ e, f st'.logcounter = some e) ∧
      ∀ kt, kNonode ≤ kt → kt < kLognode → ∀ i,
        (st.maindb.get (encodePrimaryKey kt i)).isSome = true → i ≤ st'.maincounter := by
  obtain ⟨p, l, hopen, hlin, hlmax, hpmax⟩ := storeInitialize_spec
    (fun k v => hmain.primary k v) (fun k v => hlog.primary k v)
  rw [putFences_eq_self _ _ hmain.fence, putFences_eq_self _ _ hlog.fence] at hopen
  rw [putFences_eq_self _ _ hlog.fence] at hlin hlmax
  rw [putFences_eq_self _ _ hmain.fence] at hpmax
  have hl : (reopened st.thisurl st.noXapian isMaster master ⟨st.maindb, st.logdb, p, l⟩).logcounter = l := by
    show (if l > 0 then l else 0) = l
    split <;> omega
  refine ⟨reopened st.thisurl st.noXapian isMaster master ⟨st.maindb, st.logdb, p, l⟩, ?_, rfl, rfl, rfl, rfl,
    ?_, ?_, ?_⟩
  · rw [workServerInit, hopen]
    rfl
  · rw [hl]
    intro i hi
    cases hfi : f i with
    | none => rfl
    | some e =>
      -- an entry beyond the last row
      have hrow := hf.entry i (by omega)
      rw [hfi] at hrow
      have hle := hlmax i (by rw [hrow]; rfl)
      omega
  · rw [hl]
    rcases Nat.eq_zero_or_pos l with h0 | hpos
    · exact Or.inl h0
    · rw [hf.entry l hpos, Option.isSome_map] at hlin
      exact Or.inr (Option.isSome_iff_exists.mp hlin)
  · intro kt h1 h2 i hi
    have := hpmax kt h1 h2 i hi
    show i ≤ if p > 0 then p else 1
    split <;> omega

/-- **A restart** of a node whose log holds exactly the entries `1 … n` finds the log counter where
    the log ends, puts the record counter at or above every record id, and changes no row. -/
theorem workServerInit_spec {st : SharedTable} {n : Nat} (hmain : Fenced st.maindb)
    (hlog : Fenced st.logdb) {f : NumLog TransactionT} (hf : HoldsEntries st.logdb f)
    (hup : NumLog.UpTo f n) (isMaster : Bool) (master : Bytes) :
    ∃ st', workServerInit st isMaster master = .ok st' ∧ st'.maindb = st.maindb ∧
      st'.logdb = st.logdb ∧ st'.logcounter = n ∧ st'.isMaster = isMaster ∧
      ∀ kt, kNonode ≤ kt → kt < kLognode → ∀ i,
        (st.maindb.get (encodePrimaryKey kt i)).isSome = true → i ≤ st'.maincounter := by
  obtain ⟨st', hst', hm, hl, hrole, -, hbelow, hlast, hpmax⟩ :=
    workServerInit_last hmain hlog hf isMaster master
  have hn : st'.logcounter = n := by
    have hle : st'.logcounter ≤ n := by
      rcases hlast with h0 | ⟨e, he⟩
      · omega
      · exact ((hup st'.logcounter).mp (by rw [he]; rfl)).2
    by_contra hne
    have hsome := (hup n).mpr ⟨by omega, le_rfl⟩
    rw [hbelow n (by omega)] at hsome
    cases hsome
  exact ⟨st', hst', hm, hl, hn, hrole, hpmax⟩

/-! ## A new node -/

/-- The record database of a new node. -/
def freshDb : DataDb := putFences .blank OrdMap.empty

/-- The log database of a new node. -/
def freshLog : LogDb := putFences .blank OrdMap.empty

theorem get_freshDb (k : Key) : freshDb.get k = if isFence k then some .blank else none := by
  rw [freshDb, get_putFences]
  rfl

theorem get_freshLog (k : Key) : freshLog.get k = if isFence k then some .blank else none := by
  rw [freshLog, get_putFences]
  rfl

theorem holdsEntries_fresh : HoldsEntries freshLog (fun _ => none) := by
  refine ⟨by rw [get_freshLog]; rfl, fun i hi => ?_, nofun, fun k v hk hkt => ?_⟩
  · have : i ≠ 0 := Nat.ne_of_gt hi
    rw [get_freshLog]
    simp [isFence, encodePrimaryKey, this]
  · rw [get_freshLog] at hk
    split at hk
    · rename_i hfence
      obtain ⟨kt, -, rfl⟩ := (isFence_iff k).mp hfence
      exact ⟨0, by rw [show kt = kLognode from hkt]⟩
    · cases hk

/-- A new node is in order at the start of the log. -/
theorem onDisk_fresh : OnDisk freshDb freshDb freshLog 0 := by
  have hrows : ∀ (V : Type) (k : Key) (v : V), (OrdMap.empty : OrdMap Key V).get k = some v →
      k.keytype ≤ kMaxnode → ∃ id, k = .primary k.keytype id := nofun
  exact ⟨fenced_putFences DataV.blank (hrows DataV), fenced_putFences LogV.blank (hrows LogV),
    fun _ => none, holdsEntries_fresh, NumLog.upTo_blank (fun _ => rfl), rfl⟩

end Zapdos.Store
