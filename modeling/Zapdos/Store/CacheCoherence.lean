/-
  Reads and commits in parallel — the cache of users, exters, tags and categories.

  A `Get` looks into the cache, on a miss reads the table, and then fills the cache; a commit writes
  its batch and then drops the copies of its records one by one.  Each of these is one atomic step,
  and the steps of all readers and commits come in any order.

  The data writes are numbered, and the records after each of them are kept, so that the age of what
  a `Get` returns can be stated.

  THE CRUX.  A copy in the cache may be old only as long as every newer commit of its record has
  still to drop it (`Pending`).  Writes and drops keep this by themselves.  A fill does not: it may
  put back a copy that was read before a commit which has done its drop already.
-/
import Mathlib.Logic.Function.Basic
import Zapdos.Lib.Runs
import Zapdos.Store.CredCache

namespace Zapdos.Store

open Zapdos.Lib

namespace CacheCoherence

/-! ## The four `Get` functions, step by step -/

/-- The records of a kind. -/
abbrev Rec (k : GetKind) : Type := k.recKind.Rec

/-- Their table. -/
def table (k : GetKind) : StoreTable (Rec k) := k.recKind.service.table

/-- The index that a `Get` asks. -/
def ukey (k : GetKind) : KeyTypeE := k.recKind.ukey

/-- The key of a record, in the index and in the cache. -/
def key (k : GetKind) (r : Rec k) : Key := k.recKind.service.key r

/-- `Pack` of each service: what the copy in the cache keeps. -/
def pack : (k : GetKind) → Rec k → Rec k
  | .user => userPack
  | .exter => exterPack
  | .tag => TagDataService.pack
  | .category => CategoryService.pack

/-- What `Get` makes of a record it has found: users and exters get their key type. -/
def found : (k : GetKind) → Rec k → Rec k
  | .user => fun r => { (r : UserDataT) with keytype := kUserdata }
  | .exter => fun r => { (r : ExterDataT) with keytype := kExterdata }
  | .tag => id
  | .category => id

/-- What `Get` makes of a request it finds nothing for. -/
def missing : (k : GetKind) → Rec k → Rec k
  | .user => fun r => { (r : UserDataT) with notfound := true }
  | .exter => fun r => { (r : ExterDataT) with notfound := true }
  | .tag => fun r => { (r : TagDataT) with notfound := true }
  | .category => fun r => { (r : CategoryT) with notfound := true }

/-- First step: the cache. -/
def lookup (k : GetKind) (st : SharedTable) (q : Rec k) : Option (Rec k) :=
  match st.dbcache.get (key k q) with
  | none => none
  | some (.packed v) => some (((table k).parse v).elim (missing k q) (found k))
  | some (.tsText _) => some (missing k q)

/-- Second step, on a miss: the table. -/
def dbRead (k : GetKind) (st : SharedTable) (q : Rec k) : Except Exc (Bool × Rec k) :=
  (table k).getOne st.maindb q (ukey k)

/-- The copy under the key of a record. -/
def setCopy (k : GetKind) (r : Rec k) (dbcache : OrdMap Key CacheV) : OrdMap Key CacheV :=
  CacheContainer.setAssoc dbcache (key k r) (.packed ((table k).serialize (pack k r))) false

/-- Third step, if the table has the record: fill the cache; the categories of a user go there
    too. -/
def fill : (k : GetKind) → Rec k → OrdMap Key CacheV → OrdMap Key CacheV
  | .user => fun r dbcache =>
    (r : UserDataT).categories.foldl (fun c category => CacheContainer.setAssoc c
        (.secondary fUserdataNameCategory [.text (r : UserDataT).name, .text category])
        (.tsText (r : UserDataT).updatedAt) false)
      (setCopy .user r dbcache)
  | k => setCopy k

/-- The three steps in a row. -/
def get (k : GetKind) (st : SharedTable) (q : Rec k) : Except Exc (Rec k × SharedTable) :=
  match lookup k st q with
  | some r => .ok (r, st)
  | none => do
    let (isFound, r) ← dbRead k st q
    if isFound then pure (found k r, { st with dbcache := fill k r st.dbcache })
    else pure (missing k r, st)

/-- The steps of a user request are those of `UserCredService::Get`. -/
theorem get_user : get .user = userCredGet := by
  funext st q
  unfold get lookup userCredGet credGet
  have hkey : key .user q = encodeSecondaryKey uUserdataName (UserDataT.name q) := rfl
  rw [hkey]
  cases st.dbcache.get (encodeSecondaryKey uUserdataName (UserDataT.name q)) with
  | none => rfl
  | some v =>
    cases v with
    | tsText ts => rfl
    | packed v => cases v <;> rfl

/-- The steps of an exter request are those of `ExterCredService::Get`. -/
theorem get_exter : get .exter = exterCredGet := by
  funext st q
  unfold get lookup exterCredGet credGet
  have hkey : key .exter q = encodeSecondaryKey uExterdataName (UserDataT.name q) := rfl
  rw [hkey]
  cases st.dbcache.get (encodeSecondaryKey uExterdataName (UserDataT.name q)) with
  | none => rfl
  | some v =>
    cases v with
    | tsText ts => rfl
    | packed v => cases v <;> rfl

/-- The steps of a tag request are those of `TagDataService::Get`. -/
theorem get_tag : get .tag = TagDataService.get := by
  funext st q
  unfold get lookup TagDataService.get
  have hkey : key .tag q =
      encodeSecondaryKeyNum uTagdataKeytypeName (TagDataT.keytype q) (TagDataT.name q) := rfl
  rw [hkey]
  simp only
  cases st.dbcache.get
    (encodeSecondaryKeyNum uTagdataKeytypeName (TagDataT.keytype q) (TagDataT.name q)) with
  | none => rfl
  | some v =>
    cases v with
    | tsText ts => rfl
    | packed v => cases v <;> rfl

/-- The steps of a category request are those of `CategoryService::Get`. -/
theorem get_category : get .category = CategoryService.get := by
  funext st q
  unfold get lookup CategoryService.get
  have hkey : key .category q = encodeSecondaryKey uCategoryName (CategoryT.name q) := rfl
  rw [hkey]
  cases st.dbcache.get (encodeSecondaryKey uCategoryName (CategoryT.name q)) with
  | none => rfl
  | some v =>
    cases v with
    | tsText ts => rfl
    | packed v => cases v <;> rfl

/-! ## The machine -/

/-- A commit that has written its batch. -/
structure Commit where
  /-- the number of its data write -/
  index : Nat
  /-- the keys of its records -/
  records : List Key
  /-- the copies it has still to drop -/
  todo : List Key

/-- A `Get` on its way; `since` is the newest commit of the record that had returned when it
    started. -/
inductive Reader
  | missed (k : GetKind) (q : Rec k) (since : Nat)
  /-- the record, and the data write after which it was read -/
  | read (k : GetKind) (q r : Rec k) (since index : Nat)

/-- A `Get` that has returned. -/
structure Result where
  kind : GetKind
  query : Rec kind
  since : Nat
  value : Rec kind

/-- The node, the records as they were at each time, and who is on the way. -/
structure State where
  st : SharedTable
  /-- the number of data writes -/
  now : Nat := 0
  /-- the records after each of them -/
  dbs : Nat → DataDb
  readers : Nat → Option Reader := fun _ => none
  commits : List Commit := []
  results : List Result := []

inductive Label
  /-- reader `i` starts with a look into the cache -/
  | start (i : Nat) (k : GetKind) (q : Rec k)
  /-- reader `i` reads the table -/
  | read (i : Nat)
  /-- reader `i` fills the cache -/
  | fill (i : Nat)
  /-- a commit writes the rows of these records -/
  | write (rk : RecKind) (cs : List (Change rk.Rec))
  /-- the commit at this place in the list drops its next copy -/
  | drop (j : Nat)

/-- The newest commit of a record that has returned. -/
def returned (commits : List Commit) (key : Key) : Nat :=
  ((commits.filter fun c => c.todo = [] ∧ key ∈ c.records).map Commit.index).foldr max 0

instance {T : Type} (t : StoreTable T) (u : KeyTypeE) (db : DataDb) (c : Change T) :
    Decidable (StoreTable.Fits t u db c) :=
  decidable_of_iff
    (if c.found then
      ((t.find db (t.getKey c.record u)).any fun old => t.id c.record = t.id old) = true
    else
      t.id c.record ≠ 0 ∧ db.get (encodePrimaryKey t.primaryKey (t.id c.record)) = none ∧
        db.get (t.getKey c.record u) = none)
    (by
      rw [StoreTable.Fits]
      split
      · simp [Option.any_eq_true]
      · rfl)

instance {T : Type} (t : StoreTable T) (u : KeyTypeE) :
    DecidableRel (StoreTable.Apart t u) := fun _ _ => instDecidableAnd

/-- The data write of a commit: `CommitData`, for the rows of records that fit.

    `CommitData` does not look at what it writes.  The guard says what the requests that reach it have
    collected (`Requests.Collected` is kept by every run of them): a change of a stored record keeps
    its id and name (`Fits`), a new record brings an id and a name that are free (`Fits`), and no two
    changes of a batch have an id or a name in common (`Apart`). -/
def write (s : State) (rk : RecKind) (cs : List (Change rk.Rec)) : Option State :=
  if (∀ c ∈ cs, StoreTable.Fits rk.service.table rk.service.ukey s.st.maindb c) ∧
      cs.Pairwise (StoreTable.Apart rk.service.table rk.service.ukey) then
    let items := cs.flatMap (rk.service.table.rows rk.service.ukey)
    let st := (commitData s.st { item := items } true).1
    some { s with
      st := st
      now := s.now + 1
      dbs := Function.update s.dbs (s.now + 1) st.maindb
      commits := ⟨s.now + 1, cs.map fun c => rk.service.key c.record, items.filterMap cacheKeyOf⟩ ::
        s.commits }
  else none

/-- A step of the machine; a step that is not possible gives nothing. -/
def step (s : State) : Label → Option State
  | .start i k q =>
    match s.readers i with
    | some _ => none
    | none =>
      let since := returned s.commits (key k q)
      match lookup k s.st q with
      | some r => some { s with results := ⟨k, q, since, r⟩ :: s.results }
      | none => some { s with readers := Function.update s.readers i (some (.missed k q since)) }
  | .read i =>
    match s.readers i with
    | some (.missed k q since) =>
      match dbRead k s.st q with
      | .error _ => some { s with readers := Function.update s.readers i none }
      | .ok (true, r) =>
        some { s with readers := Function.update s.readers i (some (.read k q r since s.now)) }
      | .ok (false, r) =>
        some { s with
          readers := Function.update s.readers i none
          results := ⟨k, q, since, missing k r⟩ :: s.results }
    | _ => none
  | .fill i =>
    match s.readers i with
    | some (.read k q r since _) =>
      some { s with
        st := { s.st with dbcache := fill k r s.st.dbcache }
        readers := Function.update s.readers i none
        results := ⟨k, q, since, found k r⟩ :: s.results }
    | _ => none
  | .write rk cs => write s rk cs
  | .drop j =>
    match s.commits[j]? with
    | some ⟨index, records, copy :: todo⟩ =>
      some { s with
        st := { s.st with dbcache := CacheContainer.delAssoc s.st.dbcache copy }
        commits := s.commits.set j ⟨index, records, todo⟩ }
    | _ => none

/-- Runs start with sound copies only, no reader and no commit on its way. -/
def machine : Machine State Label where
  init s := StoreOk s.st.maindb ∧ s.now = 0 ∧ s.dbs 0 = s.st.maindb ∧
    (∀ i, s.readers i = none) ∧ s.commits = [] ∧ s.results = [] ∧
    ∀ (k : GetKind) (hash : Key) (v : CacheV), hash.keytype = ukey k →
      s.st.dbcache.get hash = some v →
        ∃ r, (table k).find s.st.maindb hash = some r ∧
          v = .packed ((table k).serialize (pack k r))
  step := step

/-- What a `Get` may return when the records are `db`: the record or its copy. -/
def Shows (k : GetKind) (db : DataDb) (q v : Rec k) : Prop :=
  match (table k).find db (key k q) with
  | none => v = missing k q
  | some r => v = found k r ∨ v = found k (pack k r)

/-- **Coherence**: every `Get` has returned the values of the newest commit of its record that had
    returned when it started, or later ones. -/
def Coherent (s : State) : Prop :=
  ∀ res ∈ s.results, ∃ n, res.since ≤ n ∧ n ≤ s.now ∧ Shows res.kind (s.dbs n) res.query res.value

/-- All commits of this key after data write `n` have still to drop the copy. -/
def Pending (commits : List Commit) (n : Nat) (hash : Key) : Prop :=
  ∀ c ∈ commits, n < c.index → hash ∈ c.records → hash ∈ c.todo

/-- A reader fills the cache only while all commits of the record since its read have still to drop
    the copy. -/
def FillsInTime (s : State) : Label → Prop
  | .fill i => ∀ k q r since index, s.readers i = some (.read k q r since index) →
      Pending s.commits index (key k q)
  | _ => True

/-! ## The invariant -/

/-- Each kind is read through its one unique index. -/
theorem singleKey (k : GetKind) : (table k).SingleKey (ukey k) := k.recKind.service_lawful.single

/-- The key of a record is one of its index. -/
theorem key_keytype (k : GetKind) (r : Rec k) : (key k r).keytype = ukey k :=
  (singleKey k).keytype_ukey r

/-- The kinds have different indices. -/
theorem ukey_inj {k k' : GetKind} (h : ukey k = ukey k') : k = k' := by
  cases k <;> cases k' <;> first | rfl | exact absurd h (by decide)

/-- The records that a stored copy is made of, and its age. -/
def CopyOf (s : State) (k : GetKind) (hash : Key) (v : CacheV) : Prop :=
  ∃ n r, n ≤ s.now ∧ (table k).find (s.dbs n) hash = some r ∧
    v = .packed ((table k).serialize (pack k r)) ∧ Pending s.commits n hash

/-- What holds of a reader on its way. -/
def ReaderOk (s : State) : Reader → Prop
  | .missed _ _ since => since ≤ s.now
  | .read k q r since index =>
    since ≤ index ∧ index ≤ s.now ∧ (table k).find (s.dbs index) (key k q) = some r

/-- **The invariant.** -/
structure Inv (s : State) : Prop where
  tables : ∀ n, n ≤ s.now → StoreOk (s.dbs n)
  last : s.dbs s.now = s.st.maindb
  commits : ∀ c ∈ s.commits, c.index ≤ s.now
  copies : ∀ (k : GetKind) (hash : Key) (v : CacheV), hash.keytype = ukey k →
    s.st.dbcache.get hash = some v → CopyOf s k hash v
  readers : ∀ i rd, s.readers i = some rd → ReaderOk s rd
  results : Coherent s

/-- A bound for the newest commit that has returned. -/
theorem returned_le {commits : List Commit} {hash : Key} {n : Nat}
    (h : ∀ c ∈ commits, c.todo = [] → hash ∈ c.records → c.index ≤ n) :
    returned commits hash ≤ n := by
  have hfold : ∀ l : List Nat, (∀ i ∈ l, i ≤ n) → l.foldr max 0 ≤ n := by
    intro l hl
    induction l with
    | nil => exact Nat.zero_le n
    | cons i l ih =>
      obtain ⟨hi, hl⟩ := List.forall_mem_cons.mp hl
      exact max_le hi (ih hl)
  refine hfold _ fun i hi => ?_
  obtain ⟨c, hc, rfl⟩ := List.mem_map.mp hi
  obtain ⟨hmem, hdone⟩ := List.mem_filter.mp hc
  obtain ⟨htodo, hrec⟩ := of_decide_eq_true hdone
  exact h c hmem htodo hrec

/-- The commits that have returned are past. -/
theorem Inv.returned_le_now {s : State} (h : Inv s) (hash : Key) : returned s.commits hash ≤ s.now :=
  returned_le fun c hc _ _ => h.commits c hc

/-- **A copy that is still pending is as new as every commit that has returned.** -/
theorem Pending.returned_le {commits : List Commit} {n : Nat} {hash : Key}
    (h : Pending commits n hash) : returned commits hash ≤ n := by
  refine CacheCoherence.returned_le fun c hc htodo hrec => ?_
  by_contra hlt
  have hmem := h c hc (by omega) hrec
  rw [htodo] at hmem
  cases hmem

/-- A state that only adds data writes keeps what readers and results are about. -/
theorem ReaderOk.congr {s s' : State} {rd : Reader} (h : ReaderOk s rd) (hnow : s.now ≤ s'.now)
    (hdbs : ∀ n, n ≤ s.now → s'.dbs n = s.dbs n) : ReaderOk s' rd := by
  cases rd with
  | missed k q since => exact Nat.le_trans h hnow
  | read k q r since index =>
    obtain ⟨h1, h2, h3⟩ := h
    exact ⟨h1, h2.trans hnow, by rw [hdbs index h2, h3]⟩

/-- A copy stays one of a record that can be shown. -/
theorem CopyOf.congr {s s' : State} {k : GetKind} {hash : Key} {v : CacheV} (h : CopyOf s k hash v)
    (hnow : s.now ≤ s'.now) (hdbs : ∀ n, n ≤ s.now → s'.dbs n = s.dbs n)
    (hpend : ∀ n, n ≤ s.now → Pending s.commits n hash → Pending s'.commits n hash) :
    CopyOf s' k hash v := by
  obtain ⟨n, r, hn, hfind, hv, hp⟩ := h
  exact ⟨n, r, hn.trans hnow, by rw [hdbs n hn, hfind], hv, hpend n hn hp⟩

/-- What the fill of one record leaves under the keys of cached records. -/
theorem get_fill (k k' : GetKind) (r : Rec k) (dbcache : OrdMap Key CacheV) {hash : Key}
    (hk : hash.keytype = ukey k') :
    (fill k r dbcache).get hash =
      if hash = key k r then some (.packed ((table k).serialize (pack k r)))
      else dbcache.get hash := by
  have hset : (setCopy k r dbcache).get hash =
      if hash = key k r then some (.packed ((table k).serialize (pack k r)))
      else dbcache.get hash := CacheContainer.get_setAssoc _ _ _ _
  cases k with
  | exter => exact hset
  | tag => exact hset
  | category => exact hset
  | user =>
    refine (get_categories_fill _ _ _ _ ?_).trans hset
    rw [hk]
    cases k' <;> decide

/-- A hit returns what a sound copy holds. -/
theorem lookup_copy {s : State} {k : GetKind} {q v : Rec k} (h : Inv s)
    (hv : lookup k s.st q = some v) :
    ∃ n, returned s.commits (key k q) ≤ n ∧ n ≤ s.now ∧ Shows k (s.dbs n) q v := by
  rw [lookup] at hv
  cases hget : s.st.dbcache.get (key k q) with
  | none =>
    rw [hget] at hv
    cases hv
  | some c =>
    obtain ⟨n, r, hn, hfind, rfl, hp⟩ := h.copies k _ c (key_keytype k q) hget
    rw [hget] at hv
    simp only [(singleKey k).parse_serialize, Option.elim_some, Option.some.injEq] at hv
    refine ⟨n, hp.returned_le, hn, ?_⟩
    rw [Shows, hfind]
    exact Or.inr hv.symm

/-- The invariant holds at the start. -/
theorem inv_init {s : State} (h : machine.init s) : Inv s := by
  obtain ⟨hok, hnow, hdbs, hreaders, hcommits, hresults, hcache⟩ := h
  refine ⟨fun n hn => ?_, ?_, ?_, fun k hash v hk hv => ?_, fun i rd hrd => ?_, ?_⟩
  · rw [hnow, Nat.le_zero] at hn
    rw [hn, hdbs]
    exact hok
  · rw [hnow, hdbs]
  · rw [hcommits]
    intro c hc
    cases hc
  · obtain ⟨r, hr, hv⟩ := hcache k hash v hk hv
    refine ⟨0, r, Nat.zero_le _, by rw [hdbs, hr], hv, ?_⟩
    rw [hcommits]
    intro c hc
    cases hc
  · rw [hreaders] at hrd
    cases hrd
  · rw [Coherent, hresults]
    intro res hres
    cases hres

/-! ## One step -/

/-- A step that changes only what the readers have got. -/
theorem Inv.of_readers {s : State} (h : Inv s) {readers : Nat → Option Reader}
    (hrd : ∀ i rd, readers i = some rd → ReaderOk s rd) {results : List Result}
    (hres : ∀ r ∈ results, ∃ n, r.since ≤ n ∧ n ≤ s.now ∧ Shows r.kind (s.dbs n) r.query r.value) :
    Inv { s with readers := readers, results := results } where
  tables := h.tables
  last := h.last
  commits := h.commits
  copies k hash v hk hv := (h.copies k hash v hk hv).congr le_rfl (fun _ _ => rfl) fun _ _ hp => hp
  readers i rd hi := (hrd i rd hi).congr le_rfl fun _ _ => rfl
  results := hres

/-- A reader goes on to its next step. -/
theorem Inv.of_reader {s : State} (h : Inv s) (i : Nat) (rd : Reader) (hrd : ReaderOk s rd) :
    Inv { s with readers := Function.update s.readers i (some rd) } := by
  refine h.of_readers (fun j rd' hj => ?_) h.results
  by_cases hij : j = i
  · subst hij
    rw [Function.update_self, Option.some.injEq] at hj
    exact hj ▸ hrd
  · rw [Function.update_of_ne hij] at hj
    exact h.readers j rd' hj

/-- A reader returns. -/
theorem Inv.of_result {s : State} (h : Inv s) (i : Nat) (res : Result)
    (hres : ∃ n, res.since ≤ n ∧ n ≤ s.now ∧ Shows res.kind (s.dbs n) res.query res.value) :
    Inv { s with
      readers := Function.update s.readers i none
      results := res :: s.results } := by
  refine h.of_readers (fun j rd' hj => ?_) (List.forall_mem_cons.mpr ⟨hres, h.results⟩)
  by_cases hij : j = i
  · subst hij
    rw [Function.update_self] at hj
    cases hj
  · rw [Function.update_of_ne hij] at hj
    exact h.readers j rd' hj

/-- A `Get` that reads the table. -/
theorem dbRead_spec {k : GetKind} {st : SharedTable} (hok : StoreOk st.maindb) (q : Rec k) :
    dbRead k st q =
      match (table k).find st.maindb (key k q) with
      | none => .ok (false, q)
      | some r => .ok (true, r) := by
  have hone := (singleKey k).getOne_unique (hok k.recKind) q
  rw [dbRead]
  refine hone.trans ?_
  rw [show (table k).getKey q (ukey k) = key k q from rfl]
  cases (table k).find st.maindb (key k q) <;> rfl

/-- **A look into the cache.** -/
theorem Inv.start {s s' : State} (h : Inv s) {i : Nat} {k : GetKind} {q : Rec k}
    (hs : step s (.start i k q) = some s') : Inv s' := by
  rw [step] at hs
  cases hi : s.readers i with
  | some rd =>
    rw [hi] at hs
    cases hs
  | none =>
    rw [hi] at hs
    simp only at hs
    cases hl : lookup k s.st q with
    | some v =>
      rw [hl] at hs
      cases hs
      have hnew := h.of_result i ⟨k, q, returned s.commits (key k q), v⟩ (lookup_copy h hl)
      have hsame : Function.update s.readers i none = s.readers := by
        rw [← hi, Function.update_eq_self]
      rw [hsame] at hnew
      exact hnew
    | none =>
      rw [hl] at hs
      cases hs
      exact h.of_reader i (.missed k q _) (h.returned_le_now _)

/-- **A read of the table.** -/
theorem Inv.read {s s' : State} (h : Inv s) {i : Nat} (hs : step s (.read i) = some s') :
    Inv s' := by
  rw [step] at hs
  cases hi : s.readers i with
  | none =>
    rw [hi] at hs
    cases hs
  | some rd =>
    rw [hi] at hs
    cases rd with
    | read k q r since index => cases hs
    | missed k q since =>
      have hsince : since ≤ s.now := h.readers i _ hi
      have hok : StoreOk s.st.maindb := h.last ▸ h.tables s.now le_rfl
      simp only [dbRead_spec hok] at hs
      cases hfind : (table k).find s.st.maindb (key k q) with
      | none =>
        rw [hfind] at hs
        cases hs
        refine h.of_result i ⟨k, q, since, missing k q⟩ ⟨s.now, hsince, le_rfl, ?_⟩
        rw [Shows, h.last, hfind]
      | some r =>
        rw [hfind] at hs
        cases hs
        exact h.of_reader i (.read k q r since s.now) ⟨hsince, le_rfl, by rw [h.last, hfind]⟩

/-- **A fill in time.** -/
theorem Inv.fill {s s' : State} (h : Inv s) {i : Nat} (hfresh : FillsInTime s (.fill i))
    (hs : step s (.fill i) = some s') : Inv s' := by
  rw [step] at hs
  cases hi : s.readers i with
  | none =>
    rw [hi] at hs
    cases hs
  | some rd =>
    rw [hi] at hs
    cases rd with
    | missed k q since => cases hs
    | read k q r since index =>
      cases hs
      obtain ⟨hsince, hindex, hfind⟩ := h.readers i _ hi
      have hkey : key k r = key k q :=
        ((singleKey k).find_eq_some (h.tables index hindex k.recKind) (key_keytype k q)).mp hfind |>.1
      have hpend := hfresh k q r since index hi
      have hshows : Shows k (s.dbs index) q (found k r) := by
        rw [Shows, hfind]
        exact Or.inl rfl
      have hnew := h.of_result i ⟨k, q, since, found k r⟩ ⟨index, hsince, hindex, hshows⟩
      refine { hnew with copies := fun k' hash v hk hv => ?_ }
      have hv' : (CacheCoherence.fill k r s.st.dbcache).get hash = some v := hv
      rw [get_fill k k' r _ hk] at hv'
      split at hv'
      · rename_i hhash
        have hkk : k' = k := by
          apply ukey_inj
          rw [← hk, hhash]
          exact key_keytype k r
        subst hkk
        refine ⟨index, r, hindex, ?_, (Option.some.inj hv').symm, ?_⟩
        · rw [hhash, hkey]
          exact hfind
        · rw [hhash, hkey]
          exact hpend
      · exact hnew.copies k' hash v hk hv'

/-- The copies of the records of a commit are among those it drops. -/
theorem mem_dropped {rk : RecKind} (cs : List (Change rk.Rec)) {k : GetKind} {hash : Key}
    (hk : hash.keytype = ukey k) (hmem : hash ∈ cs.map fun c => rk.service.key c.record) :
    hash ∈ (cs.flatMap (rk.service.table.rows rk.service.ukey)).filterMap cacheKeyOf := by
  obtain ⟨c, hc, rfl⟩ := List.mem_map.mp hmem
  have hkind : rk = k.recKind := by
    apply RecKind.ukey_inj
    exact (rk.service_lawful.single.keytype_ukey c.record).symm.trans hk
  subst hkind
  obtain ⟨i, hi, hki⟩ := List.mem_filterMap.mp (k.cacheKeyOf_rows c)
  exact List.mem_filterMap.mpr ⟨i, List.mem_flatMap.mpr ⟨c, hc, hi⟩, hki⟩

/-- What the data write of a commit does. -/
structure Wrote (s s' : State) (rk : RecKind) (cs : List (Change rk.Rec)) : Prop where
  fit : ∀ c ∈ cs, StoreTable.Fits rk.service.table rk.service.ukey s.st.maindb c
  apart : cs.Pairwise (StoreTable.Apart rk.service.table rk.service.ukey)
  now : s'.now = s.now + 1
  maindb : s'.st.maindb =
    s.st.maindb.write (dataBatch (cs.flatMap (rk.service.table.rows rk.service.ukey)))
  dbcache : s'.st.dbcache = s.st.dbcache
  last : s'.dbs (s.now + 1) = s'.st.maindb
  earlier : ∀ n, n ≤ s.now → s'.dbs n = s.dbs n
  commits : s'.commits = ⟨s.now + 1, cs.map fun c => rk.service.key c.record,
    (cs.flatMap (rk.service.table.rows rk.service.ukey)).filterMap cacheKeyOf⟩ :: s.commits
  readers : s'.readers = s.readers
  results : s'.results = s.results

/-- What a write does. -/
theorem wrote_of_step {s s' : State} {rk : RecKind} {cs : List (Change rk.Rec)}
    (hs : step s (.write rk cs) = some s') : Wrote s s' rk cs := by
  rw [step, CacheCoherence.write] at hs
  split at hs
  · rename_i hguard
    obtain ⟨hfit, hap⟩ := hguard
    cases hs
    refine ⟨hfit, hap, rfl, ?_, ?_, Function.update_self .., fun n hn => ?_, rfl, rfl, rfl⟩
    · by_cases hnil : cs.flatMap (rk.service.table.rows rk.service.ukey) = []
      · simp [commitData, hnil, dataBatch, OrdMap.write]
      · simp [commitData, hnil]
    · by_cases hnil : cs.flatMap (rk.service.table.rows rk.service.ukey) = []
      · simp [commitData, hnil]
      · simp [commitData, hnil]
    · exact Function.update_of_ne (by omega) _ _
  · cases hs

/-- **A write**: the copies of what it writes are still to be dropped. -/
theorem Inv.write {s s' : State} (h : Inv s) {rk : RecKind} {cs : List (Change rk.Rec)}
    (hs : step s (.write rk cs) = some s') : Inv s' := by
  have hw := wrote_of_step hs
  have hok : StoreOk s.st.maindb := h.last ▸ h.tables s.now le_rfl
  have hnow : s.now ≤ s'.now := by
    rw [hw.now]
    exact Nat.le_succ _
  refine ⟨fun n hn => ?_, ?_, fun c hc => ?_, fun k hash v hk hv => ?_, fun i rd hrd => ?_,
    fun res hres => ?_⟩
  · rw [hw.now] at hn
    rcases Nat.lt_or_eq_of_le hn with hlt | heq
    · rw [hw.earlier n (by omega)]
      exact h.tables n (by omega)
    · rw [heq, hw.last, hw.maindb]
      exact hok.write hw.fit hw.apart
  · rw [hw.now]
    exact hw.last
  · rw [hw.commits] at hc
    rcases List.mem_cons.mp hc with rfl | hc
    · rw [hw.now]
    · exact (h.commits c hc).trans hnow
  · rw [hw.dbcache] at hv
    refine (h.copies k hash v hk hv).congr hnow hw.earlier fun n hn hp c hc hlt hrec => ?_
    rw [hw.commits] at hc
    rcases List.mem_cons.mp hc with rfl | hc
    · -- the new commit has all its copies still to drop
      exact mem_dropped cs hk hrec
    · exact hp c hc hlt hrec
  · rw [hw.readers] at hrd
    exact (h.readers i rd hrd).congr hnow hw.earlier
  · rw [hw.results] at hres
    obtain ⟨n, h1, h2, h3⟩ := h.results res hres
    refine ⟨n, h1, h2.trans hnow, ?_⟩
    rw [hw.earlier n h2]
    exact h3

/-- **A copy is dropped.** -/
theorem Inv.drop {s s' : State} (h : Inv s) {j : Nat} (hs : step s (.drop j) = some s') :
    Inv s' := by
  rw [step] at hs
  split at hs
  · rename_i index records copy todo hj
    cases hs
    have hmem : ∀ c ∈ s.commits.set j ⟨index, records, todo⟩,
        c = ⟨index, records, todo⟩ ∨ c ∈ s.commits := fun c hc => (List.mem_or_eq_of_mem_set hc).symm
    have hold : (⟨index, records, copy :: todo⟩ : Commit) ∈ s.commits :=
      List.mem_of_getElem? hj
    refine ⟨h.tables, h.last, fun c hc => ?_, fun k hash v hk hv => ?_, fun i rd hrd => ?_,
      h.results⟩
    · rcases hmem c hc with rfl | hc
      · exact (show index ≤ s.now from h.commits _ hold)
      · exact h.commits c hc
    · have hv' : (s.st.dbcache.delete copy).get hash = some v := hv
      rw [OrdMap.get_delete] at hv'
      split at hv'
      · cases hv'
      · rename_i hne
        refine (h.copies k hash v hk hv').congr le_rfl (fun _ _ => rfl) fun n _ hp c hc hlt hrec => ?_
        rcases hmem c hc with rfl | hc
        · -- the copy under `hash` is not the one that was dropped
          rcases List.mem_cons.mp (hp _ hold hlt hrec) with heq | hrest
          · exact absurd heq hne
          · exact hrest
        · exact hp c hc hlt hrec
    · exact (h.readers i rd hrd).congr le_rfl fun _ _ => rfl
  · cases hs

/-- **The step lemma.** -/
theorem Inv.step {s s' : State} (h : Inv s) {l : Label} (hl : FillsInTime s l)
    (hs : machine.step s l = some s') : Inv s' := by
  cases l with
  | start i k q => exact h.start hs
  | read i => exact h.read hs
  | fill i => exact h.fill hl hs
  | write rk cs => exact h.write hs
  | drop j => exact h.drop hs

/-- A user with this passkey. -/
def bob (passkey : Bytes) : UserDataT := { id := 2, name := str "bob", passkey := passkey }

/-- Only the user is stored. -/
def bobState : State where
  st := { maindb := OrdMap.empty.write
            (dataBatch (userDataTable.rows uUserdataName ⟨false, bob (str "old")⟩)) }
  dbs _ := OrdMap.empty.write
    (dataBatch (userDataTable.rows uUserdataName ⟨false, bob (str "old")⟩))

/-- It is a start of the machine. -/
theorem bobState_init : machine.init bobState := by
  have hok : StoreOk bobState.st.maindb :=
    @StoreOk.write _ storeOk_empty .user [⟨false, bob (str "old")⟩]
      (List.forall_mem_singleton.mpr ⟨by decide, rfl, rfl⟩) (List.pairwise_singleton _ _)
  exact ⟨hok, rfl, rfl, fun _ => rfl, rfl, rfl, fun _ _ _ _ h => (nomatch h)⟩

/-- A commit of the user with a new passkey. -/
def writeBob : Label := .write .user [⟨true, bob (str "new")⟩]

/-- What a `Get` of `bob` asks for. -/
def askBob : UserDataT := { name := str "bob" }

/-- The passkeys that the user requests have returned, the last first. -/
def passkeys (s : State) : List Bytes :=
  s.results.map fun res => match res with
    | ⟨.user, _, _, value⟩ => (value : UserDataT).passkey
    | _ => []

/-- In time: the reader fills the cache before the commit drops the copy. -/
def inTime : List Label := [.start 0 .user askBob, .read 0, writeBob, .fill 0, .drop 0,
  .start 1 .user askBob]

/-- Each fill of this run comes in time. -/
theorem inTime_ok : machine.StepsOk FillsInTime bobState inTime := by
  refine ⟨trivial, fun s1 h1 => ⟨trivial, fun s2 h2 => ⟨trivial, fun s3 h3 => ⟨?_, fun s4 h4 =>
    ⟨trivial, fun s5 h5 => ⟨trivial, fun s6 h6 => trivial⟩⟩⟩⟩⟩⟩
  cases h1
  cases h2
  cases h3
  intro k q r since index hread c hc hlt hrec
  cases hread
  rcases List.mem_singleton.mp hc with rfl
  exact @mem_dropped .user [⟨true, bob (str "new")⟩] .user _ rfl hrec

/-- Too late: the reader fills the cache after the commit has dropped the copy. -/
def tooLate : List Label := [.start 0 .user askBob, .read 0, writeBob, .drop 0, .fill 0,
  .start 1 .user askBob]

end CacheCoherence

end Zapdos.Store
