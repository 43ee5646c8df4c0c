/-
  The categories of users in the cache — a `Get` that fills them in one by one.

  A `Get` of a user sets the copy first and then one entry for each category, each under the lock of
  the cache by itself.  Commits, other `Get` functions and the steps of the same kind come in between,
  in any order.

  THE CRUX.  Commits drop the copy of a user, never the entries.  What keeps the entries right is the
  copy: as long as no commit of the user is awaited, whatever is filled in is of the stored record
  (`stored_of_pending`), and a copy in the cache has all its entries, but for those that the `Get`
  which set it has still to set (`Cover`).
-/
import Zapdos.Store.CacheCoherence
import Zapdos.Store.ItemRead

namespace Zapdos.Store

open Zapdos.Lib

namespace CategoryEntries

open CacheCoherence (Commit FillsInTime Pending Reader Rec Result Shows Wrote found key key_keytype
  lookup mem_dropped pack returned setCopy singleKey ukey ukey_inj wrote_of_step)

/-! ## The machine -/

/-- The key of a user, in the index and in the cache. -/
abbrev userKey (name : Bytes) : Key := encodeSecondaryKey uUserdataName name

/-- The user stored under a name. -/
def storedUser (db : DataDb) (name : Bytes) : Option UserDataT :=
  userDataTable.find db (userKey name)

/-- A `Get` of a user that has set the copy of the record, with the categories it has still to set. -/
structure Filling where
  query : UserDataT
  record : UserDataT
  since : Nat
  index : Nat
  rest : List Bytes

/-- The cache machine, and the `Get` functions that are setting entries. -/
structure State where
  base : CacheCoherence.State
  filling : Nat → Option Filling := fun _ => none

/-- The steps: a thread is a reader, and each call on the cache is one. -/
inductive Label
  /-- a step of the cache machine; the fill of a user sets the copy only -/
  | base (l : CacheCoherence.Label)
  /-- reader `i` sets its next entry -/
  | entry (i : Nat)
  /-- reader `i` has set all of them and returns -/
  | finish (i : Nat)

/-- No user is written as an admin; no request sets the flag of a user. -/
def NoAdmin : CacheCoherence.Label → Prop
  | .write .user cs => ∀ c ∈ cs, UserDataT.isAdmin (Change.record c) = false
  | _ => True

instance (l : CacheCoherence.Label) : Decidable (NoAdmin l) := by
  unfold NoAdmin
  split <;> infer_instance

/-- A step of the cache machine. -/
def stepBase (s : State) (l : CacheCoherence.Label) : Option State :=
  (CacheCoherence.step s.base l).map fun b => { s with base := b }

/-- A reader looks into the cache; one that is setting entries is not idle. -/
def start (s : State) (i : Nat) (k : GetKind) (q : Rec k) : Option State :=
  match s.filling i with
  | some _ => none
  | none => stepBase s (.start i k q)

/-- The copy is set; of a user there are entries to follow. -/
def fill (s : State) (i : Nat) : Option State :=
  match s.base.readers i with
  | some (.read .user q r since index) =>
    some
      { base := { s.base with
          st := { s.base.st with dbcache := setCopy .user r s.base.st.dbcache }
          readers := Function.update s.base.readers i none }
        filling := Function.update s.filling i
          (some ⟨q, r, since, index, UserDataT.categories r⟩) }
  | _ => stepBase s (.fill i)

/-- `SetAssoc` of the next category, under the stamp of the record that was read. -/
def entry (s : State) (i : Nat) : Option State :=
  match s.filling i with
  | some ⟨q, r, since, index, category :: rest⟩ =>
    some
      { base := { s.base with
          st := { s.base.st with
            dbcache := CacheContainer.setAssoc s.base.st.dbcache (categoryKey r.name category)
              (.tsText r.updatedAt) false } }
        filling := Function.update s.filling i (some ⟨q, r, since, index, rest⟩) }
  | _ => none

/-- All entries are set: `Get` returns the record. -/
def finish (s : State) (i : Nat) : Option State :=
  match s.filling i with
  | some ⟨q, r, since, _, []⟩ =>
    some
      { base := { s.base with results := ⟨.user, q, since, found .user r⟩ :: s.base.results }
        filling := Function.update s.filling i none }
  | _ => none

/-- A step of the machine. -/
def step (s : State) : Label → Option State
  | .base (.start i k q) => start s i k q
  | .base (.fill i) => fill s i
  | .base l => if NoAdmin l then stepBase s l else none
  | .entry i => entry s i
  | .finish i => finish s i

/-- Runs start from records in order and an empty cache, without admins among the users. -/
def machine : Machine State Label where
  init s := CacheCoherence.machine.init s.base ∧ s.base.st.dbcache = OrdMap.empty ∧
    (∀ name r, storedUser s.base.st.maindb name = some r → r.isAdmin = false) ∧
    ∀ i, s.filling i = none
  step := step

/-! ## Commits -/

/-- What becomes of commits: they drop copies, and others come. -/
def Goes (commits commits' : List Commit) : Prop :=
  ∀ c ∈ commits, ∃ c' ∈ commits', c'.index = c.index ∧ c'.records = c.records ∧ c'.todo ⊆ c.todo

/-- No commit goes on. -/
theorem Goes.refl (commits : List Commit) : Goes commits commits :=
  fun c hc => ⟨c, hc, rfl, rfl, List.Subset.refl _⟩

/-- Another commit comes. -/
theorem goes_cons (c : Commit) (commits : List Commit) : Goes commits (c :: commits) :=
  fun c' hc' => ⟨c', List.mem_cons_of_mem _ hc', rfl, rfl, List.Subset.refl _⟩

/-- A commit drops its next copy. -/
theorem goes_set {commits : List Commit} {j index : Nat} {records todo : List Key} {copy : Key}
    (hj : commits[j]? = some ⟨index, records, copy :: todo⟩) :
    Goes commits (commits.set j ⟨index, records, todo⟩) := by
  intro c hc
  obtain ⟨i, hi⟩ := List.mem_iff_getElem?.mp hc
  by_cases hij : i = j
  · -- the commit that drops the copy
    subst hij
    have hce : c = ⟨index, records, copy :: todo⟩ := Option.some.inj (hi.symm.trans hj)
    subst hce
    refine ⟨⟨index, records, todo⟩, List.mem_iff_getElem?.mpr ⟨i, ?_⟩, rfl, rfl,
      List.subset_cons_self _ _⟩
    exact List.getElem?_set_self (List.getElem?_eq_some_iff.mp hj).1
  · refine ⟨c, List.mem_iff_getElem?.mpr ⟨i, ?_⟩, rfl, rfl, List.Subset.refl _⟩
    rw [List.getElem?_set_ne (Ne.symm hij)]
    exact hi

/-- The commit of this number has dropped the copy; number 0 is the start. -/
def Dropped (commits : List Commit) (hash : Key) (since : Nat) : Prop :=
  since = 0 ∨ ∃ c ∈ commits, c.index = since ∧ hash ∈ c.records ∧ hash ∉ c.todo

/-- No commit of the record has come after this one. -/
def Last (commits : List Commit) (hash : Key) (since : Nat) : Prop :=
  ∀ c ∈ commits, hash ∈ c.records → c.index ≤ since

/-- The last commit of the record has dropped the copy. -/
def Settled (commits : List Commit) (hash : Key) : Prop :=
  ∃ since, Dropped commits hash since ∧ Last commits hash since

/-- A copy that was dropped stays dropped. -/
theorem Dropped.goes {commits commits' : List Commit} (hgo : Goes commits commits') {hash : Key}
    {since : Nat} (h : Dropped commits hash since) : Dropped commits' hash since := by
  rcases h with h | ⟨c, hc, hindex, hrec, htodo⟩
  · exact Or.inl h
  · obtain ⟨c', hc', hindex', hrec', hsub⟩ := hgo c hc
    exact Or.inr ⟨c', hc', hindex'.trans hindex, hrec' ▸ hrec, fun hmem => htodo (hsub hmem)⟩

/-- The last commit of a record was the last one before. -/
theorem Last.goes {commits commits' : List Commit} (hgo : Goes commits commits') {hash : Key}
    {since : Nat} (h : Last commits' hash since) : Last commits hash since := by
  intro c hc hrec
  obtain ⟨c', hc', hindex, hrec', -⟩ := hgo c hc
  have hle := h c' hc' (hrec' ▸ hrec)
  rwa [hindex] at hle

/-- The newest commit that has returned has dropped its copies. -/
theorem dropped_returned (commits : List Commit) (hash : Key) :
    Dropped commits hash (returned commits hash) := by
  have hfold : ∀ l : List Nat, l.foldr max 0 = 0 ∨ l.foldr max 0 ∈ l := by
    intro l
    induction l with
    | nil => exact Or.inl rfl
    | cons n l ih =>
      rw [List.foldr_cons]
      rcases max_choice n (l.foldr max 0) with hmax | hmax
      · rw [hmax]
        exact Or.inr List.mem_cons_self
      · rw [hmax]
        exact ih.imp id (List.mem_cons_of_mem n)
  rcases hfold ((commits.filter fun c => c.todo = [] ∧ hash ∈ c.records).map Commit.index) with
    hzero | hmem
  · exact Or.inl hzero
  · obtain ⟨c, hc, hindex⟩ := List.mem_map.mp hmem
    obtain ⟨hc, hdone⟩ := List.mem_filter.mp hc
    obtain ⟨htodo, hrec⟩ := of_decide_eq_true hdone
    refine Or.inr ⟨c, hc, hindex, hrec, ?_⟩
    rw [htodo]
    exact List.not_mem_nil

/-- **What is filled in in time is of the stored record**, once the last commit has dropped the copy. -/
theorem Settled.none_after {commits : List Commit} {hash : Key} (h : Settled commits hash) {n : Nat}
    (hp : Pending commits n hash) : ∀ c ∈ commits, n < c.index → hash ∉ c.records := by
  intro c hc hlt hrec
  obtain ⟨since, hdrop, hlast⟩ := h
  have hle := hlast c hc hrec
  rcases hdrop with rfl | ⟨c', hc', rfl, hrec', htodo⟩
  · omega
  · exact htodo (hp c' hc' (by omega) hrec')

/-! ## The users -/

/-- The user has had this record. -/
def Had (b : CacheCoherence.State) (name : Bytes) (r : UserDataT) : Prop :=
  ∃ n, n ≤ b.now ∧ storedUser (b.dbs n) name = some r

/-- Every entry comes from a record that the user has had. -/
def Stamped (had : Bytes → UserDataT → Prop) (c : OrdMap Key CacheV) : Prop :=
  ∀ name category v, c.get (categoryKey name category) = some v →
    ∃ r, had name r ∧ category ∈ r.categories ∧ v = .tsText r.updatedAt

/-- What holds of the users, in the records and in the cache. -/
structure Users (b : CacheCoherence.State) : Prop where
  /-- commits drop copies of records only -/
  todo : ∀ c ∈ b.commits, ∀ copy ∈ c.todo, copy.keytype ≠ fUserdataNameCategory
  /-- a user that no later commit has written is the same now -/
  same : ∀ n name, n ≤ b.now → (∀ c ∈ b.commits, n < c.index → userKey name ∉ c.records) →
    storedUser (b.dbs n) name = storedUser b.st.maindb name
  stamped : Stamped (Had b) b.st.dbcache
  /-- a record with the present stamp had no other categories -/
  stamps : ∀ name r u, Had b name r → storedUser b.st.maindb name = some u →
    r.updatedAt = u.updatedAt → r.categories ⊆ u.categories
  noAdmin : ∀ name u, storedUser b.st.maindb name = some u → u.isAdmin = false

/-- A user is not written with the time stamp of an earlier record that had a category more. -/
def NewStamps (b : CacheCoherence.State) : CacheCoherence.Label → Prop
  | .write .user cs => ∀ c ∈ cs, ∀ n ≤ b.now, ∀ r,
      storedUser (b.dbs n) (UserDataT.name (Change.record c)) = some r →
        r.updatedAt = UserDataT.updatedAt (Change.record c) →
          r.categories ⊆ UserDataT.categories (Change.record c)
  | _ => True

/-- The key of an entry tells the user and the category. -/
theorem categoryKey_inj {name name' category category' : Bytes} :
    categoryKey name category = categoryKey name' category' ↔
      name = name' ∧ category = category' := by
  simp [categoryKey]

/-- The key of a user tells the name. -/
theorem userKey_inj {name name' : Bytes} : userKey name = userKey name' ↔ name = name' := by
  simp [encodeSecondaryKey]

/-- No record is cached under the key of an entry. -/
theorem categoryKey_ne {name category : Bytes} {k : GetKind} {hash : Key}
    (hk : hash.keytype = ukey k) : categoryKey name category ≠ hash := by
  rintro rfl
  have hkt : fUserdataNameCategory = ukey k := hk
  cases k <;> exact absurd hkt (by decide)

/-- A write leaves the users that it does not write. -/
theorem storedUser_write {b b' : CacheCoherence.State} (hok : StoreOk b.st.maindb) {rk : RecKind}
    {cs : List (Change rk.Rec)} (hw : Wrote b b' rk cs) {name : Bytes}
    (hno : userKey name ∉ cs.map fun c => rk.service.key c.record) :
    storedUser b'.st.maindb name = storedUser b.st.maindb name := by
  rw [hw.maindb]
  by_cases hk : rk = .user
  · subst hk
    refine StoreTable.userDataTable_singleKey.find_batch_other (hok .user) hw.fit hw.apart rfl
      fun c hc hkey => ?_
    exact hno (List.mem_map.mpr ⟨c, hc, hkey⟩)
  · exact StoreTable.SingleKey.find_congr rfl fun key hkey =>
      @RecKind.get_write_other rk .user (Ne.symm hk) _ cs key hkey

/-- **The users after a write**: those that it writes, and the others as before. -/
theorem storedUser_wrote {b b' : CacheCoherence.State} (hok : StoreOk b.st.maindb) {rk : RecKind}
    {cs : List (Change rk.Rec)} (hw : Wrote b b' rk cs) {name : Bytes} {u : UserDataT}
    (hu : storedUser b'.st.maindb name = some u) :
    storedUser b.st.maindb name = some u ∨
      ∃ cs' : List (Change UserDataT),
        (CacheCoherence.Label.write rk cs = CacheCoherence.Label.write .user cs') ∧
        ∃ c ∈ cs', c.record = u ∧ c.record.name = name := by
  by_cases hmem : userKey name ∈ cs.map fun c => rk.service.key c.record
  · obtain ⟨c, hc, hkey⟩ := List.mem_map.mp hmem
    have hk : rk = .user := by
      apply RecKind.ukey_inj
      exact (rk.service_lawful.single.keytype_ukey c.record).symm.trans (congrArg Key.keytype hkey)
    subst hk
    have hfind := StoreTable.userDataTable_singleKey.find_batch (hok .user) hw.fit hw.apart hc
    have hname : UserDataT.name c.record = name := userKey_inj.mp hkey
    refine Or.inr ⟨cs, rfl, c, hc, ?_, hname⟩
    rw [storedUser, hw.maindb, ← hname] at hu
    exact Option.some.inj (hfind.symm.trans hu)
  · rw [storedUser_write hok hw hmem] at hu
    exact Or.inl hu

/-- What a commit drops is never an entry. -/
theorem cacheKeyOf_keytype {i : TransItemT} {copy : Key} (h : cacheKeyOf i = some copy) :
    copy.keytype ≠ fUserdataNameCategory := by
  rw [cacheKeyOf] at h
  split at h
  · split at h
    · obtain ⟨r, -, rfl⟩ := Option.map_eq_some_iff.mp h
      exact (by decide : uTagdataKeytypeName ≠ fUserdataNameCategory)
    · split at h
      · obtain ⟨r, -, rfl⟩ := Option.map_eq_some_iff.mp h
        exact (by decide : uCategoryName ≠ fUserdataNameCategory)
      · split at h
        · obtain ⟨r, -, rfl⟩ := Option.map_eq_some_iff.mp h
          exact (by decide : uExterdataName ≠ fUserdataNameCategory)
        · split at h
          · obtain ⟨r, -, rfl⟩ := Option.map_eq_some_iff.mp h
            exact (by decide : uUserdataName ≠ fUserdataNameCategory)
          · cases h
  · cases h

namespace Users

/-- The users only change with a data write; the entries may be others of records they have had. -/
theorem congr {b b' : CacheCoherence.State} (h : Users b) (hdb : b'.st.maindb = b.st.maindb)
    (hnow : b'.now = b.now) (hdbs : b'.dbs = b.dbs) (hcommits : b'.commits = b.commits)
    (hstamped : Stamped (Had b) b'.st.dbcache) : Users b' := by
  have hhad : Had b' = Had b := by
    funext name r
    rw [Had, Had, hnow, hdbs]
  refine ⟨?_, ?_, ?_, ?_, ?_⟩
  · rw [hcommits]
    exact h.todo
  · rw [hcommits, hnow, hdbs, hdb]
    exact h.same
  · rw [hhad]
    exact hstamped
  · rw [hdb, hhad]
    exact h.stamps
  · rw [hdb]
    exact h.noAdmin

theorem write {b b' : CacheCoherence.State} (h : Users b) (hok : StoreOk b.st.maindb) {rk : RecKind}
    {cs : List (Change rk.Rec)} (hplain : NoAdmin (.write rk cs)) (hnew : NewStamps b (.write rk cs))
    (hw : Wrote b b' rk cs) : Users b' := by
  have hhad : ∀ name r, Had b' name r → Had b name r ∨ storedUser b'.st.maindb name = some r := by
    rintro name r ⟨n, hn, hr⟩
    rw [hw.now] at hn
    rcases Nat.lt_or_eq_of_le hn with hlt | rfl
    · have hle : n ≤ b.now := Nat.lt_succ_iff.mp hlt
      exact Or.inl ⟨n, hle, hw.earlier n hle ▸ hr⟩
    · exact Or.inr (hw.last ▸ hr)
  refine ⟨fun c hmem => ?_, fun n name hn hno => ?_, fun name category v hv => ?_,
    fun name r u hr hu hts => ?_, fun name u hu => ?_⟩
  · rw [hw.commits] at hmem
    rcases List.mem_cons.mp hmem with rfl | hmem
    · intro copy hcopy
      obtain ⟨i, -, hi⟩ := List.mem_filterMap.mp hcopy
      exact cacheKeyOf_keytype hi
    · exact h.todo c hmem
  · rw [hw.now] at hn
    rw [hw.commits] at hno
    rcases Nat.lt_or_eq_of_le hn with hlt | rfl
    · have hle : n ≤ b.now := Nat.lt_succ_iff.mp hlt
      have hnew := hno _ List.mem_cons_self hlt
      rw [hw.earlier n hle, storedUser_write hok hw hnew]
      exact h.same n name hle fun c hmem => hno c (List.mem_cons_of_mem _ hmem)
    · rw [hw.last]
  · rw [hw.dbcache] at hv
    obtain ⟨r, ⟨n, hn, hr⟩, hrest⟩ := h.stamped name category v hv
    refine ⟨r, ⟨n, ?_, ?_⟩, hrest⟩
    · rw [hw.now]
      exact hn.trans (Nat.le_succ _)
    · rw [hw.earlier n hn]
      exact hr
  · rcases hhad name r hr with hold | hpresent
    · rcases storedUser_wrote hok hw hu with hsame | ⟨cs', hcs, c, hmem, rfl, rfl⟩
      · exact h.stamps name r u hold hsame hts
      · rw [hcs] at hnew
        obtain ⟨n, hn, hr⟩ := hold
        exact hnew c hmem n hn r hr hts
    · rw [hu] at hpresent
      rw [Option.some.inj hpresent]
      exact List.Subset.refl _
  · rcases storedUser_wrote hok hw hu with hsame | ⟨cs', hcs, c, hmem, rfl, -⟩
    · exact h.noAdmin name u hsame
    · rw [hcs] at hplain
      exact hplain c hmem

/-- Dropping a copy leaves the entries. -/
theorem get_drop {b : CacheCoherence.State} (h : Users b) {j index : Nat} {records todo : List Key}
    {copy : Key} (hj : b.commits[j]? = some ⟨index, records, copy :: todo⟩) (name category : Bytes) :
    (CacheContainer.delAssoc b.st.dbcache copy).get (categoryKey name category) =
      b.st.dbcache.get (categoryKey name category) := by
  have hcopy := h.todo _ (List.mem_of_getElem? hj) copy List.mem_cons_self
  rw [CacheContainer.delAssoc, OrdMap.get_delete, if_neg]
  rintro rfl
  exact hcopy rfl

theorem drop {b : CacheCoherence.State} (h : Users b) {j index : Nat} {records todo : List Key}
    {copy : Key} (hj : b.commits[j]? = some ⟨index, records, copy :: todo⟩) :
    Users { b with
      st := { b.st with dbcache := CacheContainer.delAssoc b.st.dbcache copy }
      commits := b.commits.set j ⟨index, records, todo⟩ } := by
  have hold : (⟨index, records, copy :: todo⟩ : Commit) ∈ b.commits := List.mem_of_getElem? hj
  refine ⟨fun c hmem => ?_, fun n name hn hno => ?_, fun name category v hv => ?_, h.stamps,
    h.noAdmin⟩
  · rcases List.mem_or_eq_of_mem_set hmem with hmem | rfl
    · exact h.todo c hmem
    · exact fun copy' hcopy' => h.todo _ hold copy' (List.mem_cons_of_mem _ hcopy')
  · refine h.same n name hn fun c hmem hlt => ?_
    obtain ⟨c', hmem', hindex, hrec, -⟩ := goes_set hj c hmem
    rw [← hrec]
    exact hno c' hmem' (hindex ▸ hlt)
  · exact h.stamped name category v ((h.get_drop hj name category).symm.trans hv)

end Users

/-! ## The invariant -/

/-- The stored user has all its entries, but for those that a `Get` has still to set. -/
def Cover (s : State) (name : Bytes) : Prop :=
  ∀ u, storedUser s.base.st.maindb name = some u → ∀ category ∈ u.categories,
    s.base.st.dbcache.get (categoryKey name category) = some (.tsText u.updatedAt) ∨
      ∃ i f, s.filling i = some f ∧ f.query.name = name ∧ category ∈ f.rest

/-- What a `Get` can count on that started when this commit was the last to have returned: the entries
    are there, unless there have been commits since. -/
structure Covered (s : State) (name : Bytes) (since : Nat) : Prop where
  dropped : Dropped s.base.commits (userKey name) since
  cover : Last s.base.commits (userKey name) since → Cover s name

/-- What holds of a `Get` that is setting entries. -/
structure FillingOk (s : State) (f : Filling) : Prop where
  since : f.since ≤ f.index
  index : f.index ≤ s.base.now
  record : storedUser (s.base.dbs f.index) f.query.name = some f.record
  rest : f.rest ⊆ f.record.categories
  covered : Covered s f.query.name f.since

/-- What holds of a `Get` before it fills the cache. -/
def ReaderSince (commits : List Commit) : Reader → Prop
  | .missed k q since => Dropped commits (key k q) since
  | .read k q _ since _ => Dropped commits (key k q) since

/-- **The invariant.** -/
structure Inv (s : State) : Prop where
  coherent : CacheCoherence.Inv s.base
  users : Users s.base
  idle : ∀ i f, s.filling i = some f → s.base.readers i = none
  readers : ∀ i rd, s.base.readers i = some rd → ReaderSince s.base.commits rd
  filling : ∀ i f, s.filling i = some f → FillingOk s f
  /-- a copy comes with its entries, unless a commit has still to drop it -/
  cached : ∀ name, Settled s.base.commits (userKey name) →
    (s.base.st.dbcache.get (userKey name)).isSome = true → Cover s name
  results : ∀ (q v : UserDataT) (since : Nat), (⟨.user, q, since, v⟩ : Result) ∈ s.base.results →
    v.notfound = false → Covered s q.name since

/-- The present records are in order. -/
theorem Inv.ok {s : State} (h : Inv s) : StoreOk s.base.st.maindb :=
  h.coherent.last ▸ h.coherent.tables s.base.now le_rfl

/-- A step that does not take entries away. -/
structure Frame (s s' : State) : Prop where
  now : s.base.now ≤ s'.base.now
  dbs : ∀ n, n ≤ s.base.now → s'.base.dbs n = s.base.dbs n
  commits : Goes s.base.commits s'.base.commits
  cover : ∀ name, Settled s.base.commits (userKey name) → Settled s'.base.commits (userKey name) →
    Cover s name → Cover s' name

namespace Frame

variable {s s' : State} (hf : Frame s s')

include hf

/-- What a `Get` can count on stays. -/
theorem covered {name : Bytes} {since : Nat} (h : Covered s name since) : Covered s' name since := by
  have hdropped := h.dropped.goes hf.commits
  refine ⟨hdropped, fun hlast => ?_⟩
  have hlast' := hlast.goes hf.commits
  exact hf.cover name ⟨since, h.dropped, hlast'⟩ ⟨since, hdropped, hlast⟩ (h.cover hlast')

/-- A `Get` that is setting entries stays in order. -/
theorem fillingOk {f : Filling} (h : FillingOk s f) : FillingOk s' f where
  since := h.since
  index := h.index.trans hf.now
  record := by
    rw [hf.dbs f.index h.index]
    exact h.record
  rest := h.rest
  covered := hf.covered h.covered

/-- So does one that has not filled the cache. -/
theorem readerSince {rd : Reader} (h : ReaderSince s.base.commits rd) :
    ReaderSince s'.base.commits rd := by
  cases rd with
  | missed k q since => exact Dropped.goes hf.commits h
  | read k q r since index => exact Dropped.goes hf.commits h

/-- **The invariant after a step**: only what is new is to be shown. -/
theorem inv (h : Inv s) (hc : CacheCoherence.Inv s'.base) (hu : Users s'.base)
    (hidle : ∀ i f, s'.filling i = some f → s'.base.readers i = none)
    (hreaders : ∀ i rd, s'.base.readers i = some rd →
      s.base.readers i = some rd ∨ ReaderSince s'.base.commits rd)
    (hfilling : ∀ i f, s'.filling i = some f → s.filling i = some f ∨ FillingOk s' f)
    (hcached : ∀ name, Settled s'.base.commits (userKey name) →
      (s'.base.st.dbcache.get (userKey name)).isSome = true →
        (Settled s.base.commits (userKey name) ∧
          (s.base.st.dbcache.get (userKey name)).isSome = true) ∨ Cover s' name)
    (hresults : ∀ (q v : UserDataT) (since : Nat),
      (⟨.user, q, since, v⟩ : Result) ∈ s'.base.results → v.notfound = false →
        (⟨.user, q, since, v⟩ : Result) ∈ s.base.results ∨ Covered s' q.name since) : Inv s' := by
  refine ⟨hc, hu, hidle, fun i rd hi => ?_, fun i f hi => ?_, fun name hsettled hcopy => ?_,
    fun q v since hres hfound => ?_⟩
  · rcases hreaders i rd hi with hold | hnew
    · exact hf.readerSince (h.readers i rd hold)
    · exact hnew
  · rcases hfilling i f hi with hold | hnew
    · exact hf.fillingOk (h.filling i f hold)
    · exact hnew
  · rcases hcached name hsettled hcopy with ⟨hold, hcopy'⟩ | hnew
    · exact hf.cover name hold hsettled (h.cached name hold hcopy')
    · exact hnew
  · rcases hresults q v since hres hfound with hold | hnew
    · exact hf.covered (h.results q v since hold hfound)
    · exact hnew

end Frame

/-- A step that leaves the records, the commits and the entries. -/
theorem frame_of_same {s s' : State} (hdb : s'.base.st.maindb = s.base.st.maindb)
    (hnow : s'.base.now = s.base.now) (hdbs : s'.base.dbs = s.base.dbs)
    (hcommits : s'.base.commits = s.base.commits)
    (hentries : ∀ name category, s'.base.st.dbcache.get (categoryKey name category) =
      s.base.st.dbcache.get (categoryKey name category))
    (hfilling : ∀ i f category, s.filling i = some f → category ∈ f.rest →
      s'.filling i = some f) : Frame s s' where
  now := by rw [hnow]
  dbs n _ := by rw [hdbs]
  commits := by
    rw [hcommits]
    exact Goes.refl _
  cover name _ _ h u hu category hcat := by
    rw [hdb] at hu
    rw [hentries]
    refine (h u hu category hcat).imp id ?_
    rintro ⟨i, f, hi, hname, hrest⟩
    exact ⟨i, f, hfilling i f category hi hrest, hname, hrest⟩

/-! ## One step -/

/-- The copy and the entries are filled in in time, and edits that take categories away have new time
    stamps. -/
def Orderly (s : State) : Label → Prop
  | .base l => FillsInTime s.base l ∧ NewStamps s.base l
  | .entry i => ∀ f, s.filling i = some f →
      Pending s.base.commits f.index (userKey f.query.name)
  | .finish _ => True

/-- Fewer results, and a cache with the same copies. -/
theorem coherent_of_less {b : CacheCoherence.State} (h : CacheCoherence.Inv b)
    {dbcache : OrdMap Key CacheV} {results : List Result}
    (hcopies : ∀ (k : GetKind) (hash : Key), hash.keytype = ukey k →
      dbcache.get hash = b.st.dbcache.get hash) (hresults : results ⊆ b.results) :
    CacheCoherence.Inv { b with st := { b.st with dbcache := dbcache }, results := results } where
  tables := h.tables
  last := h.last
  commits := h.commits
  copies k hash v hk hv := (h.copies k hash v hk ((hcopies k hash hk).symm.trans hv)).congr le_rfl
    (fun _ _ => rfl) fun _ _ hp => hp
  readers i rd hi := (h.readers i rd hi).congr le_rfl fun _ _ => rfl
  results res hres := h.results res (hresults hres)

/-- The steps of a reader that is on its way leave the others idle. -/
theorem idle_update {s : State} (h : Inv s) {i : Nat} {rd : Option Reader}
    (hi : s.filling i = none) : ∀ j f, s.filling j = some f →
      Function.update s.base.readers i rd j = none := by
  intro j f hj
  have hne : j ≠ i := by
    rintro rfl
    rw [hi] at hj
    cases hj
  rw [Function.update_of_ne hne]
  exact h.idle j f hj

/-- A reader on its way is setting no entries. -/
theorem Inv.not_filling {s : State} (h : Inv s) {i : Nat} {rd : Reader}
    (hi : s.base.readers i = some rd) : s.filling i = none := by
  cases hf : s.filling i with
  | none => rfl
  | some f =>
    rw [h.idle i f hf] at hi
    cases hi

/-- An entry of an updated table is an old one or the new one. -/
theorem update_eq_some {A : Type} {g : Nat → Option A} {i j : Nat} {new : Option A} {a : A}
    (h : Function.update g i new j = some a) :
    (j ≠ i ∧ g j = some a) ∨ (j = i ∧ new = some a) := by
  by_cases hji : j = i
  · subst hji
    rw [Function.update_self] at h
    exact Or.inr ⟨rfl, h⟩
  · rw [Function.update_of_ne hji] at h
    exact Or.inl ⟨hji, h⟩

/-- A reader that is not the one that has gone. -/
theorem reader_gone {readers : Nat → Option Reader} {i j : Nat} {rd : Reader}
    (h : Function.update readers i none j = some rd) : readers j = some rd := by
  obtain ⟨-, hold⟩ | ⟨-, hnew⟩ := update_eq_some h
  · exact hold
  · cases hnew

/-- A hit has a copy. -/
theorem copy_of_lookup {st : SharedTable} {q v : UserDataT} (h : lookup .user st q = some v) :
    (st.dbcache.get (userKey q.name)).isSome = true := by
  unfold lookup at h
  have hkey : key .user q = userKey q.name := rfl
  rw [hkey] at h
  cases hget : st.dbcache.get (userKey q.name) with
  | none =>
    rw [hget] at h
    cases h
  | some copy => rfl

/-- **A look into the cache**: a hit has a copy, and so its entries. -/
theorem Inv.start {s s' : State} (h : Inv s) {i : Nat} {k : GetKind} {q : Rec k}
    (hs : start s i k q = some s') : Inv s' := by
  rw [CategoryEntries.start] at hs
  split at hs
  · cases hs
  · rename_i hidle
    obtain ⟨b, hb, rfl⟩ := Option.map_eq_some_iff.mp hs
    have hc := h.coherent.start hb
    rw [CacheCoherence.step] at hb
    split at hb
    · cases hb
    · dsimp only at hb
      split at hb
      · rename_i v hl
        cases hb
        have hframe : Frame s { s with base := { s.base with
            results := ⟨k, q, returned s.base.commits (key k q), v⟩ :: s.base.results } } :=
          frame_of_same rfl rfl rfl rfl (fun _ _ => rfl) fun _ _ _ hi _ => hi
        refine hframe.inv h hc (h.users.congr rfl rfl rfl rfl h.users.stamped) h.idle
          (fun _ _ hrd => Or.inl hrd) (fun _ _ hf => Or.inl hf)
          (fun _ hsettled hcopy => Or.inl ⟨hsettled, hcopy⟩) ?_
        intro q' v' since' hres _
        rcases List.mem_cons.mp hres with hnew | hold
        · -- a hit: the copy is in the cache
          cases hnew
          refine Or.inr ⟨dropped_returned _ _, fun hlast => ?_⟩
          refine h.cached _ ⟨_, dropped_returned _ _, hlast⟩ ?_
          exact copy_of_lookup hl
        · exact Or.inl hold
      · cases hb
        have hframe : Frame s { s with base := { s.base with
            readers := Function.update s.base.readers i
              (some (.missed k q (returned s.base.commits (key k q)))) } } :=
          frame_of_same rfl rfl rfl rfl (fun _ _ => rfl) fun _ _ _ hi _ => hi
        refine hframe.inv h hc (h.users.congr rfl rfl rfl rfl h.users.stamped)
          (idle_update h hidle) (fun j rd hrd => ?_) (fun _ _ hf => Or.inl hf)
          (fun _ hsettled hcopy => Or.inl ⟨hsettled, hcopy⟩) fun _ _ _ hres _ => Or.inl hres
        obtain ⟨-, hold⟩ | ⟨-, hnew⟩ := update_eq_some hrd
        · exact Or.inl hold
        · cases hnew
          exact Or.inr (dropped_returned _ _)

/-- **A read of the table** leaves the cache. -/
theorem Inv.read {s s' : State} (h : Inv s) {i : Nat}
    (hs : stepBase s (.read i) = some s') : Inv s' := by
  obtain ⟨b, hb, rfl⟩ := Option.map_eq_some_iff.mp hs
  have hc := h.coherent.read hb
  rw [CacheCoherence.step] at hb
  split at hb
  · rename_i k q since hi
    have hidle := h.not_filling hi
    have hsince : Dropped s.base.commits (key k q) since := h.readers i _ hi
    have hframe : ∀ (readers : Nat → Option Reader) (results : List Result),
        Frame s { s with base := { s.base with readers := readers, results := results } } :=
      fun _ _ => frame_of_same rfl rfl rfl rfl (fun _ _ => rfl) fun _ _ _ hi _ => hi
    have husers : ∀ (readers : Nat → Option Reader) (results : List Result),
        Users { s.base with readers := readers, results := results } :=
      fun _ _ => h.users.congr rfl rfl rfl rfl h.users.stamped
    split at hb
    · cases hb
      refine (hframe _ _).inv h hc (husers _ _) (idle_update h hidle) (fun j rd hrd => ?_)
        (fun _ _ hf => Or.inl hf) (fun _ hsettled hcopy => Or.inl ⟨hsettled, hcopy⟩)
        fun _ _ _ hres _ => Or.inl hres
      exact Or.inl (reader_gone hrd)
    · cases hb
      refine (hframe _ _).inv h hc (husers _ _) (idle_update h hidle) (fun j rd hrd => ?_)
        (fun _ _ hf => Or.inl hf) (fun _ hsettled hcopy => Or.inl ⟨hsettled, hcopy⟩)
        fun _ _ _ hres _ => Or.inl hres
      obtain ⟨-, hold⟩ | ⟨-, hnew⟩ := update_eq_some hrd
      · exact Or.inl hold
      · cases hnew
        exact Or.inr hsince
    · cases hb
      refine (hframe _ _).inv h hc (husers _ _) (idle_update h hidle) (fun j rd hrd => ?_)
        (fun _ _ hf => Or.inl hf) (fun _ hsettled hcopy => Or.inl ⟨hsettled, hcopy⟩)
        fun q' v' since' hres hfound => ?_
      · exact Or.inl (reader_gone hrd)
      · rcases List.mem_cons.mp hres with hnew | hold
        · -- nothing was found
          cases hnew
          cases hfound
        · exact Or.inl hold
  · cases hb

/-- The fill of any other record touches neither the users nor their entries. -/
theorem get_fill_other {k : GetKind} (hk : k ≠ .user) (r : Rec k) (c : OrdMap Key CacheV)
    {hash : Key} (hhash : hash.keytype = ukey .user ∨ hash.keytype = fUserdataNameCategory) :
    (CacheCoherence.fill k r c).get hash = c.get hash := by
  have hne : hash ≠ key k r := by
    rintro rfl
    rw [key_keytype] at hhash
    rcases hhash with hhash | hhash
    · exact hk (ukey_inj hhash)
    · cases k <;> exact absurd hhash (by decide)
  have hcopy : (setCopy k r c).get hash = c.get hash := by
    rw [setCopy, CacheContainer.get_setAssoc, if_neg hne]
  cases k with
  | user => exact absurd rfl hk
  | exter => exact hcopy
  | tag => exact hcopy
  | category => exact hcopy

/-- **The fill of another record** leaves the users and their entries. -/
theorem Inv.fill_other {s s' : State} (h : Inv s) {i : Nat}
    (hother : ∀ q r since index, s.base.readers i ≠ some (.read .user q r since index))
    (hfresh : FillsInTime s.base (.fill i)) (hs : stepBase s (.fill i) = some s') : Inv s' := by
  obtain ⟨b, hb, rfl⟩ := Option.map_eq_some_iff.mp hs
  have hc := h.coherent.fill hfresh hb
  rw [CacheCoherence.step] at hb
  split at hb
  · rename_i k q r since index hi
    cases hb
    have hk : k ≠ .user := by
      rintro rfl
      exact hother q r since index hi
    have hentries : ∀ name category, (CacheCoherence.fill k r s.base.st.dbcache).get
        (categoryKey name category) = s.base.st.dbcache.get (categoryKey name category) :=
      fun _ _ => get_fill_other hk r _ (Or.inr rfl)
    have hstamped : Stamped (Had s.base) (CacheCoherence.fill k r s.base.st.dbcache) := by
      intro name category v hv
      rw [hentries] at hv
      exact h.users.stamped name category v hv
    refine Frame.inv (s := s) (frame_of_same rfl rfl rfl rfl hentries fun _ _ _ hi _ => hi) h hc
      (h.users.congr rfl rfl rfl rfl hstamped) (idle_update h (h.not_filling hi))
      (fun j rd hrd => ?_) (fun _ _ hf => Or.inl hf) (fun name hsettled hcopy => ?_)
      fun q' v' since' hres hfound => ?_
    · exact Or.inl (reader_gone hrd)
    · have hsame : (CacheCoherence.fill k r s.base.st.dbcache).get (userKey name) =
          s.base.st.dbcache.get (userKey name) := get_fill_other hk r _ (Or.inl rfl)
      exact Or.inl ⟨hsettled, by rwa [← hsame]⟩
    · rcases List.mem_cons.mp hres with hnew | hold
      · cases hnew
        exact absurd rfl hk
      · exact Or.inl hold
  · cases hb

/-- A record that is read under a name has it. -/
theorem name_of_stored {db : DataDb} (hok : StoreOk db) {name : Bytes} {u : UserDataT}
    (hu : storedUser db name = some u) : u.id ≠ 0 ∧ u.name = name := by
  obtain ⟨hkey, hid, -⟩ := (StoreTable.userDataTable_singleKey.find_eq_some (hok .user) rfl).mp hu
  exact ⟨hid, userKey_inj.mp hkey⟩

/-- **Whatever is filled in in time is of the stored user**, once the last commit has dropped the
    copy. -/
theorem Inv.stored_of_pending {s : State} (h : Inv s) {name : Bytes} {index : Nat} {r : UserDataT}
    (hindex : index ≤ s.base.now) (hr : storedUser (s.base.dbs index) name = some r)
    (hsettled : Settled s.base.commits (userKey name))
    (hp : Pending s.base.commits index (userKey name)) :
    storedUser s.base.st.maindb name = some r := by
  rw [← h.users.same index name hindex (hsettled.none_after hp)]
  exact hr

/-- **The fill of a copy**: its entries are all still to be set, by this reader. -/
theorem Inv.fill_user {s : State} (h : Inv s) {i : Nat} {q r : UserDataT} {since index : Nat}
    (hi : s.base.readers i = some (.read .user q r since index))
    (hfresh : FillsInTime s.base (.fill i)) :
    Inv { base := { s.base with
            st := { s.base.st with dbcache := setCopy .user r s.base.st.dbcache }
            readers := Function.update s.base.readers i none }
          filling := Function.update s.filling i (some ⟨q, r, since, index, r.categories⟩) } := by
  have hstep : CacheCoherence.step s.base (.fill i) = some { s.base with
      st := { s.base.st with dbcache := CacheCoherence.fill .user r s.base.st.dbcache }
      readers := Function.update s.base.readers i none
      results := ⟨.user, q, since, found .user r⟩ :: s.base.results } := by
    rw [CacheCoherence.step, hi]
  obtain ⟨hsince, hindex, hfind⟩ := h.coherent.readers i _ hi
  have hr : storedUser (s.base.dbs index) q.name = some r := hfind
  have hname : r.name = q.name := (name_of_stored (h.coherent.tables index hindex) hr).2
  have hdropped : Dropped s.base.commits (userKey q.name) since := h.readers i _ hi
  have hpend : Pending s.base.commits index (userKey q.name) := hfresh .user q r since index hi
  have hidle := h.not_filling hi
  have hentries : ∀ name category, (setCopy .user r s.base.st.dbcache).get
      (categoryKey name category) = s.base.st.dbcache.get (categoryKey name category) := by
    intro name category
    unfold setCopy
    rw [CacheContainer.get_setAssoc, if_neg (categoryKey_ne (key_keytype .user r))]
  have hkeep : ∀ j f (category : Bytes), s.filling j = some f → category ∈ f.rest →
      Function.update s.filling i (some ⟨q, r, since, index, r.categories⟩) j = some f := by
    intro j f category hj _
    rw [Function.update_of_ne]
    · exact hj
    · rintro rfl
      rw [hidle] at hj
      cases hj
  -- all entries are still to be set
  have hcover : Settled s.base.commits (userKey q.name) → Cover
      { base := { s.base with
          st := { s.base.st with dbcache := setCopy .user r s.base.st.dbcache }
          readers := Function.update s.base.readers i none }
        filling := Function.update s.filling i (some ⟨q, r, since, index, r.categories⟩) }
      q.name := by
    intro hsettled u hu category hcat
    have hstored := h.stored_of_pending hindex hr hsettled hpend
    have hsame : r = u := Option.some.inj (hstored.symm.trans hu)
    subst hsame
    exact Or.inr ⟨i, _, Function.update_self .., rfl, hcat⟩
  have hcopies : ∀ (k : GetKind) (hash : Key), hash.keytype = ukey k →
      (setCopy .user r s.base.st.dbcache).get hash =
        (CacheCoherence.fill .user r s.base.st.dbcache).get hash := fun k hash hk =>
    (CacheContainer.get_setAssoc ..).trans (CacheCoherence.get_fill .user k r _ hk).symm
  have hc := coherent_of_less (h.coherent.fill hfresh hstep) hcopies
    (List.subset_cons_self _ s.base.results)
  have hstamped : Stamped (Had s.base) (setCopy .user r s.base.st.dbcache) := by
    intro name category v hv
    rw [hentries] at hv
    exact h.users.stamped name category v hv
  refine Frame.inv (s := s) (frame_of_same rfl rfl rfl rfl hentries hkeep) h hc
    (h.users.congr rfl rfl rfl rfl hstamped) (fun j f hj => ?_) (fun j rd hrd => ?_)
    (fun j f hj => ?_) (fun name hsettled hcopy => ?_) fun _ _ _ hres _ => Or.inl hres
  · show Function.update s.base.readers i none j = none
    obtain ⟨hne, hold⟩ | ⟨rfl, -⟩ := update_eq_some hj
    · rw [Function.update_of_ne hne]
      exact h.idle j f hold
    · exact Function.update_self ..
  · exact Or.inl (reader_gone hrd)
  · obtain ⟨-, hold⟩ | ⟨-, hnew⟩ := update_eq_some hj
    · exact Or.inl hold
    · cases hnew
      exact Or.inr ⟨hsince, hindex, hr, List.Subset.refl _, hdropped,
        fun hlast => hcover ⟨since, hdropped, hlast⟩⟩
  · by_cases hn : name = q.name
    · rw [hn]
      rw [hn] at hsettled
      exact Or.inr (hcover hsettled)
    · refine Or.inl ⟨hsettled, ?_⟩
      have hne : userKey name ≠ key .user r := fun he => hn ((userKey_inj.mp he).trans hname)
      have hsame : (setCopy .user r s.base.st.dbcache).get (userKey name) =
          s.base.st.dbcache.get (userKey name) := by
        unfold setCopy
        rw [CacheContainer.get_setAssoc, if_neg hne]
      rw [← hsame]
      exact hcopy

/-- **An entry is set**: of the stored user, if the last commit has dropped the copy. -/
theorem Inv.entry {s s' : State} (h : Inv s) {i : Nat} (hl : Orderly s (.entry i))
    (hs : entry s i = some s') : Inv s' := by
  unfold CategoryEntries.entry at hs
  split at hs
  · rename_i q r since index category rest hi
    cases hs
    have hok := h.filling i _ hi
    have hr : storedUser (s.base.dbs index) q.name = some r := hok.record
    have hname : r.name = q.name := (name_of_stored (h.coherent.tables index hok.index) hr).2
    have hpend : Pending s.base.commits index (userKey q.name) := hl _ hi
    have hget : ∀ name' category', (CacheContainer.setAssoc s.base.st.dbcache
        (categoryKey r.name category) (.tsText r.updatedAt) false).get (categoryKey name' category') =
          if name' = q.name ∧ category' = category then some (.tsText r.updatedAt)
          else s.base.st.dbcache.get (categoryKey name' category') := by
      intro name' category'
      rw [CacheContainer.get_setAssoc, hname]
      simp only [categoryKey_inj]
    have hcopies : ∀ (k : GetKind) (hash : Key), hash.keytype = ukey k →
        (CacheContainer.setAssoc s.base.st.dbcache (categoryKey r.name category)
          (.tsText r.updatedAt) false).get hash = s.base.st.dbcache.get hash := by
      intro k hash hk
      rw [CacheContainer.get_setAssoc, if_neg (categoryKey_ne hk).symm]
    have hframe : Frame s
        { base := { s.base with
            st := { s.base.st with
              dbcache := CacheContainer.setAssoc s.base.st.dbcache (categoryKey r.name category)
                (.tsText r.updatedAt) false } }
          filling := Function.update s.filling i (some ⟨q, r, since, index, rest⟩) } := by
      refine ⟨le_rfl, fun _ _ => rfl, Goes.refl _, fun name hsettled _ hcover u hu cat hcat => ?_⟩
      have hentry := hget name cat
      by_cases hhere : name = q.name ∧ cat = category
      · obtain ⟨rfl, rfl⟩ := hhere
        have hstored := h.stored_of_pending hok.index hr hsettled hpend
        have hsame : r = u := Option.some.inj (hstored.symm.trans hu)
        rw [if_pos ⟨rfl, rfl⟩] at hentry
        rw [← hsame]
        exact Or.inl hentry
      · rw [if_neg hhere] at hentry
        rcases hcover u hu cat hcat with hold | ⟨j, f, hj, hfname, hrest⟩
        · exact Or.inl (hentry.trans hold)
        · by_cases hji : j = i
          · -- the reader has the other entries still to set
            subst hji
            have hf := Option.some.inj (hi.symm.trans hj)
            subst hf
            refine Or.inr ⟨j, _, Function.update_self .., hfname, ?_⟩
            rcases List.mem_cons.mp hrest with rfl | hrest
            · exact absurd ⟨hfname.symm, rfl⟩ hhere
            · exact hrest
          · exact Or.inr ⟨j, f, (Function.update_of_ne hji ..).trans hj, hfname, hrest⟩
    have hstamped : Stamped (Had s.base) (CacheContainer.setAssoc s.base.st.dbcache
        (categoryKey r.name category) (.tsText r.updatedAt) false) := by
      intro name' category' v hv
      rw [hget] at hv
      split at hv
      · rename_i hhere
        refine ⟨r, ⟨index, hok.index, ?_⟩, ?_, (Option.some.inj hv).symm⟩
        · rw [hhere.1]
          exact hr
        · rw [hhere.2]
          exact hok.rest List.mem_cons_self
      · exact h.users.stamped name' category' v hv
    refine hframe.inv h (coherent_of_less h.coherent hcopies (List.Subset.refl _))
      (h.users.congr rfl rfl rfl rfl hstamped) (fun j f hj => ?_) (fun _ _ hrd => Or.inl hrd)
      (fun j f hj => ?_) (fun name hsettled hcopy => Or.inl ⟨hsettled, ?_⟩)
      fun _ _ _ hres _ => Or.inl hres
    · obtain ⟨-, hold⟩ | ⟨rfl, -⟩ := update_eq_some hj
      · exact h.idle j f hold
      · exact h.idle j _ hi
    · obtain ⟨-, hold⟩ | ⟨-, hnew⟩ := update_eq_some hj
      · exact Or.inl hold
      · cases hnew
        exact Or.inr ⟨hok.since, hok.index, hr, fun cat hcat => hok.rest (List.mem_cons_of_mem _ hcat),
          hframe.covered hok.covered⟩
    · have hsame := hcopies .user (userKey name) rfl
      rwa [← hsame]
  · cases hs

/-- A `Get` that has set all entries returns. -/
theorem Inv.finish {s s' : State} (h : Inv s) {i : Nat} (hs : finish s i = some s') : Inv s' := by
  unfold CategoryEntries.finish at hs
  split at hs
  · rename_i q r since index hi
    cases hs
    have hok := h.filling i _ hi
    have hshows : Shows .user (s.base.dbs index) q (found .user r) := by
      unfold Shows
      have hfind : (CacheCoherence.table .user).find (s.base.dbs index) (key .user q) = some r :=
        hok.record
      rw [hfind]
      exact Or.inl rfl
    have hc : CacheCoherence.Inv { s.base with
        results := ⟨.user, q, since, found .user r⟩ :: s.base.results } :=
      h.coherent.of_readers h.coherent.readers
        (List.forall_mem_cons.mpr ⟨⟨index, hok.since, hok.index, hshows⟩, h.coherent.results⟩)
    have hframe : Frame s
        { base := { s.base with results := ⟨.user, q, since, found .user r⟩ :: s.base.results }
          filling := Function.update s.filling i none } := by
      refine frame_of_same rfl rfl rfl rfl (fun _ _ => rfl) fun j f category hj hrest => ?_
      have hne : j ≠ i := by
        rintro rfl
        have hf := Option.some.inj (hi.symm.trans hj)
        subst hf
        cases hrest
      exact (Function.update_of_ne hne ..).trans hj
    refine hframe.inv h hc (h.users.congr rfl rfl rfl rfl h.users.stamped) (fun j f hj => ?_)
      (fun _ _ hrd => Or.inl hrd) (fun j f hj => ?_)
      (fun _ hsettled hcopy => Or.inl ⟨hsettled, hcopy⟩) fun q' v' since' hres _ => ?_
    · obtain ⟨-, hold⟩ | ⟨-, hnew⟩ := update_eq_some hj
      · exact h.idle j f hold
      · cases hnew
    · obtain ⟨-, hold⟩ | ⟨-, hnew⟩ := update_eq_some hj
      · exact Or.inl hold
      · cases hnew
    · rcases List.mem_cons.mp hres with hnew | hold
      · cases hnew
        exact Or.inr (hframe.covered hok.covered)
      · exact Or.inl hold
  · cases hs

/-- A commit that is still to drop the copy of a user is the last one. -/
theorem not_settled_wrote {b b' : CacheCoherence.State} (h : CacheCoherence.Inv b) {rk : RecKind}
    {cs : List (Change rk.Rec)} (hw : Wrote b b' rk cs) {name : Bytes}
    (hmem : userKey name ∈ cs.map fun c => rk.service.key c.record) :
    ¬ Settled b'.commits (userKey name) := by
  rintro ⟨since, hdropped, hlast⟩
  rw [hw.commits] at hdropped hlast
  have hle : b.now + 1 ≤ since := hlast _ List.mem_cons_self hmem
  rcases hdropped with rfl | ⟨c, hc, rfl, hrec, htodo⟩
  · omega
  · rcases List.mem_cons.mp hc with rfl | hold
    · exact htodo (mem_dropped cs (k := .user) rfl hrec)
    · have hold' := h.commits c hold
      omega

/-- **A write**: the users it writes have a commit that is still to drop their copy. -/
theorem Inv.write {s s' : State} (h : Inv s) {rk : RecKind} {cs : List (Change rk.Rec)}
    (hplain : NoAdmin (.write rk cs)) (hnew : NewStamps s.base (.write rk cs))
    (hs : stepBase s (.write rk cs) = some s') : Inv s' := by
  obtain ⟨b, hb, rfl⟩ := Option.map_eq_some_iff.mp hs
  have hw := wrote_of_step hb
  have hother : ∀ name, Settled b.commits (userKey name) →
      userKey name ∉ cs.map fun c => rk.service.key c.record :=
    fun name hsettled hmem => not_settled_wrote h.coherent hw hmem hsettled
  have hframe : Frame s { s with base := b } := by
    refine ⟨?_, hw.earlier, ?_, fun name _ hsettled hcover u hu category hcat => ?_⟩
    · rw [hw.now]
      exact Nat.le_succ _
    · rw [hw.commits]
      exact goes_cons _ _
    · have hu' : storedUser b.st.maindb name = some u := hu
      rw [storedUser_write h.ok hw (hother name hsettled)] at hu'
      refine (hcover u hu' category hcat).imp (fun hentry => ?_) id
      show b.st.dbcache.get (categoryKey name category) = some (.tsText u.updatedAt)
      rw [hw.dbcache]
      exact hentry
  refine hframe.inv h (h.coherent.write hb) (h.users.write h.ok hplain hnew hw)
    (fun i f hi => ?_) (fun i rd hrd => Or.inl ?_) (fun _ _ hf => Or.inl hf)
    (fun name hsettled hcopy => Or.inl ⟨?_, ?_⟩) fun q v since hres _ => Or.inl ?_
  · show b.readers i = none
    rw [hw.readers]
    exact h.idle i f hi
  · rw [← hw.readers]
    exact hrd
  · -- another commit is the last of this user, as before
    obtain ⟨since, hdropped, hlast⟩ := hsettled
    have hno := hother name ⟨since, hdropped, hlast⟩
    have hgo : Goes s.base.commits b.commits := hframe.commits
    refine ⟨since, hdropped.imp id ?_, hlast.goes hgo⟩
    rintro ⟨c, hc, hindex, hrec, htodo⟩
    have hc' : c ∈ b.commits := hc
    rw [hw.commits] at hc'
    rcases List.mem_cons.mp hc' with rfl | hold
    · exact absurd hrec hno
    · exact ⟨c, hold, hindex, hrec, htodo⟩
  · rw [← hw.dbcache]
    exact hcopy
  · rw [← hw.results]
    exact hres

/-- **A copy is dropped**; its entries stay. -/
theorem Inv.drop {s s' : State} (h : Inv s) {j : Nat} (hs : stepBase s (.drop j) = some s') :
    Inv s' := by
  obtain ⟨b, hb, rfl⟩ := Option.map_eq_some_iff.mp hs
  have hc := h.coherent.drop hb
  rw [CacheCoherence.step] at hb
  split at hb
  · rename_i index records copy todo hj
    cases hb
    have hold : (⟨index, records, copy :: todo⟩ : Commit) ∈ s.base.commits := List.mem_of_getElem? hj
    have hframe : Frame s { s with base := { s.base with
        st := { s.base.st with dbcache := CacheContainer.delAssoc s.base.st.dbcache copy }
        commits := s.base.commits.set j ⟨index, records, todo⟩ } } := by
      refine ⟨le_rfl, fun _ _ => rfl, goes_set hj, fun name _ _ hcover u hu category hcat => ?_⟩
      exact (hcover u hu category hcat).imp (fun hentry =>
        (h.users.get_drop hj name category).trans hentry) id
    refine hframe.inv h hc (h.users.drop hj) h.idle (fun _ _ hrd => Or.inl hrd)
      (fun _ _ hf => Or.inl hf) (fun name hsettled hcopy => ?_) fun _ _ _ hres _ => Or.inl hres
    have hcopy' : ((s.base.st.dbcache.delete copy).get (userKey name)).isSome = true := hcopy
    rw [OrdMap.get_delete] at hcopy'
    split at hcopy'
    · cases hcopy'
    · rename_i hne
      refine Or.inl ⟨?_, hcopy'⟩
      obtain ⟨since, hdropped, hlast⟩ := hsettled
      refine ⟨since, hdropped.imp id ?_, hlast.goes (goes_set hj)⟩
      rintro ⟨c, hc, hindex, hrec, htodo⟩
      rcases List.mem_or_eq_of_mem_set hc with hmem | rfl
      · exact ⟨c, hmem, hindex, hrec, htodo⟩
      · refine ⟨_, hold, hindex, hrec, fun hmem => ?_⟩
        rcases List.mem_cons.mp hmem with heq | hrest
        · exact hne heq
        · exact htodo hrest
  · cases hb

/-- **The step lemma.** -/
theorem Inv.step {s s' : State} (h : Inv s) {l : Label} (hl : Orderly s l)
    (hs : machine.step s l = some s') : Inv s' := by
  have hs : CategoryEntries.step s l = some s' := hs
  cases l with
  | entry i => exact h.entry hl hs
  | finish i => exact h.finish hs
  | base l =>
    cases l with
    | start i k q => exact h.start hs
    | read i =>
      rw [CategoryEntries.step, if_pos (show NoAdmin (.read i) from trivial)] at hs
      · exact h.read hs
      · simp
      · simp
    | fill i =>
      have hfill : CategoryEntries.fill s i = some s' := hs
      unfold CategoryEntries.fill at hfill
      split at hfill
      · rename_i q r since index hi
        cases hfill
        exact h.fill_user hi hl.1
      · rename_i hother
        exact h.fill_other hother hl.1 hfill
    | write rk cs =>
      rw [CategoryEntries.step] at hs
      · split at hs
        · rename_i hplain
          exact h.write hplain hl.2 hs
        · cases hs
      · simp
      · simp
    | drop j =>
      rw [CategoryEntries.step, if_pos (show NoAdmin (.drop j) from trivial)] at hs
      · exact h.drop hs
      · simp
      · simp

/-- The invariant holds at the start. -/
theorem inv_init {s : State} (h : machine.init s) : Inv s := by
  obtain ⟨hinit, hcache, hplain, hidle⟩ := h
  have hc := CacheCoherence.inv_init hinit
  obtain ⟨-, hnow, hdbs, hreaders, hcommits, hresults, -⟩ := hinit
  have hlast : ∀ n, n ≤ s.base.now → s.base.dbs n = s.base.st.maindb := by
    intro n hn
    rw [hnow, Nat.le_zero] at hn
    rw [hn, hdbs]
  have husers : Users s.base := by
    refine ⟨fun c hmem => ?_, fun n name hn _ => by rw [hlast n hn], fun name category v hv => ?_,
      fun name r u hr hu _ => ?_, hplain⟩
    · rw [hcommits] at hmem
      cases hmem
    · rw [hcache] at hv
      cases hv
    · obtain ⟨n, hn, hr⟩ := hr
      rw [hlast n hn, hu] at hr
      rw [Option.some.inj hr]
      exact List.Subset.refl _
  refine ⟨hc, husers, fun i f hi => ?_, fun i rd hrd => ?_, fun i f hi => ?_,
    fun name _ hcopy => ?_, fun q v since hres _ => ?_⟩
  · rw [hidle] at hi
    cases hi
  · rw [hreaders] at hrd
    cases hrd
  · rw [hidle] at hi
    cases hi
  · rw [hcache] at hcopy
    cases hcopy
  · rw [hresults] at hres
    cases hres

/-- **The run lemma.** -/
theorem inv_reach {s : State} (h : machine.ReachWhere Orderly s) : Inv s :=
  h.invariant (I := Inv) (fun _ hi => inv_init hi) fun _ _ _ hi hl hs => hi.step hl hs

end CategoryEntries

end Zapdos.Store
