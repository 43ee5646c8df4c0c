/-
  The index tool — what `zpds_xapindex` builds from a store, against what the commits have indexed.

  The tool scans the rows of one key type and queues their values.  Each of its threads takes values
  from the queue and makes documents of them in an index of its own; in the end the indexes of all
  threads are merged.  `thread` says which thread takes which value, so that a statement about every
  `thread` is one about every schedule.

  THE CRUX.  The first row of a key type is its fence, at id 0 and with an empty value.  The scan starts
  there, and an empty value is a record to `ParseFromString`, one with all fields at their defaults.
  So the tool makes a document `Q0`, and no commit ever indexes one: `AddRecord` refuses the id 0.
-/
import Mathlib.Data.Set.Basic
import Mathlib.Logic.Function.Basic
import Zapdos.Search.HiddenItems
import Zapdos.Store.UniqueIndex

namespace Zapdos.Search

open Zapdos.Lib Zapdos.Store
open UniqueIndex (AddCall Fences)

namespace XapIndex

/-! ## The tool -/

/-- `FLAGS_indextype`. -/
inductive DataType
  | localdata | wikidata
  deriving DecidableEq, Repr

namespace DataType

/-- The key type of the records. -/
def keytype : DataType → KeyTypeE
  | localdata => kLocaldata
  | wikidata => kWikidata

/-- `GetIndexType`. -/
def indexType : DataType → Int
  | localdata => iLocaldata
  | wikidata => iWikidata

/-- The kind of record. -/
def kind : DataType → RecKind
  | localdata => .localdata
  | wikidata => .wikidata

/-- `CreateDoc`. -/
def createDoc (kstem : Bytes → Bytes) (gh : GeoHash) : DataType → ItemDataT → Option Document
  | localdata => createDocLocal kstem gh
  | wikidata => createDocWiki kstem gh

end DataType

/-- `HandleLevel::Process`: the values it queues.  It seeks the bare key type, and no key of the type
    is below the fence. -/
def levelProcess (db : DataDb) (kt : KeyTypeE) : List DataV :=
  ((db.seek (encodePrimaryKey kt 0)).takeWhile (fun row => row.1.keytype = kt)).map Prod.snd

section

variable (kstem : Bytes → Bytes) (gh : GeoHash) (dt : DataType)

/-- The loop body of `HandleIndex::Process`: one value, in the index of the thread that took it.
    None when `CreateDoc` throws: nothing catches that, so the program ends. -/
def indexValue (ix : Index) (value : DataV) : Option Index :=
  match value.parseItem with
  | none => some ix
  | some record =>
    (dt.createDoc kstem gh record).map (addDoc ix record.lang dt.indexType record.id)

/-- `HandleIndex::Process` of all threads: the queue is emptied from the front, and value number `n` is
    taken by thread `thread n`. -/
def indexProcess (thread : ℕ → ℕ) : ℕ → (ℕ → Index) → List DataV → Option (ℕ → Index)
  | _, ixs, [] => some ixs
  | n, ixs, value :: values => do
    let ix ← indexValue kstem gh dt (ixs (thread n)) value
    indexProcess thread (n + 1) (Function.update ixs (thread n) ix) values

/-- The tool: the indexes of its threads, or none when it does not get through. -/
def runTool (thread : ℕ → ℕ) (maindb : DataDb) (logdb : LogDb) : Option (ℕ → Index) :=
  match storeInitialize maindb logdb with
  | .error _ => none
  | .ok o =>
    indexProcess kstem gh dt thread 0 (fun _ _ _ => OrdMap.empty)
      (levelProcess o.maindb dt.keytype)

/-- What the tool has built, merged: documents with the terms they are kept under. -/
def offlineDocs (ixs : ℕ → Index) : Set (Bytes × Document) :=
  { p | ∃ i lang, (ixs i lang dt.indexType).get p.1 = some p.2 }

/-- What a node holds. -/
def onlineDocs (ix : Index) : Set (Bytes × Document) :=
  { p | ∃ lang, (ix lang dt.indexType).get p.1 = some p.2 }

/-! ## The node -/

/-- A transaction built by calls of `AddRecord`, or a change of `no_xapian`. -/
inductive NodeStep
  | batch (now : ℕ) (calls : List AddCall) (isMaster : Bool) (env : CommitEnv)
  | setNoXapian (b : Bool)

/-- A node from the creation of its databases on. -/
def indexedNode : Machine SearchNode NodeStep where
  init s :=
    (∃ o, storeInitialize OrdMap.empty OrdMap.empty = .ok o ∧ s.table.maindb = o.maindb) ∧
      s.index = fun _ _ => OrdMap.empty
  step s l :=
    match l with
    | .batch now calls isMaster env =>
      match UniqueIndex.build s.table.maindb calls [] with
      | .ok (some items) =>
        (searchNode kstem gh).step s (.commit now { item := items } isMaster env)
      | _ => none
    | .setNoXapian b => (searchNode kstem gh).step s (.setNoXapian b)

/-- **Offline and online indexing agree**: run on the store of the node, the tool gets through and
    builds what the node holds. -/
def Agree (s : SearchNode) (thread : ℕ → ℕ) : Prop :=
  ∃ ixs, runTool kstem gh dt thread s.table.maindb s.table.logdb = some ixs ∧
    offlineDocs dt ixs = onlineDocs dt s.index

end

/-! ## What the tool builds -/

/-- Stopping at the first row of another type reads all rows of the type. -/
theorem levelProcess_eq (db : DataDb) (kt : KeyTypeE) :
    levelProcess db kt =
      ((db.seek (encodePrimaryKey kt 0)).filter (fun row => row.1.keytype = kt)).map Prod.snd := by
  unfold levelProcess
  congr 1
  refine OrdMap.takeWhile_eq_filter (OrdMap.seek_sorted db _)
    (fun k => decide (k.keytype = kt)) ?_
  rintro ⟨a, va⟩ ha ⟨b, vb⟩ - hab hb
  have hlow : kt ≤ a.keytype := keytype_le_of_le ((OrdMap.mem_seek db).mp ha).1
  have hhigh : a.keytype ≤ b.keytype := keytype_le_of_le hab.le
  have hkt : b.keytype = kt := of_decide_eq_true hb
  rw [hkt] at hhigh
  exact decide_eq_true (le_antisymm hhigh hlow)

/-- The fence is among the values. -/
theorem mem_levelProcess {db : DataDb} {kt : KeyTypeE} {id : ℕ} {v : DataV}
    (h : db.get (encodePrimaryKey kt id) = some v) : v ∈ levelProcess db kt := by
  have hle : encodePrimaryKey kt 0 ≤ encodePrimaryKey kt id :=
    primary_le_primary.mpr (Nat.zero_le id)
  rw [levelProcess_eq, List.mem_map]
  exact ⟨(encodePrimaryKey kt id, v),
    List.mem_filter.mpr ⟨(OrdMap.mem_seek db).mpr ⟨hle, h⟩, decide_eq_true rfl⟩, rfl⟩

section

variable {kstem : Bytes → Bytes} {gh : GeoHash} {dt : DataType}

/-- The document a value becomes. -/
def Makes (kstem : Bytes → Bytes) (gh : GeoHash) (dt : DataType) (v : DataV) (p : Bytes × Document) :
    Prop :=
  ∃ r, v.parseItem = some r ∧ p.1 = idterm r.id ∧ dt.createDoc kstem gh r = some p.2

/-- The documents of the threads together. -/
theorem mem_offlineDocs {ixs : ℕ → Index} {p : Bytes × Document} :
    p ∈ offlineDocs dt ixs ↔ ∃ i, p ∈ onlineDocs dt (ixs i) := Iff.rfl

/-- A document under a key that is not taken is added to the others. -/
theorem onlineDocs_addDoc {ix : Index} {lang : Int} {id : ℕ} {doc : Document}
    (hfree : ∀ d, (idterm id, d) ∉ onlineDocs dt ix) :
    onlineDocs dt (addDoc ix lang dt.indexType id doc) =
      insert (idterm id, doc) (onlineDocs dt ix) := by
  have hget : ∀ l key, (addDoc ix lang dt.indexType id doc l dt.indexType).get key =
      if l = lang ∧ key = idterm id then some doc else (ix l dt.indexType).get key := by
    intro l key
    unfold addDoc Index.set
    by_cases hl : l = lang
    · subst hl
      rw [if_pos ⟨rfl, rfl⟩, OrdMap.get_put]
      by_cases hkey : key = idterm id
      · rw [if_pos hkey, if_pos ⟨rfl, hkey⟩]
      · rw [if_neg hkey, if_neg fun he => hkey he.2]
    · rw [if_neg fun he => hl he.1, if_neg fun he => hl he.1]
  ext ⟨key, d⟩
  rw [Set.mem_insert_iff, Prod.mk.injEq]
  constructor
  · rintro ⟨l, hl⟩
    rw [hget] at hl
    split at hl
    · rename_i hkey
      exact Or.inl ⟨hkey.2, (Option.some.inj hl).symm⟩
    · exact Or.inr ⟨l, hl⟩
  · rintro (⟨rfl, rfl⟩ | ⟨l, hl⟩)
    · refine ⟨lang, ?_⟩
      rw [hget, if_pos ⟨rfl, rfl⟩]
    · refine ⟨l, ?_⟩
      rw [hget, if_neg]
      · exact hl
      · rintro ⟨-, rfl⟩
        exact hfree d ⟨l, hl⟩

/-- One value, whose id is not taken. -/
theorem onlineDocs_indexValue {ix ix' : Index} {v : DataV}
    (h : indexValue kstem gh dt ix v = some ix')
    (hfree : ∀ r, v.parseItem = some r → ∀ d, (idterm r.id, d) ∉ onlineDocs dt ix) :
    onlineDocs dt ix' = onlineDocs dt ix ∪ { p | Makes kstem gh dt v p } := by
  unfold indexValue at h
  cases hparse : v.parseItem with
  | none =>
    rw [hparse] at h
    cases h
    have hempty : { p | Makes kstem gh dt v p } = ∅ := by
      refine Set.eq_empty_of_forall_notMem ?_
      rintro p ⟨r, hr, -⟩
      rw [hparse] at hr
      cases hr
    rw [hempty, Set.union_empty]
  | some r =>
    rw [hparse] at h
    obtain ⟨doc, hdoc, rfl⟩ := Option.map_eq_some_iff.mp h
    have hone : { p | Makes kstem gh dt v p } = {(idterm r.id, doc)} := by
      ext ⟨key, d⟩
      constructor
      · rintro ⟨r', hr', hkey, hd⟩
        rw [hparse, Option.some.injEq] at hr'
        subst hr'
        rw [hdoc, Option.some.injEq] at hd
        exact Prod.ext hkey hd.symm
      · intro he
        cases he
        exact ⟨r, hparse, rfl, hdoc⟩
    rw [onlineDocs_addDoc (hfree r hparse), hone, Set.union_singleton]

/-- The records of two values have different ids. -/
def OtherId (v w : DataV) : Prop :=
  ∀ r r', v.parseItem = some r → w.parseItem = some r' → r.id ≠ r'.id

/-- **The threads together** make the documents of all values, whoever takes which: the induction is on
    the queue, and no id that is still queued has a document. -/
theorem offlineDocs_indexProcess {thread : ℕ → ℕ} {values : List DataV} {n : ℕ}
    {ixs ixs' : ℕ → Index} (h : indexProcess kstem gh dt thread n ixs values = some ixs')
    (hids : values.Pairwise OtherId)
    (hfree : ∀ v ∈ values, ∀ r, v.parseItem = some r → ∀ d, (idterm r.id, d) ∉ offlineDocs dt ixs) :
    offlineDocs dt ixs' = offlineDocs dt ixs ∪ { p | ∃ v ∈ values, Makes kstem gh dt v p } := by
  induction values generalizing n ixs with
  | nil =>
    cases h
    simp
  | cons v values ih =>
    obtain ⟨ix, hv, h⟩ := Option.bind_eq_some_iff.mp h
    obtain ⟨hother, hids⟩ := List.pairwise_cons.mp hids
    obtain ⟨hv0, hrest⟩ := List.forall_mem_cons.mp hfree
    have hone : offlineDocs dt (Function.update ixs (thread n) ix) =
        offlineDocs dt ixs ∪ { p | Makes kstem gh dt v p } := by
      have hix := onlineDocs_indexValue hv fun r hr d hd => hv0 r hr d ⟨thread n, hd⟩
      ext p
      rw [Set.mem_union, mem_offlineDocs, mem_offlineDocs]
      constructor
      · rintro ⟨i, hi⟩
        by_cases hti : i = thread n
        · subst hti
          rw [Function.update_self, hix] at hi
          exact hi.imp_left fun hi => ⟨thread n, hi⟩
        · rw [Function.update_of_ne hti] at hi
          exact Or.inl ⟨i, hi⟩
      · rintro (⟨i, hi⟩ | hp)
        · by_cases hti : i = thread n
          · subst hti
            refine ⟨thread n, ?_⟩
            rw [Function.update_self, hix]
            exact Or.inl hi
          · refine ⟨i, ?_⟩
            rw [Function.update_of_ne hti]
            exact hi
        · refine ⟨thread n, ?_⟩
          rw [Function.update_self, hix]
          exact Or.inr hp
    rw [ih h hids, hone, Set.union_assoc]
    · congr 1
      ext p
      simp [List.mem_cons]
    · intro w hw r hr d hd
      rw [hone] at hd
      rcases hd with hd | ⟨r', hr', hkey, -⟩
      · exact hrest w hw r hr d hd
      · exact hother w hw r' r hr' hr (idterm_inj.mp hkey).symm

/-! ## The invariant -/

/-- **The invariant**: an item row is under the id of its record, the fences are blank, and no document
    is under the id 0. -/
structure Kept (s : SearchNode) : Prop where
  own : ∀ (dt : DataType) (k : Key) (v : DataV) (r : ItemDataT), k.keytype = dt.keytype →
    s.table.maindb.get k = some v → v.parseItem = some r → k = encodePrimaryKey dt.keytype r.id
  fences : Fences s.table.maindb
  online : ∀ (dt : DataType) (d : Document), (idterm 0, d) ∉ onlineDocs dt s.index

theorem keytype_eq (dt : DataType) : dt.keytype = dt.kind.pkey := by
  cases dt <;> rfl

/-- An item row of a transaction is the row of a record with an id of its own. -/
theorem item_row {db : DataDb} {calls : List AddCall} {items : List TransItemT}
    (h : UniqueIndex.build db calls [] = .ok (some items)) {i : TransItemT} (hi : i ∈ items)
    (hkey : i.key.keytype = dt.keytype) :
    ∃ r, i.value.parseItem = some r ∧ r.id ≠ 0 ∧ i.key = encodePrimaryKey dt.keytype r.id := by
  rcases UniqueIndex.mem_build h hi with hno | ⟨⟨kind, record, upsert⟩, -, hrow⟩
  · exact absurd hno List.not_mem_nil
  · rcases hrow with ⟨r', hr'⟩ | ⟨hid, hk, hv⟩
    · -- index rows have key types of their own
      have hukey : i.key.keytype = kind.ukey := by
        rw [hr']
        exact kind.service_lawful.single.keytype_ukey r'
      rw [hukey, keytype_eq] at hkey
      exact absurd hkey.symm (RecKind.pkey_ne_ukey dt.kind kind)
    · rw [hk, keytype_eq] at hkey
      have hkind : kind = dt.kind := RecKind.pkey_inj hkey
      subst hkind
      cases dt
      · exact ⟨record, by rw [hv]; rfl, hid, hk⟩
      · exact ⟨record, by rw [hv]; rfl, hid, hk⟩

/-- No row of a transaction is a fence. -/
theorem isFence_row {db : DataDb} {calls : List AddCall} {items : List TransItemT}
    (h : UniqueIndex.build db calls [] = .ok (some items)) {i : TransItemT} (hi : i ∈ items) :
    isFence i.key = false := by
  rcases UniqueIndex.mem_build h hi with hno | ⟨c, -, hrow⟩
  · exact absurd hno List.not_mem_nil
  · rcases hrow with ⟨r', hr'⟩ | ⟨hid, hk, -⟩
    · obtain ⟨ps, hps⟩ := c.kind.service_lawful.single.secondary r'
      rw [hr']
      exact congrArg isFence hps
    · rw [hk]
      simp [AddCall.primaryKey, encodePrimaryKey, isFence, hid]

theorem mem_onlineDocs_set {ix : Index} {lang dtyp : Int} {db : OrdMap Bytes Document}
    {key : Bytes} {d : Document} (h : (key, d) ∈ onlineDocs dt (ix.set lang dtyp db)) :
    (key, d) ∈ onlineDocs dt ix ∨ (dtyp = dt.indexType ∧ db.get key = some d) := by
  obtain ⟨l, hget⟩ := h
  unfold Index.set at hget
  split at hget
  · rename_i hl
    exact Or.inr ⟨hl.2.symm, hget⟩
  · exact Or.inl ⟨l, hget⟩

/-- Indexing or unindexing a record with an id makes no document `Q0`. -/
theorem zero_addDoc {ix : Index} {lang dtyp : Int} {id : ℕ} {doc d : Document} (hid : id ≠ 0)
    (h : (idterm 0, d) ∈ onlineDocs dt (addDoc ix lang dtyp id doc)) :
    (idterm 0, d) ∈ onlineDocs dt ix := by
  rcases mem_onlineDocs_set h with h | ⟨rfl, hget⟩
  · exact h
  · rw [OrdMap.get_put_ne _ fun he => hid (idterm_inj.mp he).symm] at hget
    exact ⟨lang, hget⟩

theorem zero_delRecord {ix : Index} {dtyp : Int} {record : ItemDataT} {d : Document}
    (h : (idterm 0, d) ∈ onlineDocs dt (delRecord ix dtyp record)) :
    (idterm 0, d) ∈ onlineDocs dt ix := by
  rcases mem_onlineDocs_set h with h | ⟨rfl, hget⟩
  · exact h
  · rw [OrdMap.get_delete] at hget
    split at hget
    · cases hget
    · exact ⟨record.lang, hget⟩

theorem zero_indexRow {ix ix' : Index} {i : TransItemT} {d : Document}
    (hrow : ∀ (dt : DataType) (r : ItemDataT), i.key.keytype = dt.keytype →
      i.value.parseItem = some r → r.id ≠ 0)
    (h : indexRow kstem gh ix i = some ix') (hd : (idterm 0, d) ∈ onlineDocs dt ix') :
    (idterm 0, d) ∈ onlineDocs dt ix := by
  unfold indexRow at h
  split at h
  · rename_i kt n hkey
    split at h
    · rename_i hkt
      split at h
      · cases h
        exact hd
      · rename_i r hparse
        have hid : r.id ≠ 0 := hrow .localdata r (by rw [hkey]; exact hkt) hparse
        split at h
        · cases h
          exact zero_delRecord hd
        · obtain ⟨doc, -, rfl⟩ := Option.map_eq_some_iff.mp h
          exact zero_addDoc hid hd
    · split at h
      · rename_i hkt
        split at h
        · cases h
          exact hd
        · rename_i r hparse
          have hid : r.id ≠ 0 := hrow .wikidata r (by rw [hkey]; exact hkt) hparse
          split at h
          · cases h
            exact zero_delRecord hd
          · obtain ⟨doc, -, rfl⟩ := Option.map_eq_some_iff.mp h
            exact zero_addDoc hid hd
      · cases h
        exact hd
  · cases h
    exact hd

theorem zero_addToIndex {noXapian : Bool} {items : List TransItemT} {ix : Index} {d : Document}
    (hrows : ∀ i ∈ items, ∀ (dt : DataType) (r : ItemDataT), i.key.keytype = dt.keytype →
      i.value.parseItem = some r → r.id ≠ 0)
    (hd : (idterm 0, d) ∈ onlineDocs dt (addToIndex kstem gh noXapian ix items)) :
    (idterm 0, d) ∈ onlineDocs dt ix := by
  unfold addToIndex at hd
  split at hd
  · exact hd
  · induction items generalizing ix with
    | nil => exact hd
    | cons i items ih =>
      obtain ⟨hrow, hrest⟩ := List.forall_mem_cons.mp hrows
      rw [indexRows] at hd
      split at hd
      · exact hd
      · rename_i ix' hix
        exact zero_indexRow hrow hix (ih hrest hd)

/-- The rows of a transaction keep the rows of items under their own ids, and the fences. -/
theorem kept_write {db : DataDb} {calls : List AddCall} {items : List TransItemT}
    (h : UniqueIndex.build db calls [] = .ok (some items))
    (hown : ∀ (dt : DataType) (k : Key) (v : DataV) (r : ItemDataT), k.keytype = dt.keytype →
      db.get k = some v → v.parseItem = some r → k = encodePrimaryKey dt.keytype r.id)
    (hf : Fences db) :
    (∀ (dt : DataType) (k : Key) (v : DataV) (r : ItemDataT), k.keytype = dt.keytype →
      (db.write (dataBatch items)).get k = some v → v.parseItem = some r →
        k = encodePrimaryKey dt.keytype r.id) ∧ Fences (db.write (dataBatch items)) := by
  constructor
  · intro dt k v r hk hget hparse
    rcases OrdMap.get_write_some hget with hold | hput
    · exact hown dt k v r hk hold hparse
    · obtain ⟨i, hi, hop⟩ := List.mem_map.mp hput
      split at hop
      · cases hop
      · obtain ⟨rfl, rfl⟩ := OrdMap.BatchOp.put.inj hop
        obtain ⟨r', hr', -, hkey⟩ := item_row h hi hk
        rw [hparse, Option.some.injEq] at hr'
        rw [hr']
        exact hkey
  · intro k hk
    rw [OrdMap.get_write_of_not_mem]
    · exact hf k hk
    · intro op hop he
      obtain ⟨i, hi, hik⟩ := mem_dataBatch_key hop
      have hno := isFence_row h hi
      rw [← hik, he, hk] at hno
      cases hno

/-- **The step lemma.** -/
theorem kept_step {s s' : SearchNode} {l : NodeStep} (hs : Kept s)
    (h : (indexedNode kstem gh).step s l = some s') : Kept s' := by
  cases l with
  | setNoXapian b =>
    cases h
    exact ⟨hs.own, hs.fences, hs.online⟩
  | batch now calls isMaster env =>
    change (match UniqueIndex.build s.table.maindb calls [] with
      | .ok (some items) =>
        (searchNode kstem gh).step s (.commit now { item := items } isMaster env)
      | _ => none) = some s' at h
    split at h
    · rename_i items hbuild
      obtain ⟨hok, hfail, -⟩ := commit_written s.table now { item := items } isMaster env
      obtain ⟨hfront, -⟩ := cacheRows_prefix s.table.noXapian env.indexFails items
      cases h
      cases hwritten : (commit s.table now { item := items } isMaster env).written with
      | true =>
        obtain ⟨hown, hf⟩ := kept_write hbuild hs.own hs.fences
        rw [← hok hwritten] at hown hf
        refine ⟨hown, hf, fun dt d hd => hs.online dt d ?_⟩
        simp only [if_true] at hd
        refine zero_addToIndex (fun i hi dt r hkey hparse => ?_) hd
        obtain ⟨r', hr', hid, -⟩ := item_row hbuild (hfront.subset hi) hkey
        rw [hparse, Option.some.injEq] at hr'
        rw [hr']
        exact hid
      | false =>
        have hsame := hfail hwritten
        refine ⟨?_, ?_, fun dt d hd => hs.online dt d ?_⟩
        · rw [hsame]
          exact hs.own
        · rw [hsame]
          exact hs.fences
        · simp only [Bool.false_eq_true, if_false] at hd
          exact hd
    · cases h

/-- **The invariant in every reachable state.** -/
theorem kept_reach {s : SearchNode} (h : (indexedNode kstem gh).Reach s) : Kept s := by
  refine h.invariant ?_ fun s l s' hs _ hstep => kept_step hs hstep
  rintro s ⟨⟨o, ho, hdb⟩, hix⟩
  have hfresh : s.table.maindb = freshDb := hdb.trans (storeInitialize_maindb ho)
  refine ⟨fun dt k v r hk hget hparse => ?_, fun k hk => ?_, ?_⟩
  · -- the only rows are fences
    rw [hfresh, get_freshDb] at hget
    split at hget
    · rename_i hfence
      cases hget
      obtain ⟨kt, -, rfl⟩ := (isFence_iff k).mp hfence
      cases hparse
      rw [← hk]
      rfl
    · cases hget
  · rw [hfresh, get_freshDb, if_pos hk]
  · rintro dt d ⟨lang, hget⟩
    rw [hix] at hget
    cases hget

/-! ## The two against each other -/

/-- **What the tool builds** from the store of a node: the documents of its rows, fence included. -/
theorem offlineDocs_runTool {s : SearchNode} (hs : Kept s) {thread : ℕ → ℕ} {ixs : ℕ → Index}
    (h : runTool kstem gh dt thread s.table.maindb s.table.logdb = some ixs) :
    offlineDocs dt ixs =
      { p | ∃ v ∈ levelProcess s.table.maindb dt.keytype, Makes kstem gh dt v p } := by
  unfold runTool at h
  split at h
  · cases h
  · rename_i o ho
    have hopen : o.maindb = s.table.maindb := by
      rw [storeInitialize_maindb ho]
      refine putFences_eq_self _ _ fun k hk => ?_
      rw [hs.fences k hk]
      rfl
    rw [hopen] at h
    have hids : (levelProcess s.table.maindb dt.keytype).Pairwise OtherId := by
      rw [levelProcess_eq, List.pairwise_map]
      refine ((OrdMap.seek_sorted _ _).filter _).imp_of_mem ?_
      rintro ⟨k, v⟩ ⟨k', v'⟩ hrow hrow' hlt r r' hr hr' hid
      -- both rows are under the id of their record
      have hown : ∀ {k v r}, (k, v) ∈ (s.table.maindb.seek (encodePrimaryKey dt.keytype 0)).filter
          (fun row => row.1.keytype = dt.keytype) → v.parseItem = some r →
            k = encodePrimaryKey dt.keytype r.id := by
        intro k v r hrow hr
        obtain ⟨hseek, hkt⟩ := List.mem_filter.mp hrow
        exact hs.own dt k v r (of_decide_eq_true hkt) ((OrdMap.mem_seek _).mp hseek).2 hr
      have hkey := hown hrow hr
      have hkey' := hown hrow' hr'
      rw [hkey, hkey', hid] at hlt
      exact lt_irrefl _ hlt
    rw [offlineDocs_indexProcess h hids]
    · have hnone : offlineDocs dt (fun _ _ _ => OrdMap.empty) = ∅ := by
        refine Set.eq_empty_of_forall_notMem ?_
        rintro p ⟨i, lang, hget⟩
        cases hget
      rw [hnone, Set.empty_union]
    · rintro v - r - d ⟨i, lang, hget⟩
      cases hget

/-- The record an empty value is read as becomes a document. -/
theorem createDoc_blank : ∃ doc, dt.createDoc kstem gh {} = some doc := by
  have hcoords : latLongCoord ({} : ItemDataT).lat ({} : ItemDataT).lon = some (0, 0) := by
    decide
  have hdoc : ∀ terms, ∃ doc, documentOf gh {} terms = some doc := by
    intro terms
    unfold documentOf
    rw [hcoords]
    exact ⟨_, rfl⟩
  cases dt
  · exact hdoc _
  · exact hdoc _

/-- **One document for every record, and one more**: the one of the fence. -/
theorem offlineDocs_eq_insert {s : SearchNode} (hs : Kept s) {thread : ℕ → ℕ} {ixs : ℕ → Index}
    (h : runTool kstem gh dt thread s.table.maindb s.table.logdb = some ixs) :
    ∃ blankDoc, dt.createDoc kstem gh {} = some blankDoc ∧
      offlineDocs dt ixs = insert (idterm 0, blankDoc)
        { p | ∃ v r, s.table.maindb.get (encodePrimaryKey dt.keytype r.id) = some v ∧
          v.parseItem = some r ∧ r.id ≠ 0 ∧ p.1 = idterm r.id ∧
          dt.createDoc kstem gh r = some p.2 } := by
  obtain ⟨blankDoc, hblank⟩ := @createDoc_blank kstem gh dt
  have hfence : isFence (encodePrimaryKey dt.keytype 0) = true := by
    cases dt <;> rfl
  have hzero := hs.fences _ hfence
  refine ⟨blankDoc, hblank, ?_⟩
  rw [offlineDocs_runTool hs h]
  ext ⟨key, d⟩
  rw [Set.mem_insert_iff, Prod.mk.injEq]
  constructor
  · rintro ⟨v, hv, r, hr, rfl, hd⟩
    rw [levelProcess_eq, List.mem_map] at hv
    obtain ⟨⟨k, v'⟩, hrow, rfl⟩ := hv
    obtain ⟨hseek, hkt⟩ := List.mem_filter.mp hrow
    have hget := ((OrdMap.mem_seek _).mp hseek).2
    rw [hs.own dt k v' r (of_decide_eq_true hkt) hget hr] at hget
    by_cases hid : r.id = 0
    · -- the row at id 0 is the fence
      rw [hid, hzero] at hget
      cases hget
      cases hr
      rw [hblank] at hd
      exact Or.inl ⟨rfl, (Option.some.inj hd).symm⟩
    · exact Or.inr ⟨v', r, hget, hr, hid, rfl, hd⟩
  · rintro (⟨rfl, rfl⟩ | ⟨v, r, hget, hr, -, hkey, hd⟩)
    · exact ⟨.blank, mem_levelProcess hzero, {}, rfl, rfl, hblank⟩
    · exact ⟨v, mem_levelProcess hget, r, hr, hkey, hd⟩

/-- What the tool has built is never what the node holds. -/
theorem offline_ne_online {s : SearchNode} (hs : Kept s) {thread : ℕ → ℕ} {ixs : ℕ → Index}
    (h : runTool kstem gh dt thread s.table.maindb s.table.logdb = some ixs) :
    offlineDocs dt ixs ≠ onlineDocs dt s.index := by
  obtain ⟨blankDoc, -, hdocs⟩ := offlineDocs_eq_insert hs h
  intro he
  refine hs.online dt blankDoc ?_
  rw [← he, hdocs]
  exact Set.mem_insert _ _

variable (kstem gh dt)

/-- **Offline and online indexing never agree**, in no reachable state, for no type of data and under
    no schedule of the threads. -/
theorem offline_never_agrees {s : SearchNode} (h : (indexedNode kstem gh).Reach s)
    (thread : ℕ → ℕ) : ¬ Agree kstem gh dt s thread := by
  rintro ⟨ixs, hrun, hsame⟩
  exact offline_ne_online (kept_reach h) hrun hsame

end

/-! ## A store with one place -/

/-- A new master. -/
def freshNode : SearchNode :=
  ⟨{ isMaster := true, maindb := freshDb, logdb := freshLog }, fun _ _ => OrdMap.empty⟩

/-- The commit of one place. -/
def commitInn : NodeStep :=
  .batch 1 [⟨.localdata, { id := 5, uniqueId := str "inn", fldName := str "inn" }, false⟩] true {}

theorem init_freshNode (kstem : Bytes → Bytes) (gh : GeoHash) :
    (indexedNode kstem gh).init freshNode := by
  have hrows : ∀ (V : Type) (k : Key) (v : V), (OrdMap.empty : OrdMap Key V).get k = some v →
      k.keytype ≤ kMaxnode → ∃ id, k = .primary k.keytype id := by
    intro V k v hget
    cases hget
  obtain ⟨p, l, hspec, -⟩ := storeInitialize_spec (hrows DataV) (hrows LogV)
  exact ⟨⟨_, hspec, rfl⟩, rfl⟩

/-- The node indexes the place, the tool the place and the fence. -/
theorem inn_disagrees :
    ∃ s, (indexedNode id noGeoHash).exec freshNode [commitInn] = some s ∧
      (indexedNode id noGeoHash).Reach s ∧
      (s.index.documents langEn iLocaldata).map (·.rocksid) = [5] ∧
      ((runTool id noGeoHash .localdata (fun _ => 3) s.table.maindb s.table.logdb).map fun ixs =>
        ((ixs 3).documents langEn iLocaldata).map (·.rocksid)) = some [0, 5] ∧
      ¬ Agree id noGeoHash .localdata s (fun _ => 3) := by
  have hrun : ((indexedNode id noGeoHash).exec freshNode [commitInn]).map (fun s =>
      ((s.index.documents langEn iLocaldata).map (·.rocksid),
        (runTool id noGeoHash .localdata (fun _ => 3) s.table.maindb s.table.logdb).map fun ixs =>
          ((ixs 3).documents langEn iLocaldata).map (·.rocksid))) = some ([5], some [0, 5]) := by
    decide +kernel
  obtain ⟨s, he, hdocs⟩ := Option.map_eq_some_iff.mp hrun
  obtain ⟨honline, hoffline⟩ := Prod.mk.inj hdocs
  have hreach : (indexedNode id noGeoHash).Reach s :=
    Machine.Reach.of_exec (init_freshNode id noGeoHash) he
  refine ⟨s, he, hreach, honline, hoffline, ?_⟩
  rintro ⟨ixs, htool, hsame⟩
  exact offline_ne_online (kept_reach hreach) htool hsame

theorem offline_never_agrees_inn :
    ∃ s, (indexedNode id noGeoHash).exec freshNode [commitInn] = some s ∧
      ¬ Agree id noGeoHash .localdata s (fun _ => 0) := by
  have hrun : ((indexedNode id noGeoHash).exec freshNode [commitInn]).isSome = true := by
    decide +kernel
  obtain ⟨s, he⟩ := Option.isSome_iff_exists.mp hrun
  exact ⟨s, he, offline_never_agrees id noGeoHash .localdata
    (Machine.Reach.of_exec (init_freshNode id noGeoHash) he) (fun _ => 0)⟩

end XapIndex

end Zapdos.Search
