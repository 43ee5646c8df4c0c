/-
  Unique keys — index rows and records over any sequence of batches.

  `AddRecord` finds the rows of an index by comparing the record with the stored one of the same id:
  an update that changes the unique key deletes the old index row and puts a new one.  It looks at
  the database as it is, not at what other calls have put into the same batch.

  THE CRUX.  A call refuses a key whose index row leads to another record.  So the index row that one
  call of a batch deletes is never the one that another call puts: as long as ids and keys inside a
  batch differ, the rows of its records can be written one record after the other (`Ready.write`).
-/
import Zapdos.Lib.Runs
import Zapdos.Store.RecordKinds

namespace Zapdos.Store

open Zapdos.Lib

/-! ## One record, whose key may change -/

namespace StoreTable

variable {T : Type} {t : StoreTable T} {u : KeyTypeE}

/-- The rows `AddRecord` adds for a record that replaces `old`. -/
def recordRows (t : StoreTable T) (u : KeyTypeE) (old : Option T) (r : T) : List TransItemT :=
  t.indexRows r old u ++ [{ key := encodePrimaryKey t.primaryKey (t.id r), value := t.serialize r }]

/-- What `AddRecord` makes sure of: `old` is the record with this id, and the key is free or leads to
    this id. -/
structure Ready (t : StoreTable T) (u : KeyTypeE) (db : DataDb) (old : Option T) (r : T) : Prop where
  id_ne : t.id r ≠ 0
  stored : db.get (encodePrimaryKey t.primaryKey (t.id r)) = old.map t.serialize
  clear : ∀ v, db.get (t.getKey r u) = some v → v = .node (t.nodeOf (t.id r))

/-- The rows of an index are under keys of it. -/
theorem mem_indexRows {r : T} {old : Option T} {i : TransItemT} (h : i ∈ t.indexRows r old u) :
    ∃ r', i.key = t.getKey r' u := by
  unfold indexRows at h
  cases old with
  | none =>
    rw [List.mem_singleton.mp h]
    exact ⟨r, rfl⟩
  | some o =>
    simp only at h
    split at h
    · rcases List.mem_cons.mp h with rfl | h
      · exact ⟨o, rfl⟩
      · rw [List.mem_singleton.mp h]
        exact ⟨r, rfl⟩
    · cases h

/-- An index row is deleted, or holds the node of the record. -/
theorem indexRows_value {r : T} {old : Option T} {i : TransItemT} (h : i ∈ t.indexRows r old u) :
    i.toDel = true ∨ i.value = .node (t.nodeOf (t.id r)) := by
  unfold indexRows at h
  cases old with
  | none =>
    rw [List.mem_singleton.mp h]
    exact Or.inr rfl
  | some o =>
    simp only at h
    split at h
    · rcases List.mem_cons.mp h with rfl | h
      · exact Or.inl rfl
      · rw [List.mem_singleton.mp h]
        exact Or.inr rfl
    · cases h

namespace SingleKey

variable (ht : t.SingleKey u) {db : DataDb} (hok : TableOk t u db)

include ht hok

/-- **`AddRecord`**, when it returns true. -/
theorem addRecord_ok {r : T} {items items' : List TransItemT} {upsert : Bool}
    (h : t.addRecord db r items upsert = .ok (some items')) :
    ∃ old, Ready t u db old r ∧ items' = items ++ t.recordRows u old r := by
  rw [addRecord] at h
  split at h
  · cases h
  · split at h
    · cases h
    · rename_i hid
      have hclear : t.clashes db r u = false → ∀ v, db.get (t.getKey r u) = some v →
          v = .node (t.nodeOf (t.id r)) := by
        intro hclash v hv
        obtain ⟨r', rfl, -⟩ := hok.index _ v hv (ht.keytype_ukey r)
        have hnode : t.getSecondaryValue db r u = some (t.nodeOf (t.id r')) := by
          simp [getSecondaryValue, ht.unique, hv, DataV.parseNode]
        rw [clashes, hnode] at hclash
        have hsame : t.id r = t.id r' := by
          by_contra hne
          simp [nodeOf, hne] at hclash
        rw [hsame]
      have hprimary : t.getKey r t.primaryKey = encodePrimaryKey t.primaryKey (t.id r) :=
        ht.primary r
      rcases ht.getOne_primary hok hid with ⟨hnone, hone⟩ | ⟨old, hold, hsame, hone⟩
      · simp only [hone, bind, Except.bind, Bool.false_and, Bool.false_eq_true, if_false, ht.unique,
          List.any_cons, List.any_nil, Bool.or_false, ht.index, List.append_nil,
          List.flatMap_cons, List.flatMap_nil, pure, Except.pure] at h
        split at h
        · cases h
        · rename_i hclash
          refine ⟨none, ⟨hid, hnone, hclear (by simpa using hclash)⟩, ?_⟩
          simp only [Except.ok.injEq, Option.some.injEq] at h
          rw [← h, recordRows, hprimary, List.append_assoc]
      · simp only [hone, bind, Except.bind, Bool.true_and, ht.unique, List.any_cons, List.any_nil,
          Bool.or_false, ht.index, List.append_nil, List.flatMap_cons, List.flatMap_nil, if_true,
          pure, Except.pure] at h
        split at h
        · cases h
        · split at h
          · cases h
          · rename_i hclash
            refine ⟨some old, ⟨hid, hold, hclear (by simpa using hclash)⟩, ?_⟩
            simp only [Except.ok.injEq, Option.some.injEq] at h
            rw [← h, recordRows, hprimary, List.append_assoc]

omit hok in
/-- The rows of a call, whatever the tables hold. -/
theorem addRecord_items {r : T} {items items' : List TransItemT} {upsert : Bool}
    (h : t.addRecord db r items upsert = .ok (some items')) :
    t.id r ≠ 0 ∧ ∃ old, items' = items ++ t.recordRows u old r := by
  rw [addRecord] at h
  split at h
  · cases h
  · split at h
    · cases h
    · rename_i hid
      obtain ⟨⟨found, old⟩, -, h⟩ := bind_eq_ok.mp h
      dsimp only at h
      split at h
      · cases h
      · split at h
        · cases h
        · simp only [pure, Except.pure, Except.ok.injEq, Option.some.injEq, ht.unique, ht.index,
            List.append_nil, List.flatMap_cons, List.flatMap_nil] at h
          refine ⟨hid, if found = true then some old else none, ?_⟩
          rw [← h, recordRows, ht.primary r, List.append_assoc]

/-- A stored record that is replaced has its index row. -/
theorem ready_old {old r : T} (h : Ready t u db (some old) r) :
    t.id old = t.id r ∧ db.get (t.getKey old u) = some (.node (t.nodeOf (t.id r))) := by
  obtain ⟨hid, hfind⟩ := ht.find_of_record hok h.id_ne h.stored
  obtain ⟨-, -, -, hrow⟩ := (ht.find_eq_some hok (ht.keytype_ukey old)).mp hfind
  exact ⟨hid, hid ▸ hrow⟩

/-- The rows after a record is written. -/
theorem get_write_record {old : Option T} {r : T} (h : Ready t u db old r) (k : Key) :
    (db.write (dataBatch (t.recordRows u old r))).get k =
      if k = encodePrimaryKey t.primaryKey (t.id r) then some (t.serialize r)
      else if k = t.getKey r u then some (.node (t.nodeOf (t.id r)))
      else if old.any (fun o => k = t.getKey o u) then none
      else db.get k := by
  rw [recordRows, dataBatch, List.map_append, OrdMap.write_append]
  simp only [List.map_cons, List.map_nil, Bool.false_eq_true, if_false, OrdMap.write,
    List.foldl_cons, List.foldl_nil, OrdMap.get_apply, OrdMap.BatchOp.key, OrdMap.BatchOp.result]
  by_cases hp : k = encodePrimaryKey t.primaryKey (t.id r)
  · simp [hp]
  · simp only [hp, if_false]
    cases old with
    | none =>
      by_cases hk : k = t.getKey r u <;>
        simp [indexRows, OrdMap.get_apply, OrdMap.BatchOp.key, OrdMap.BatchOp.result, nodeOf, hk]
    | some o =>
      obtain ⟨-, hrow⟩ := ht.ready_old hok h
      by_cases hkey : t.getKey o u = t.getKey r u
      · by_cases hk : k = t.getKey r u
        · subst hk
          simp [indexRows, hkey, hkey ▸ hrow]
        · simp [indexRows, hkey, hk]
      · simp only [indexRows, ne_eq, hkey, not_false_iff, if_true, List.map_cons, List.map_nil,
          List.foldl_cons, List.foldl_nil, OrdMap.get_apply, OrdMap.BatchOp.key,
          OrdMap.BatchOp.result]
        by_cases hk : k = t.getKey r u
        · simp [hk, nodeOf]
        · by_cases hk' : k = t.getKey o u
          · simp [hk', hkey]
          · simp [hk, hk']

/-- Writing a record that is ready keeps the table in order. -/
theorem tableOk_write_record {old : Option T} {r : T} (h : Ready t u db old r) :
    TableOk t u (db.write (dataBatch (t.recordRows u old r))) := by
  have hget := ht.get_write_record hok h
  have hother : ∀ r', t.getKey r' u ≠ t.getKey r u →
      (∀ o, old = some o → t.getKey r' u ≠ t.getKey o u) →
      (db.write (dataBatch (t.recordRows u old r))).get (t.getKey r' u) =
        db.get (t.getKey r' u) := by
    intro r' hne hold
    rw [hget, if_neg (ht.ukey_ne_primary _ _ _), if_neg hne, if_neg]
    cases old with
    | none => exact Bool.false_ne_true
    | some o => simpa using hold o rfl
  have hprimary : ∀ i, i ≠ t.id r →
      (db.write (dataBatch (t.recordRows u old r))).get (encodePrimaryKey t.primaryKey i) =
        db.get (encodePrimaryKey t.primaryKey i) := by
    intro i hi
    have hne : ∀ r', encodePrimaryKey t.primaryKey i ≠ t.getKey r' u :=
      fun r' => Ne.symm (ht.ukey_ne_primary _ _ _)
    rw [hget, if_neg (fun he => hi (encodePrimaryKey_inj.mp he)), if_neg (hne r), if_neg]
    cases old with
    | none => exact Bool.false_ne_true
    | some o => simpa using hne o
  constructor
  · intro k v hv hk
    rw [hget] at hv
    split at hv
    · rename_i hp
      rw [hp] at hk
      exact absurd hk ht.pkey_ne_ukey
    · split at hv
      · rename_i hkey
        refine ⟨r, (Option.some.inj hv).symm, h.id_ne, ?_, hkey.symm⟩
        rw [hget, if_pos rfl]
      · split at hv
        · cases hv
        · rename_i hno
          obtain ⟨r', rfl, hid, hrow, rfl⟩ := hok.index k v hv hk
          refine ⟨r', rfl, hid, ?_, rfl⟩
          -- a record with this id would be the one that is replaced, and its key is gone
          have hne : t.id r' ≠ t.id r := by
            intro he
            rw [he, h.stored] at hrow
            obtain ⟨o, rfl, hser⟩ := Option.map_eq_some_iff.mp hrow
            have hsame := congrArg t.parse hser
            rw [ht.parse_serialize, ht.parse_serialize, Option.some.injEq] at hsame
            exact hno (by simp [hsame])
          rw [hprimary _ hne]
          exact hrow
  · intro i v hv hi
    by_cases hir : i = t.id r
    · subst hir
      rw [hget, if_pos rfl] at hv
      refine ⟨r, (Option.some.inj hv).symm, rfl, ?_⟩
      rw [hget, if_neg (ht.ukey_ne_primary _ _ _), if_pos rfl]
    · rw [hprimary i hir] at hv
      obtain ⟨r', rfl, hid, hrow⟩ := hok.record i v hv hi
      have hnode : ∀ j, (DataV.node (t.nodeOf i) = .node (t.nodeOf j)) → i = j := by
        intro j he
        simpa [nodeOf] using he
      refine ⟨r', rfl, hid, ?_⟩
      rw [hother r']
      · exact hrow
      · -- the index row of another record is neither put
        intro he
        exact hir (hnode _ (h.clear _ (he ▸ hrow)))
      · -- nor deleted
        rintro o rfl he
        have hrow' := (ht.ready_old hok h).2
        rw [← he, hrow, Option.some.injEq] at hrow'
        exact hir (hnode _ hrow')

/-- **A record stays ready** when one with another id and another key is written. -/
theorem Ready.write {old old' : Option T} {r r' : T} (h : Ready t u db old r)
    (h' : Ready t u db old' r') (hid : t.id r ≠ t.id r') (hkey : t.getKey r u ≠ t.getKey r' u) :
    Ready t u (db.write (dataBatch (t.recordRows u old r))) old' r' := by
  have hget := ht.get_write_record hok h
  refine ⟨h'.id_ne, ?_, fun v hv => ?_⟩
  · have hne : ∀ o, encodePrimaryKey t.primaryKey (t.id r') ≠ t.getKey o u :=
      fun o => Ne.symm (ht.ukey_ne_primary _ _ _)
    rw [hget, if_neg (fun he => hid (encodePrimaryKey_inj.mp he).symm), if_neg (hne r), if_neg]
    · exact h'.stored
    · cases old with
      | none => exact Bool.false_ne_true
      | some o => simpa using hne o
  · rw [hget, if_neg (ht.ukey_ne_primary _ _ _), if_neg (Ne.symm hkey)] at hv
    split at hv
    · cases hv
    · exact h'.clear v hv

omit hok in
/-- Records of other tables neither put nor delete rows of this one. -/
theorem get_write_record_other {old : Option T} {r : T} {k : Key} (hp : k.keytype ≠ t.primaryKey)
    (hu : k.keytype ≠ u) :
    (db.write (dataBatch (t.recordRows u old r))).get k = db.get k := by
  refine OrdMap.get_write_of_not_mem db fun op hop he => ?_
  obtain ⟨i, hi, hik⟩ := mem_dataBatch_key hop
  rw [he] at hik
  rcases List.mem_append.mp hi with hi | hi
  · obtain ⟨r', hr'⟩ := mem_indexRows hi
    rw [hik, hr'] at hu
    exact hu (ht.keytype_ukey r')
  · rw [List.mem_singleton.mp hi] at hik
    exact hp (by rw [hik]; rfl)

omit hok in
/-- The rows of a record are no fences. -/
theorem isFence_recordRows {old : Option T} {r : T} (hid : t.id r ≠ 0) :
    ∀ i ∈ t.recordRows u old r, isFence i.key = false := by
  have hsec : ∀ r', isFence (t.getKey r' u) = false := by
    intro r'
    obtain ⟨ps, hps⟩ := ht.secondary r'
    rw [hps]
    rfl
  intro i hi
  rcases List.mem_append.mp hi with hi | hi
  · obtain ⟨r', hr'⟩ := mem_indexRows hi
    rw [hr']
    exact hsec r'
  · rw [List.mem_singleton.mp hi]
    simp [isFence, encodePrimaryKey, hid]

end SingleKey

end StoreTable

namespace UniqueIndex

/-! ## Batches -/

/-- One call of `AddRecord`. -/
structure AddCall where
  kind : RecKind
  record : kind.Rec
  upsert : Bool

namespace AddCall

/-- The key of the record's own row. -/
def primaryKey (c : AddCall) : Key :=
  encodePrimaryKey c.kind.pkey (c.kind.service.table.id c.record)

/-- The unique key. -/
def uniqueKey (c : AddCall) : Key := c.kind.service.key c.record

/-- The call. -/
def addRecord (c : AddCall) (db : DataDb) (items : List TransItemT) :
    Except Exc (Option (List TransItemT)) :=
  c.kind.service.table.addRecord db c.record items c.upsert

end AddCall

/-- A transaction built by several calls; it is given up when one of them fails. -/
def build (db : DataDb) : List AddCall → List TransItemT → Except Exc (Option (List TransItemT))
  | [], items => .ok (some items)
  | c :: cs, items => do
    match ← c.addRecord db items with
    | none => pure none
    | some items => build db cs items

/-- Ids and unique keys differ inside the batch. -/
def Distinct (cs : List AddCall) : Prop :=
  cs.Pairwise fun c c' => c.primaryKey ≠ c'.primaryKey ∧ c.uniqueKey ≠ c'.uniqueKey

instance (cs : List AddCall) : Decidable (Distinct cs) :=
  inferInstanceAs (Decidable (cs.Pairwise _))

/-- A batch, with the status of its write. -/
structure Batch where
  calls : List AddCall
  dataOk : Bool

/-- The calls against the records as they are, then `CommitData`. -/
def step (st : SharedTable) (b : Batch) : Option SharedTable :=
  if Distinct b.calls then
    match build st.maindb b.calls [] with
    | .ok (some items) => some (commitData st { item := items } b.dataOk).1
    | _ => none
  else none

/-- Runs start from records made by `Initialize`. -/
def machine : Machine SharedTable Batch where
  init st := ∃ o, storeInitialize OrdMap.empty OrdMap.empty = .ok o ∧ st.maindb = o.maindb
  step := step

/-- **Index and records match**, no two records share a unique key, and the fences are there. -/
structure Sound (db : DataDb) : Prop where
  /-- a record with an id has its unique-key entry -/
  record : ∀ (k : RecKind) (i : Nat) (v : DataV), i ≠ 0 →
    db.get (encodePrimaryKey k.pkey i) = some v →
      ∃ r, v = k.service.table.serialize r ∧ k.service.table.id r = i ∧
        db.get (k.service.key r) = some (.node { keytype := k.pkey, id := i })
  /-- a unique-key entry leads to a record with this key -/
  entry : ∀ (k : RecKind) (key : Key) (v : DataV), key.keytype = k.ukey → db.get key = some v →
    ∃ i r, i ≠ 0 ∧ v = .node { keytype := k.pkey, id := i } ∧
      db.get (encodePrimaryKey k.pkey i) = some (k.service.table.serialize r) ∧
      k.service.table.id r = i ∧ k.service.key r = key
  unique : ∀ (k : RecKind) (i j : Nat) (r r' : k.Rec), i ≠ 0 → j ≠ 0 →
    db.get (encodePrimaryKey k.pkey i) = some (k.service.table.serialize r) →
    db.get (encodePrimaryKey k.pkey j) = some (k.service.table.serialize r') →
    k.service.key r = k.service.key r' → i = j
  fences : ∀ kt, kNonode ≤ kt → kt ≤ kMaxnode → db.get (encodePrimaryKey kt 0) = some .blank

/-! ## The invariant -/

/-- The rows of the fences. -/
def Fences (db : DataDb) : Prop := ∀ k, isFence k = true → db.get k = some .blank

/-- A call with the record it replaces. -/
structure Prepared where
  call : AddCall
  old : Option call.kind.Rec

namespace Prepared

def rows (p : Prepared) : List TransItemT :=
  p.call.kind.service.table.recordRows p.call.kind.ukey p.old p.call.record

def Ready (p : Prepared) (db : DataDb) : Prop :=
  StoreTable.Ready p.call.kind.service.table p.call.kind.ukey db p.old p.call.record

theorem single (p : Prepared) : p.call.kind.service.table.SingleKey p.call.kind.ukey :=
  p.call.kind.service_lawful.single

/-- Rows of one kind are no rows of another. -/
theorem get_write_other (p : Prepared) {k : RecKind} (hk : k ≠ p.call.kind) (db : DataDb) {key : Key}
    (hkey : key.keytype = k.pkey ∨ key.keytype = k.ukey) :
    (db.write (dataBatch p.rows)).get key = db.get key := by
  refine p.single.get_write_record_other ?_ ?_
  · rcases hkey with hkey | hkey <;> rw [hkey]
    · exact fun he => hk (RecKind.pkey_inj he)
    · exact fun he => RecKind.pkey_ne_ukey p.call.kind k he.symm
  · rcases hkey with hkey | hkey <;> rw [hkey]
    · exact RecKind.pkey_ne_ukey k p.call.kind
    · exact fun he => hk (RecKind.ukey_inj he)

/-- One record keeps all tables in order. -/
theorem storeOk {p : Prepared} {db : DataDb} (hok : StoreOk db) (h : p.Ready db) :
    StoreOk (db.write (dataBatch p.rows)) := by
  intro k
  by_cases hk : k = p.call.kind
  · subst hk
    exact p.single.tableOk_write_record (hok _) h
  · exact k.service_lawful.single.tableOk_congr (hok k) fun key hkey => p.get_write_other hk db hkey

theorem fences {p : Prepared} {db : DataDb} (hf : Fences db) (h : p.Ready db) :
    Fences (db.write (dataBatch p.rows)) := by
  intro k hk
  rw [OrdMap.get_write_of_not_mem]
  · exact hf k hk
  · intro op hop he
    obtain ⟨i, hi, hik⟩ := mem_dataBatch_key hop
    have hno := p.single.isFence_recordRows h.id_ne i hi
    rw [← hik, he, hk] at hno
    cases hno

/-- A record of a batch stays ready when another one is written. -/
theorem Ready.write {p q : Prepared} {db : DataDb} (hok : StoreOk db) (hp : p.Ready db)
    (hq : q.Ready db) (hid : p.call.primaryKey ≠ q.call.primaryKey)
    (hkey : p.call.uniqueKey ≠ q.call.uniqueKey) : q.Ready (db.write (dataBatch p.rows)) := by
  by_cases hk : q.call.kind = p.call.kind
  · obtain ⟨⟨k, r, upsert⟩, old⟩ := p
    obtain ⟨⟨k', r', upsert'⟩, old'⟩ := q
    have hk' : k' = k := hk
    subst hk'
    refine StoreTable.SingleKey.Ready.write (single ⟨⟨k', r, upsert⟩, old⟩) (hok k') hp hq ?_ hkey
    intro he
    exact hid (congrArg (encodePrimaryKey k'.pkey) he)
  · have hsame : ∀ key : Key, key.keytype = q.call.kind.pkey ∨ key.keytype = q.call.kind.ukey →
        (db.write (dataBatch p.rows)).get key = db.get key :=
      fun key h => p.get_write_other hk db h
    refine ⟨hq.id_ne, (hsame _ (Or.inl rfl)).trans hq.stored, fun v hv => hq.clear v ?_⟩
    rw [← hsame _ (Or.inr (q.single.keytype_ukey _))]
    exact hv

end Prepared

/-- **The rows of a transaction** are those of its calls, whatever the tables hold. -/
theorem build_items {db : DataDb} {cs : List AddCall} {items items' : List TransItemT}
    (h : build db cs items = .ok (some items')) :
    ∃ ps : List Prepared, ps.map Prepared.call = cs ∧
      (∀ p ∈ ps, p.call.kind.service.table.id p.call.record ≠ 0) ∧
      items' = items ++ ps.flatMap Prepared.rows := by
  induction cs generalizing items with
  | nil =>
    rw [build, Except.ok.injEq, Option.some.injEq] at h
    exact ⟨[], rfl, fun p hp => absurd hp List.not_mem_nil, by simp [h]⟩
  | cons c cs ih =>
    rw [build] at h
    obtain ⟨out, hcall, h⟩ := bind_eq_ok.mp h
    cases out with
    | none => cases h
    | some items₁ =>
      obtain ⟨hid, old, rfl⟩ := c.kind.service_lawful.single.addRecord_items hcall
      obtain ⟨ps, hps, hall, hitems⟩ := ih h
      refine ⟨⟨c, old⟩ :: ps, by rw [List.map_cons, hps], List.forall_mem_cons.mpr ⟨hid, hall⟩, ?_⟩
      rw [hitems, List.flatMap_cons, ← List.append_assoc]
      rfl

/-- Every row of a transaction is an index row or the row of one of the calls. -/
theorem mem_build {db : DataDb} {cs : List AddCall} {items items' : List TransItemT}
    (h : build db cs items = .ok (some items')) {i : TransItemT} (hi : i ∈ items') :
    i ∈ items ∨ ∃ c ∈ cs, (∃ r', i.key = c.kind.service.table.getKey r' c.kind.ukey) ∨
      (c.kind.service.table.id c.record ≠ 0 ∧ i.key = c.primaryKey ∧
        i.value = c.kind.service.table.serialize c.record) := by
  obtain ⟨ps, rfl, hid, rfl⟩ := build_items h
  rcases List.mem_append.mp hi with hi | hi
  · exact Or.inl hi
  · obtain ⟨p, hp, hrow⟩ := List.mem_flatMap.mp hi
    refine Or.inr ⟨p.call, List.mem_map_of_mem hp, ?_⟩
    rcases List.mem_append.mp hrow with hindex | hrecord
    · exact Or.inl (StoreTable.mem_indexRows hindex)
    · rw [List.mem_singleton.mp hrecord]
      exact Or.inr ⟨hid p hp, rfl, rfl⟩

/-- **The calls of a batch**, when all of them return true. -/
theorem build_ok {db : DataDb} (hok : StoreOk db) {cs : List AddCall} {items items' : List TransItemT}
    (h : build db cs items = .ok (some items')) :
    ∃ ps : List Prepared, ps.map Prepared.call = cs ∧ (∀ p ∈ ps, p.Ready db) ∧
      items' = items ++ ps.flatMap Prepared.rows := by
  induction cs generalizing items with
  | nil =>
    rw [build, Except.ok.injEq, Option.some.injEq] at h
    exact ⟨[], rfl, fun p hp => absurd hp List.not_mem_nil, by simp [h]⟩
  | cons c cs ih =>
    rw [build] at h
    obtain ⟨out, hcall, h⟩ := bind_eq_ok.mp h
    cases out with
    | none => cases h
    | some items₁ =>
      obtain ⟨old, hready, rfl⟩ := c.kind.service_lawful.single.addRecord_ok (hok c.kind) hcall
      obtain ⟨ps, hps, hall, hitems⟩ := ih h
      refine ⟨⟨c, old⟩ :: ps, by rw [List.map_cons, hps], List.forall_mem_cons.mpr ⟨hready, hall⟩, ?_⟩
      rw [hitems, List.flatMap_cons, ← List.append_assoc]
      rfl

/-- **A batch keeps the invariant**: its records can be written one after the other. -/
theorem write_batch {db : DataDb} (hok : StoreOk db) (hf : Fences db) {ps : List Prepared}
    (hready : ∀ p ∈ ps, p.Ready db) (hdist : Distinct (ps.map Prepared.call)) :
    StoreOk (db.write (dataBatch (ps.flatMap Prepared.rows))) ∧
      Fences (db.write (dataBatch (ps.flatMap Prepared.rows))) := by
  induction ps generalizing db with
  | nil => exact ⟨hok, hf⟩
  | cons p ps ih =>
    obtain ⟨hp, hrest⟩ := List.forall_mem_cons.mp hready
    obtain ⟨hhead, htail⟩ := List.pairwise_cons.mp hdist
    rw [List.flatMap_cons, dataBatch, List.map_append, OrdMap.write_append]
    refine ih (Prepared.storeOk hok hp) (Prepared.fences hf hp) (fun q hq => ?_) htail
    obtain ⟨hid, hkey⟩ := hhead q.call (List.mem_map_of_mem hq)
    exact Prepared.Ready.write hok hp (hrest q hq) hid hkey

/-- **The step lemma.** -/
theorem step_inv {st st' : SharedTable} {b : Batch} (hok : StoreOk st.maindb) (hf : Fences st.maindb)
    (hs : step st b = some st') : StoreOk st'.maindb ∧ Fences st'.maindb := by
  rw [step] at hs
  split at hs
  · rename_i hdist
    split at hs
    · rename_i items hbuild
      cases hs
      obtain ⟨ps, hps, hready, hitems⟩ := build_ok hok hbuild
      rw [List.nil_append] at hitems
      rw [commitData]
      split
      · exact ⟨hok, hf⟩
      · split
        · simp only [hitems]
          exact write_batch hok hf hready (hps ▸ hdist)
        · exact ⟨hok, hf⟩
    · cases hs
  · cases hs

/-- The invariant says that index and records match. -/
theorem sound_of_inv {db : DataDb} (hok : StoreOk db) (hf : Fences db) : Sound db where
  record k i v hi hv := hok k |>.record i v hv hi
  entry k key v hk hv := by
    obtain ⟨r, hr, hid, hrow, hkey⟩ := (hok k).index key v hv hk
    exact ⟨k.service.table.id r, r, hid, hr, hrow, rfl, hkey⟩
  unique k i j r r' hi hj hr hr' hkey := by
    obtain ⟨hid, hfind⟩ := k.service_lawful.single.find_of_record (hok k) hi hr
    obtain ⟨hid', hfind'⟩ := k.service_lawful.single.find_of_record (hok k) hj hr'
    have hsame : k.service.table.find db (k.service.key r) = some r := hfind
    rw [hkey] at hsame
    have he : r = r' := Option.some.inj (hsame.symm.trans hfind')
    rw [← hid, ← hid', he]
  fences kt h1 h2 := by
    refine hf _ ((isFence_iff _).mpr ⟨kt, ?_, rfl⟩)
    rw [fenceTypes, List.mem_range'_1]
    exact ⟨h1, show kt < 10 + (50 - 10 + 1) from Nat.lt_succ_of_le h2⟩

/-- `Initialize` on two new databases. -/
theorem init_maindb {st : SharedTable} (h : machine.init st) : st.maindb = freshDb := by
  have hrows : ∀ (V : Type) (k : Key) (v : V), (OrdMap.empty : OrdMap Key V).get k = some v →
      k.keytype ≤ kMaxnode → ∃ id, k = .primary k.keytype id := nofun
  obtain ⟨o, ho, hdb⟩ := h
  obtain ⟨p, l, hspec, -⟩ := storeInitialize_spec (hrows DataV) (hrows LogV)
  rw [hspec, Except.ok.injEq] at ho
  rw [hdb, ← ho, freshDb]

/-- **Unique-index integrity** in every reachable record database. -/
theorem unique_index_integrity {st : SharedTable} (h : machine.Reach st) : Sound st.maindb := by
  have hinv := h.invariant (I := fun st => StoreOk st.maindb ∧ Fences st.maindb)
    (fun st hinit => ?_) (fun _ _ _ hi _ hs => step_inv hi.1 hi.2 hs)
  · exact sound_of_inv hinv.1 hinv.2
  · rw [init_maindb hinit]
    refine ⟨storeOk_freshDb, fun k hk => ?_⟩
    rw [get_freshDb, if_pos hk]

/-- Two users, and a batch that renames one of them and adds a tag. -/
def renames : List Batch :=
  [⟨[⟨.user, { id := 1, name := str "ann" }, false⟩, ⟨.user, { id := 2, name := str "bob" }, true⟩],
      true⟩,
   ⟨[⟨.user, { id := 1, name := str "amy" }, true⟩,
      ⟨.tag, { id := 1, name := str "ann", keytype := kUserdata }, false⟩], true⟩]

/-- After the rename only the new name leads to the record. -/
theorem unique_index_integrity_rename :
    ∃ st, machine.exec { maindb := freshDb } renames = some st ∧
      st.maindb.get (encodeSecondaryKey uUserdataName (str "amy")) =
        some (.node { keytype := kUserdata, id := 1 }) ∧
      st.maindb.get (encodeSecondaryKey uUserdataName (str "ann")) = none ∧ Sound st.maindb := by
  have hrun : ((machine.exec { maindb := freshDb } renames).map fun st =>
      (st.maindb.get (encodeSecondaryKey uUserdataName (str "amy")),
        st.maindb.get (encodeSecondaryKey uUserdataName (str "ann")))) =
      some (some (.node { keytype := kUserdata, id := 1 }), none) := by decide +kernel
  obtain ⟨st, he, hget⟩ := Option.map_eq_some_iff.mp hrun
  obtain ⟨hnew, hold⟩ := Prod.mk.inj hget
  have hrows : ∀ (V : Type) (k : Key) (v : V), (OrdMap.empty : OrdMap Key V).get k = some v →
      k.keytype ≤ kMaxnode → ∃ id, k = .primary k.keytype id := nofun
  obtain ⟨p, l, hspec, -⟩ := storeInitialize_spec (hrows DataV) (hrows LogV)
  exact ⟨st, he, hnew, hold,
    unique_index_integrity (Machine.Reach.of_exec ⟨_, hspec, rfl⟩ he)⟩

end UniqueIndex

end Zapdos.Store
