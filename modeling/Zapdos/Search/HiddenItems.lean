/-
  Deleted and expired items — when a search can still answer with them.

  A deletion of an item is a commit of its record with the flag `is_deleted` set, not a row marked
  `to_del`.  `AddToCache` takes the document out of the index only for rows marked `to_del`, and
  nothing on the way of a query looks at the flags, so a flagged item is answered as long as it is in
  the index.

  The node here commits transactions, its own or replicated ones, and indexes them; `no_xapian` turns
  indexing off.  The invariant is `Clean`: no flagged item of the records is in the index.
-/
import Zapdos.Lib.Runs
import Zapdos.Search.IndexBase
import Zapdos.Search.SearchLocal
import Zapdos.Store.StoreTrans

namespace Zapdos.Search

open Zapdos.Lib Zapdos.Store

/-! ## The node -/

/-- A node and its search index. -/
structure SearchNode where
  table : SharedTable
  index : Index

/-- What can happen: a commit, with what the outside answers, or a change of the flag. -/
inductive SearchStep
  | commit (now : ℕ) (t : TransactionT) (isMaster : Bool) (env : CommitEnv)
  | setNoXapian (b : Bool)

/-- The node as a machine.  Indexing is the end of a commit whose two writes succeeded: the rows that
    `AddToCache` gets through. -/
def searchNode (kstem : Bytes → Bytes) (gh : GeoHash) : Machine SearchNode SearchStep where
  init s := s.index = fun _ _ => OrdMap.empty
  step s l :=
    match l with
    | .commit now t isMaster env =>
      let out := commit s.table now t isMaster env
      let rows := (cacheRows s.table.noXapian env.indexFails t.item).1
      some {
        table := out.table
        index :=
          if out.written then addToIndex kstem gh s.table.noXapian s.index rows else s.index }
    | .setNoXapian b => some { s with table := { s.table with noXapian := b } }

/-! ## What should be hidden -/

/-- An item that is deleted or expired. -/
def Flagged (r : ItemDataT) : Prop := r.isDeleted = true ∨ r.expired = true

instance (r : ItemDataT) : Decidable (Flagged r) := instDecidableOr

/-- The record of an item. -/
def itemOf (db : DataDb) (id : ℕ) : Option ItemDataT :=
  (db.get (encodePrimaryKey kLocaldata id)).bind DataV.parseItem

/-- No query is answered with a flagged item, whatever engine searches the documents. -/
def Hidden (s : SearchNode) : Prop :=
  ∀ (eng : Engine) (bbox : Bytes → List ℚ) (user : UserDataT) (qr : UsedParamsT)
    (features : List PhotonDataT), eng.Sound → qr.dtyp = iLocaldata →
    completionQueryAction eng s.index.documents s.table.maindb bbox user qr = .ok features →
    ∃ rs, completionRecords eng s.index.documents s.table.maindb user qr = .ok rs ∧
      features = rs.map (photonFeature bbox) ∧ ∀ r ∈ rs, ¬ Flagged r

/-! ## The invariant -/

/-- A document of the item is in an index of places. -/
def Indexed (ix : Index) (id : ℕ) : Prop :=
  ∃ lang key d, (ix lang iLocaldata).get key = some d ∧ d.rocksid = id

/-- A row of the transaction carries the record of this id. -/
def Carries (items : List TransItemT) (id : ℕ) : Prop :=
  ∃ i ∈ items, i.toDel = false ∧ i.key.keytype = kLocaldata ∧
    ∃ r, i.value.parseItem = some r ∧ r.id = id

/-- **The invariant**: no flagged item is in the index. -/
def Clean (s : SearchNode) : Prop :=
  ∀ id r, itemOf s.table.maindb id = some r → Flagged r → ¬ Indexed s.index id

/-- A step that keeps flagged items out of the index: an item that the transaction leaves flagged is
    not indexed before, and the transaction does not index it either. -/
def Quiet (s : SearchNode) : SearchStep → Prop
  | .commit _ t _ _ =>
    ∀ id r, itemOf (s.table.maindb.write (dataBatch t.item)) id = some r → Flagged r →
      ¬ Indexed s.index id ∧ (s.table.noXapian = true ∨ ¬ Carries t.item id)
  | .setNoXapian _ => True

/-! ## Indexing step by step -/

section

variable {kstem : Bytes → Bytes} {gh : GeoHash}

theorem indexed_set {ix : Index} {lang dtyp : Int} {db : OrdMap Bytes Document} {id : ℕ}
    (h : Indexed (ix.set lang dtyp db) id) :
    Indexed ix id ∨ (dtyp = iLocaldata ∧ ∃ key d, db.get key = some d ∧ d.rocksid = id) := by
  obtain ⟨l, key, d, hget, hid⟩ := h
  unfold Index.set at hget
  split_ifs at hget with hl
  · exact Or.inr ⟨hl.2.symm, key, d, hget, hid⟩
  · exact Or.inl ⟨l, key, d, hget, hid⟩

theorem indexed_addDoc {ix : Index} {lang dtyp : Int} {n id : ℕ} {doc : Document}
    (h : Indexed (addDoc ix lang dtyp n doc) id) :
    Indexed ix id ∨ (dtyp = iLocaldata ∧ doc.rocksid = id) := by
  rcases indexed_set h with h | ⟨hd, key, d, hget, hid⟩
  · exact Or.inl h
  · rw [OrdMap.get_put] at hget
    split_ifs at hget with hk
    · cases hget
      exact Or.inr ⟨hd, hid⟩
    · exact Or.inl ⟨lang, key, d, hd ▸ hget, hid⟩

theorem indexed_delRecord {ix : Index} {dtyp : Int} {record : ItemDataT} {id : ℕ}
    (h : Indexed (delRecord ix dtyp record) id) : Indexed ix id := by
  rcases indexed_set h with h | ⟨hd, key, d, hget, hid⟩
  · exact h
  · rw [OrdMap.get_delete] at hget
    split_ifs at hget
    exact ⟨record.lang, key, d, hd ▸ hget, hid⟩

/-- One row adds the document of the record it carries, at most. -/
theorem indexed_indexRow {ix ix' : Index} {i : TransItemT} {id : ℕ}
    (h : indexRow kstem gh ix i = some ix') (hid : Indexed ix' id) :
    Indexed ix id ∨ Carries [i] id := by
  unfold indexRow at h
  split at h
  · rename_i kt n hkey
    by_cases hlocal : kt = kLocaldata
    · -- a place: its document is added, or taken out
      rw [if_pos hlocal] at h
      split at h
      · cases h
        exact Or.inl hid
      · rename_i record hparse
        by_cases hdel : i.toDel = true
        · rw [if_pos hdel] at h
          cases h
          exact Or.inl (indexed_delRecord hid)
        · rw [if_neg hdel] at h
          obtain ⟨doc, hdoc, rfl⟩ := Option.map_eq_some_iff.mp h
          rcases indexed_addDoc hid with hid | ⟨-, hid⟩
          · exact Or.inl hid
          · rw [documentOf_rocksid hdoc] at hid
            refine Or.inr ⟨i, List.mem_singleton.mpr rfl, by simpa using hdel, ?_, record, hparse, hid⟩
            rw [hkey]
            exact hlocal
    · rw [if_neg hlocal] at h
      by_cases hwiki : kt = kWikidata
      · -- a wiki page: another index
        rw [if_pos hwiki] at h
        split at h
        · cases h
          exact Or.inl hid
        · by_cases hdel : i.toDel = true
          · rw [if_pos hdel] at h
            cases h
            exact Or.inl (indexed_delRecord hid)
          · rw [if_neg hdel] at h
            obtain ⟨doc, -, rfl⟩ := Option.map_eq_some_iff.mp h
            rcases indexed_addDoc hid with hid | ⟨hd, -⟩
            · exact Or.inl hid
            · exact absurd hd (by decide)
      · rw [if_neg hwiki] at h
        cases h
        exact Or.inl hid
  · cases h
    exact Or.inl hid

theorem indexed_indexRows {items : List TransItemT} {ix : Index} {id : ℕ}
    (h : Indexed (indexRows kstem gh ix items) id) : Indexed ix id ∨ Carries items id := by
  induction items generalizing ix with
  | nil => exact Or.inl h
  | cons i items ih =>
    rw [indexRows] at h
    split at h
    · exact Or.inl h
    · rename_i ix' hrow
      rcases ih h with h | ⟨j, hj, hcarry⟩
      · rcases indexed_indexRow hrow h with h | ⟨j, hj, hcarry⟩
        · exact Or.inl h
        · rw [List.mem_singleton] at hj
          exact Or.inr ⟨j, hj ▸ List.mem_cons_self, hcarry⟩
      · exact Or.inr ⟨j, List.mem_cons_of_mem _ hj, hcarry⟩

/-- **What a commit indexes**: the records it carries, unless indexing is off. -/
theorem indexed_addToIndex {b : Bool} {items : List TransItemT} {ix : Index} {id : ℕ}
    (h : Indexed (addToIndex kstem gh b ix items) id) :
    Indexed ix id ∨ (b = false ∧ Carries items id) := by
  unfold addToIndex at h
  split_ifs at h with hb
  · exact Or.inl h
  · rcases indexed_indexRows h with h | h
    · exact Or.inl h
    · exact Or.inr ⟨by simpa using hb, h⟩

/-! ## Runs -/

/-- **One step**: a quiet step keeps the index clean. -/
theorem clean_step {s s' : SearchNode} {l : SearchStep} (hc : Clean s) (hq : Quiet s l)
    (hs : (searchNode kstem gh).step s l = some s') : Clean s' := by
  cases l with
  | commit now t isMaster env =>
    obtain ⟨hok, hfail, -⟩ := commit_written s.table now t isMaster env
    obtain ⟨hfront, -⟩ := cacheRows_prefix s.table.noXapian env.indexFails t.item
    cases hs
    intro id r hr hflag hix
    cases hwritten : (commit s.table now t isMaster env).written with
    | true =>
      simp only [hwritten, if_true] at hix
      simp only [hok hwritten] at hr
      obtain ⟨hnot, hcarry⟩ := hq id r hr hflag
      rcases indexed_addToIndex hix with hix | ⟨hb, i, hi, hix⟩
      · exact hnot hix
      · rcases hcarry with hx | hx
        · rw [hx] at hb
          cases hb
        · exact hx ⟨i, hfront.subset hi, hix⟩
    | false =>
      simp only [hwritten, Bool.false_eq_true, if_false] at hix
      simp only [hfail hwritten] at hr
      exact hc id r hr hflag hix
  | setNoXapian b =>
    cases hs
    exact hc

/-- A clean index answers no query with a flagged item. -/
theorem Clean.hidden {s : SearchNode} (hc : Clean s) : Hidden s := by
  intro eng bbox user qr features hs hd h
  obtain ⟨rs, hrs, h⟩ := bind_eq_ok.mp h
  cases h
  refine ⟨rs, hrs, rfl, ?_⟩
  intro r hr hflag
  obtain ⟨d, hdoc, hrec⟩ := of_mem_completionRecords hs hrs hr
  unfold Index.documents at hdoc
  obtain ⟨row, hrow, rfl⟩ := List.mem_map.mp hdoc
  rw [hd] at hrow
  refine hc row.2.rocksid r hrec hflag ⟨qr.lang, row.1, row.2, ?_, rfl⟩
  exact (OrdMap.get_eq_some_iff _).mpr hrow

variable (kstem gh)

/-- **Search hides deleted items**, in every state of every run whose steps keep them out of the
    index. -/
theorem deleted_hidden_run {s : SearchNode} (h : (searchNode kstem gh).ReachWhere Quiet s) :
    Hidden s := by
  refine Clean.hidden (h.invariant ?_ ?_)
  · rintro s hinit id r - - ⟨lang, key, d, hget, -⟩
    rw [show s.index = _ from hinit] at hget
    exact absurd hget (by simp)
  · intro s l s' hc hq hs
    exact clean_step hc hq hs

end

/-! ## A deleted item in the index -/

/-- A geohash encoder that gives up. -/
def noGeoHash : GeoHash where
  encode _ _ := badData "Invalid LonLat"
  neighbours _ _ := []

/-- A place, and a deleted one. -/
def openInn : ItemDataT := { id := 4, fldName := str "inn" }

def closedInn : ItemDataT := { id := 5, fldName := str "inn", isDeleted := true }

/-- The row of the record of a place. -/
def placeRow (r : ItemDataT) : TransItemT := ⟨encodePrimaryKey kLocaldata r.id, .item r, false⟩

/-- The commit of the record of a place. -/
def commitPlace (r : ItemDataT) : SearchStep := .commit 1 { item := [placeRow r] } true {}

theorem itemOf_placeRow {db : DataDb} {r r' : ItemDataT} {id : ℕ}
    (h : itemOf (db.write (dataBatch [placeRow r])) id = some r') :
    (id = r.id ∧ r' = r) ∨ itemOf db id = some r' := by
  have hwrite : db.write (dataBatch [placeRow r]) =
      db.put (encodePrimaryKey kLocaldata r.id) (.item r) := rfl
  rw [itemOf, hwrite, OrdMap.get_put] at h
  split at h
  · rename_i hkey
    cases h
    exact Or.inl ⟨by simpa [encodePrimaryKey] using hkey, rfl⟩
  · exact Or.inr h

/-- A master with an empty store and index. -/
def emptyNode : SearchNode := ⟨{ isMaster := true }, fun _ _ => OrdMap.empty⟩

/-- A place that is indexed, and the deletion of another one with indexing off. -/
def offForDeletion : List SearchStep := [commitPlace openInn, .setNoXapian true, commitPlace closedInn]

theorem deleted_hidden_noXapian :
    ∃ s, (searchNode id noGeoHash).exec emptyNode offForDeletion = some s ∧
      (s.index.documents langEn iLocaldata).map (·.rocksid) = [4] ∧
      itemOf s.table.maindb 5 = some closedInn ∧ Hidden s := by
  refine ⟨_, rfl, by decide +kernel, by decide +kernel, ?_⟩
  have hinit : (searchNode id noGeoHash).ReachWhere Quiet emptyNode := .init rfl
  have hquiet : (searchNode id noGeoHash).StepsOk Quiet emptyNode offForDeletion := by
    refine ⟨?_, fun s₁ hs₁ => ⟨trivial, fun s₂ hs₂ => ⟨?_, fun _ _ => trivial⟩⟩⟩
    · -- the place is live
      intro id r hr hflag
      rcases itemOf_placeRow hr with ⟨-, rfl⟩ | hr
      · exact absurd hflag (by decide)
      · cases hr
    · -- the deleted one was never indexed
      cases hs₁
      cases hs₂
      intro id r hr hflag
      refine ⟨fun hix => ?_, Or.inl rfl⟩
      rcases itemOf_placeRow hr with ⟨rfl, -⟩ | hr
      · have hix' : Indexed (addToIndex (fun w => w) noGeoHash false (fun _ _ => OrdMap.empty)
          [placeRow openInn]) closedInn.id := hix
        rcases indexed_addToIndex hix' with ⟨lang, key, d, hget, -⟩ | ⟨-, i, hi, -, -, r', hr', hid⟩
        · cases hget
        · rw [List.mem_singleton.mp hi] at hr'
          rw [← Option.some.inj (show some openInn = some r' from hr')] at hid
          exact absurd hid (by decide)
      · rcases itemOf_placeRow hr with ⟨-, rfl⟩ | hr
        · exact absurd hflag (by decide)
        · cases hr
  exact deleted_hidden_run id noGeoHash (hinit.exec hquiet rfl)

/-- An engine that finds every document returns documents of the database. -/
theorem findAll_sound : findAll.Sound := fun _ _ _ _ _ hd => List.mem_of_mem_take hd

/-- The deleted place is indexed by the commit that deletes it, and answered. -/
theorem deleted_answered :
    ∃ s, (searchNode id noGeoHash).exec emptyNode [commitPlace closedInn] = some s ∧
      completionRecords findAll s.index.documents s.table.maindb oneRule oneWord
        = .ok [closedInn] ∧ ¬ Hidden s := by
  have hrun : ∃ s, (searchNode id noGeoHash).exec emptyNode [commitPlace closedInn] = some s ∧
      completionRecords findAll s.index.documents s.table.maindb oneRule oneWord
        = .ok [closedInn] := ⟨_, rfl, by decide +kernel⟩
  obtain ⟨s, hs, hrecords⟩ := hrun
  refine ⟨s, hs, hrecords, ?_⟩
  intro h
  have hanswer : completionQueryAction findAll s.index.documents s.table.maindb (fun _ => []) oneRule
      oneWord = .ok [photonFeature (fun _ => []) closedInn] := by
    unfold completionQueryAction
    rw [hrecords]
    rfl
  obtain ⟨rs, hrs, -, hall⟩ := h findAll (fun _ => []) oneRule oneWord _ findAll_sound rfl hanswer
  rw [hrecords] at hrs
  cases hrs
  exact hall closedInn List.mem_cons_self (Or.inl rfl)

end Zapdos.Search
