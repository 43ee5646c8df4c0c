/-
  Completion — the features a place query answers with.

  `CompletionQueryAction` searches by profile, reads the record of every id it gets and turns the
  records into features.  The bounding box of a geometry text is a parameter.
-/
import Zapdos.Search.SearchRuns
import Zapdos.Store.ServiceDefine
import Zapdos.Store.StoreTable

namespace Zapdos.Search

open Zapdos.Lib Zapdos.Store

def qryCompletionPhoton : Int := 1
def qryCompletionNotoph : Int := 2

/-- A feature of the answer: the properties and the two coordinates of the geometry. -/
structure PhotonDataT where
  osmId : Int := 0
  osmKey : Bytes := []
  osmValue : Bytes := []
  osmType : Bytes := []
  city : Bytes := []
  country : Bytes := []
  state : Bytes := []
  name : Bytes := []
  address : Bytes := []
  postcode : Bytes := []
  area : Bytes := []
  extent : List ℚ := []
  coordinates : ℚ × ℚ := (0, 0)
  deriving DecidableEq, Repr, Inhabited

/-- `SanitParams`. -/
def sanitParams (params : UsedParamsT) : UsedParamsT :=
  { params with
    filterCategories := params.filterCategories.map sanitNSLower
    filterTags := params.filterTags.map (fun t => { t with name := sanitNSLower t.name }) }

/-- `LocalDataService::GetOneRecord`. -/
def getOneRecord (db : DataDb) (data : ItemDataT) : Except Exc (Bool × ItemDataT) :=
  if data.uniqueId ≠ [] then localDataTable.getOne db data uLocaldataUniqueid
  else if data.id > 0 then localDataTable.getOne db data kLocaldata
  else pure (false, data)

/-- One round of `GetManyRecords`, which reads a record as `GetOneRecord` does. -/
def getManyOne (db : DataDb) (data : ItemDataT) : Except Exc ItemDataT := do
  let (status, data) ← getOneRecord db data
  pure (if status then data else { data with notfound := true })

/-- `LocalDataService::GetManyRecords`. -/
def getManyRecords (db : DataDb) : List ItemDataT → Except Exc (List ItemDataT)
  | [] => .ok []
  | data :: rest => do
    let r ← getManyOne db data
    let rs ← getManyRecords db rest
    pure (r :: rs)

/-- A feature made of a record. -/
def photonFeature (bbox : Bytes → List ℚ) (r : ItemDataT) : PhotonDataT where
  osmId := r.osmId
  osmKey := r.osmKey
  osmValue := r.osmValue
  osmType := r.osmType
  city := r.city
  country := r.country
  state := r.state
  -- `PrintWithComma`
  name := r.fldName ++ str "," ++ r.fldArea
  address := r.address
  postcode := r.pincode
  area := r.fldArea
  extent := if r.geometry.isEmpty then [] else bbox r.geometry
  coordinates := (r.lon, r.lat)

section

variable (eng : Engine) (dbs : Int → Int → List Document) (db : DataDb)

/-- The records that the features are made of. -/
def completionRecords (user : UserDataT) (qr : UsedParamsT) : Except Exc (List ItemDataT) := do
  let counter := keepInBound qr.items 1 100
  let queryType := if qr.noname then qryCompletionNotoph else qryCompletionPhoton
  let ids ← searchByProfile eng dbs user queryType (sanitParams qr)
  let records ← getManyRecords db (ids.map (fun id => { id := id }))
  pure ((records.filter (fun r => !r.notfound)).take counter)

/-- `SearchLocal::CompletionQueryAction`: the features. -/
def completionQueryAction (bbox : Bytes → List ℚ) (user : UserDataT) (qr : UsedParamsT) :
    Except Exc (List PhotonDataT) := do
  let records ← completionRecords eng dbs db user qr
  pure (records.map (photonFeature bbox))

end

/-! ## Where a record comes from -/

theorem getManyOne_found {db : DataDb} {id : ℕ} {r : ItemDataT}
    (h : getManyOne db { id := id } = .ok r) (hr : r.notfound = false) :
    (db.get (encodePrimaryKey kLocaldata id)).bind DataV.parseItem = some r := by
  unfold getManyOne at h
  obtain ⟨⟨status, data⟩, hget, h⟩ := bind_eq_ok.mp h
  unfold getOneRecord at hget
  rw [if_neg (by simp)] at hget
  cases status with
  | false =>
    cases h
    simp at hr
  | true =>
    cases h
    split_ifs at hget with hid
    · have hkey : kLocaldata = localDataTable.primaryKey := rfl
      unfold StoreTable.getOne at hget
      rw [if_pos hkey] at hget
      unfold StoreTable.readPrimary at hget
      rw [show localDataTable.getKey { id := id } localDataTable.primaryKey
        = encodePrimaryKey kLocaldata id from rfl] at hget
      cases hv : db.get (encodePrimaryKey kLocaldata id) with
      | none =>
        rw [hv] at hget
        cases hget
      | some value =>
        rw [hv] at hget
        cases hp : localDataTable.parse value with
        | none =>
          simp only [hp] at hget
          cases hget
        | some r' =>
          simp only [hp] at hget
          cases hget
          exact hp
    · cases hget

theorem of_mem_getManyRecords {db : DataDb} {l rs : List ItemDataT} {r : ItemDataT}
    (h : getManyRecords db l = .ok rs) (hr : r ∈ rs) : ∃ d ∈ l, getManyOne db d = .ok r := by
  induction l generalizing rs with
  | nil =>
    cases h
    exact absurd hr List.not_mem_nil
  | cons d l ih =>
    obtain ⟨r', hr', h⟩ := bind_eq_ok.mp h
    obtain ⟨rs', hrs', h⟩ := bind_eq_ok.mp h
    cases h
    rcases List.mem_cons.mp hr with rfl | hr
    · exact ⟨d, List.mem_cons_self, hr'⟩
    · obtain ⟨d', hd', h'⟩ := ih hrs' hr
      exact ⟨d', List.mem_cons_of_mem _ hd', h'⟩

/-- What the engine returns comes from the database it is asked about. -/
def Engine.Sound (eng : Engine) : Prop :=
  ∀ docs query sort n, ∀ d ∈ eng.enquire docs query sort n, d ∈ docs

/-- A find of a rule is a document of the database the request names. -/
theorem doc_mem_of_mem_ruleSearch {eng : Engine} {dbs : Int → Int → List Document}
    (hs : eng.Sound) {params : UsedParamsT} {rule : QueryRuleT} {f : Document × ℚ}
    (h : f ∈ ruleSearch eng dbs params rule) : f.1 ∈ dbs params.lang params.dtyp := by
  unfold ruleSearch at h
  split at h
  · exact absurd h List.not_mem_nil
  · rename_i p hp
    have hdb : p.lang = params.lang ∧ p.dtyp = params.dtyp := by
      unfold ruleParams at hp
      simp only at hp
      split_ifs at hp
      split at hp
      · exact absurd hp (by simp)
      · cases hp
        exact ⟨rfl, rfl⟩
    rw [← hdb.1, ← hdb.2]
    split_ifs at h
    · exact absurd h List.not_mem_nil
    · obtain ⟨g, hg, rfl⟩ := List.mem_map.mp h
      have hnear : (nearParams p rule).lang = p.lang ∧ (nearParams p rule).dtyp = p.dtyp := by
        unfold nearParams
        split_ifs <;> exact ⟨rfl, rfl⟩
      unfold findNear at hg
      simp only at hg
      split_ifs at hg
      · exact absurd hg List.not_mem_nil
      · exact absurd hg List.not_mem_nil
      · obtain ⟨d, hd, rfl⟩ := List.mem_map.mp hg
        rw [← hnear.1, ← hnear.2]
        exact hs _ _ _ _ d hd
    · unfold findFull at h
      simp only at h
      split_ifs at h
      · exact absurd h List.not_mem_nil
      · obtain ⟨d, hd, rfl⟩ := List.mem_map.mp h
        exact hs _ _ _ _ d hd

theorem doc_mem_of_mem_passHits {eng : Engine} {dbs : Int → Int → List Document} (hs : eng.Sound)
    {qr : UsedParamsT} {rules : List QueryRuleT} {h : Hit}
    (hh : h ∈ passHits eng dbs qr rules) : h.doc ∈ dbs qr.lang qr.dtyp := by
  obtain ⟨r, -, hh⟩ := List.mem_flatMap.mp hh
  obtain ⟨f, hf, rfl⟩ := List.mem_map.mp hh
  exact doc_mem_of_mem_ruleSearch hs hf

/-- **What a request visits** are documents of the database it names. -/
theorem doc_mem_of_mem_visitedBy {eng : Engine} {dbs : Int → Int → List Document} (hs : eng.Sound)
    {user : UserDataT} {queryType : Int} {qr : UsedParamsT} {h : Hit}
    (hh : h ∈ visitedBy eng dbs user queryType qr) : h.doc ∈ dbs qr.lang qr.dtyp := by
  unfold visitedBy at hh
  split at hh
  · rename_i s hprep
    obtain ⟨-, -, -, -, hlang, hdtyp⟩ := prepareSearch_eq_some hprep
    rw [← hlang, ← hdtyp]
    unfold Request.visited at hh
    simp only at hh
    split_ifs at hh
    · exact doc_mem_of_mem_passHits hs hh
    · show h.doc ∈ dbs (s.correctedParams eng).lang (s.correctedParams eng).dtyp
      exact doc_mem_of_mem_passHits hs hh
  · exact absurd hh List.not_mem_nil

/-- **Every feature** is made of the stored record of a document of the database. -/
theorem of_mem_completionRecords {eng : Engine} {dbs : Int → Int → List Document} (hs : eng.Sound)
    {db : DataDb} {user : UserDataT} {qr : UsedParamsT} {rs : List ItemDataT} {r : ItemDataT}
    (h : completionRecords eng dbs db user qr = .ok rs) (hr : r ∈ rs) :
    ∃ d ∈ dbs qr.lang qr.dtyp,
      (db.get (encodePrimaryKey kLocaldata d.rocksid)).bind DataV.parseItem = some r := by
  obtain ⟨ids, hids, h⟩ := bind_eq_ok.mp h
  obtain ⟨records, hrecords, h⟩ := bind_eq_ok.mp h
  cases h
  obtain ⟨hmem, hfound⟩ := List.mem_filter.mp (List.mem_of_mem_take hr)
  obtain ⟨q, hq, hget⟩ := of_mem_getManyRecords hrecords hmem
  obtain ⟨id, hid, rfl⟩ := List.mem_map.mp hq
  rw [searchByProfile_eq hids] at hid
  obtain ⟨hit, hhit, rfl⟩ := mem_answer.mp hid
  have hdoc := doc_mem_of_mem_visitedBy hs (mem_of_mem_firsts (mem_of_mem_kept hhit))
  exact ⟨hit.doc, hdoc, getManyOne_found hget (by simpa using hfound)⟩

end Zapdos.Search
