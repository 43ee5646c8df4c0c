/-
  The search by profile — every rule of a profile queries the index, and the results are merged.

  The search engine is a parameter: `enquire` is Xapian's query parser and `Enquire` on an opened
  database, `correct` the spelling corrector, `kstem` the Krovetz stemmer, `geohash` the geohash
  encoder and `metric` the great circle metric.  Everything around them is the code's: how a rule
  changes the parameters, which query text it sends, how it scores what it finds, and how
  `SearchByProfile` merges the finds of all rules.

  `RuleSearch` works on a copy of the parameters whose lists of ids, sort keys and scores are empty
  and grow together, so its finds are one list of documents with their scores.
-/
import Zapdos.Lib.Merge
import Zapdos.Search.BaseUtils
import Zapdos.Search.DistanceSlabKeyMaker

namespace Zapdos.Search

open Zapdos.Lib Zapdos.Store

/-! ## Enumerations -/

def lCcode : Int := 1
def lCity : Int := 2
def lPincode : Int := 3
def lGeohash3 : Int := 4
def lGeohash5 : Int := 5
def lGeohash7 : Int := 6
def lGeohash9 : Int := 7
def lNbrhash3 : Int := 8
def lNbrhash5 : Int := 9

def sBeginwith : Int := 1
def sPartial : Int := 2
def sFullword : Int := 3
def sName : Int := 5

def oDistBand : Int := 1
def oDistOnly : Int := 2

def iDefault : Int := 0
def iOneword : Int := 1

/-! ## Messages -/

/-- Where the query comes from. -/
structure PointLocT where
  ccode : Bytes := []
  city : Bytes := []
  lat : ℚ := 0
  lon : ℚ := 0
  geohash : Bytes := []
  pincode : Bytes := []
  dontUse : Bool := false
  deriving DecidableEq, Repr, Inhabited

/-- A tag to filter by. -/
structure UsedTagT where
  name : Bytes := []
  value : Bytes := []
  deriving DecidableEq, Repr, Inhabited

/-- The parameters of a search. -/
structure UsedParamsT where
  location : PointLocT := {}
  items : ℕ := 0
  lang : Int := 0
  dtyp : Int := 0
  noOfWords : ℕ := 0
  query : Bytes := []
  rawQuery : Bytes := []
  extra : Bytes := []
  distanceBand : ℤ := 0
  distanceDef : ℚ := 0
  noname : Bool := false
  useName : Bool := false
  fullWords : Bool := false
  allPartial : Bool := false
  lastPartial : Bool := false
  filterCategories : List Bytes := []
  filterTags : List UsedTagT := []
  deriving DecidableEq, Repr, Inhabited

/-! ## The search engine -/

/-- A document of the index: its terms and its values. -/
structure Document where
  terms : List Bytes := []
  importance : ℚ := 0
  rocksid : ℕ := 0
  uniqueId : Bytes := []
  latlon : Option (ℚ × ℚ) := none
  deriving DecidableEq, Repr, Inhabited

/-- The order of an enquiry: by importance, highest first, or by the key maker's key around a centre,
    lowest first. -/
inductive SortBy where
  | importance
  | key (km : DistanceSlabKeyMaker) (centre : ℚ × ℚ)

/-- What the code calls and does not define. -/
structure Engine where
  kstem : Bytes → Bytes
  correct : Int → Bytes → Bytes
  geohash : ℚ → ℚ → Except Exc Bytes
  metric : ℚ × ℚ → ℚ × ℚ → ℚ
  enquire : List Document → Bytes → SortBy → ℕ → List Document

/-! ## Query texts -/

/-- Which query words are partial. -/
inductive QueryWordsE where
  | fullWords
  | lastPartial
  | allPartial
  deriving DecidableEq, Repr

/-- `GetQueryString` over the words of the query. -/
def getQueryWords (qtype : QueryWordsE) (fullPrefix partPrefix : Bytes) : List Bytes → Bytes
  | [] => []
  | w :: ws =>
    (if qtype = .allPartial ∨ (qtype = .lastPartial ∧ ws = []) then str " " ++ partPrefix ++ w
      else str " " ++ fullPrefix ++ w)
      ++ getQueryWords qtype fullPrefix partPrefix ws

/-- `GetQueryString`. -/
def getQueryString (wordstr : List Bytes) (qtype : QueryWordsE) (extra fullPrefix partPrefix : Bytes) :
    Bytes :=
  getQueryWords qtype fullPrefix partPrefix wordstr
    ++ (if extra.isEmpty then [] else str " " ++ extra)

/-- The text that `FindNear` and `FindFull` hand to the query parser. -/
def queryText (qr : UsedParamsT) (wordstr : List Bytes) : Bytes :=
  let qtype : QueryWordsE :=
    if qr.allPartial then .allPartial else if qr.lastPartial then .lastPartial else .fullWords
  let fullPrefix := if qr.useName then str "+" ++ xapNamefullPrefix else str "+"
  let partPrefix :=
    if qr.useName then str "+" ++ xapNamepartPrefix else str "+" ++ xapPartwordPrefix
  getQueryString wordstr qtype qr.extra fullPrefix partPrefix
    ++ qr.filterCategories.flatMap (fun c => str " +" ++ xapCategoryPrefix ++ c)
    ++ qr.filterTags.flatMap (fun t => str " +" ++ xapTagPrefix ++ formatTag t.name t.value)

section

variable (eng : Engine) (dbs : Int → Int → List Document)

/-- The key maker of a search by distance. -/
def keyMakerOf (qr : UsedParamsT) : DistanceSlabKeyMaker :=
  .new (toInt32 qr.distanceBand) (truncInt32 qr.distanceDef)

/-- What the metric says about a document. -/
def distanceOf (qr : UsedParamsT) (d : Document) : Option ℚ :=
  d.latlon.map (eng.metric (qr.location.lat, qr.location.lon))

/-- `FindNear` with `reset`: the documents and their sort keys. -/
def findNear (qr : UsedParamsT) : List (Document × ℚ) :=
  if qr.location.dontUse then []
  else
    let wordstr := splitMerge qr.query
    if !qr.noname && wordstr.isEmpty then []
    else
      let km := keyMakerOf qr
      let centre := (qr.location.lat, qr.location.lon)
      (eng.enquire (dbs qr.lang qr.dtyp) (queryText qr wordstr) (.key km centre) qr.items).map
        (fun d => (d, km.sortKey (distanceOf eng qr d) d.importance))

/-- `FindFull` with `reset`: the sort key is the serialised importance. -/
def findFull (qr : UsedParamsT) : List (Document × ℚ) :=
  let wordstr := splitMerge qr.query
  if wordstr.isEmpty then []
  else
    (eng.enquire (dbs qr.lang qr.dtyp) (queryText qr wordstr) .importance qr.items).map
      (fun d => (d, d.importance))

/-! ## `RuleSearch` -/

/-- The term of a `limit_type` that reads the geohash. -/
def geohashLimit (params : UsedParamsT) (n : ℕ) (pfx : Bytes) : Option Bytes :=
  if params.location.dontUse then none
  else some (str " +" ++ formatPrefix (params.location.geohash.take n) pfx)

/-- The `limit_type` switch: what it adds to the query, unless the location lacks what it needs. -/
def limitExtra (params : UsedParamsT) (rule : QueryRuleT) : Option Bytes :=
  let loc := params.location
  if rule.limitType = lCcode then
    if loc.ccode.isEmpty then none else some (str " +" ++ formatPrefix loc.ccode xapCcodePrefix)
  else if rule.limitType = lCity then
    if loc.city.isEmpty || loc.ccode.isEmpty then none
    else some (str " +" ++ formatPrefix (loc.city ++ loc.ccode) xapCityPrefix)
  else if rule.limitType = lPincode then
    if loc.pincode.isEmpty || loc.ccode.isEmpty then none
    else some (str " +" ++ formatPrefix (loc.pincode ++ loc.ccode) xapPincodePrefix)
  else if rule.limitType = lGeohash3 then geohashLimit params 3 xapGeohash3Prefix
  else if rule.limitType = lGeohash5 then geohashLimit params 5 xapGeohash5Prefix
  else if rule.limitType = lGeohash7 then geohashLimit params 7 xapGeohash7Prefix
  else if rule.limitType = lGeohash9 then geohashLimit params 9 xapGeohash9Prefix
  else if rule.limitType = lNbrhash3 then geohashLimit params 3 xapNbrhash3Prefix
  else if rule.limitType = lNbrhash5 then geohashLimit params 5 xapNbrhash5Prefix
  else some []

/-- The `search_type` switch: what it adds to the query. -/
def searchExtra (params : UsedParamsT) (rule : QueryRuleT) : Bytes :=
  if rule.searchType = sBeginwith then
    match splitSpace params.query with
    | [] => []
    | w :: ws =>
      str " +"
        ++ (if params.allPartial || (params.lastPartial && ws.isEmpty) then xapBeginpartPrefix
            else xapBeginfullPrefix)
        ++ w
  else []

/-- The first lines of `RuleSearch`: the rule's own limits. -/
def ruleLimits (params : UsedParamsT) (rule : QueryRuleT) : UsedParamsT :=
  { params with
    items := keepInBound rule.maxRecords 1 params.items
    distanceDef := if rule.distanceDef > 0 then rule.distanceDef else params.distanceDef
    distanceBand := if rule.distanceBand > 0 then rule.distanceBand else params.distanceBand }

/-- The `input_type` switch. -/
def inputOk (params : UsedParamsT) (rule : QueryRuleT) : Bool :=
  if rule.inputType = iDefault then true
  else if rule.inputType = iOneword then
    !(params.noOfWords > 1)
      && !(rule.onewordLength > 0 && params.query.length > rule.onewordLength)
  else false

/-- The parameters after the switches of `RuleSearch`, unless one of them gives up. -/
def ruleParams (params : UsedParamsT) (rule : QueryRuleT) : Option UsedParamsT :=
  let params := ruleLimits params rule
  if !inputOk params rule then none
  else
    match limitExtra params rule with
    | none => none
    | some extra =>
      some { params with
        allPartial := params.allPartial || rule.searchType = sPartial
        lastPartial := params.lastPartial && rule.searchType ≠ sFullword
        useName := params.useName || rule.searchType = sName
        extra := extra ++ searchExtra params rule }

/-- A rule whose `order_type` is by distance. -/
def byDistance (rule : QueryRuleT) : Bool :=
  rule.orderType = oDistBand || rule.orderType = oDistOnly

/-- `dsmax`. -/
def dsmax : ℚ := xapDslabMaxImportance * xapDslabMaxDistance

/-- The parameters of the query of a rule by distance: `O_DIST_ONLY` fixes the band. -/
def nearParams (params : UsedParamsT) (rule : QueryRuleT) : UsedParamsT :=
  if rule.orderType = oDistOnly then { params with distanceBand := 10 } else params

/-- `RuleSearch`: the documents found with their scores; nothing when it returns false. -/
def ruleSearch (params : UsedParamsT) (rule : QueryRuleT) : List (Document × ℚ) :=
  match ruleParams params rule with
  | none => []
  | some params =>
    if byDistance rule then
      if params.location.dontUse then []
      else (findNear eng dbs (nearParams params rule)).map (fun f => (f.1, dsmax - f.2))
    else findFull eng dbs params

/-! ## `SearchByProfile` -/

/-- The ids already seen and the map from sort keys to ids. -/
structure Merged where
  idset : List ℕ
  idmap : OrdMap Bytes ℕ

/-- The body of the loop over the finds of a rule. -/
def addFound (rule : QueryRuleT) (m : Merged) (f : Document × ℚ) : Merged :=
  if f.1.rocksid ∈ m.idset then m
  else
    { idset := f.1.rocksid :: m.idset
      idmap := m.idmap.emplace (encodeSortKey rule.weight f.2 f.1.rocksid) f.1.rocksid }

/-- The loop over the rules: it stops at a lighter rule once there are enough ids. -/
def ruleLoop (qr : UsedParamsT) (counter : ℕ) : List QueryRuleT → ℕ → Merged → Merged
  | [], _, m => m
  | rule :: rules, ruleWeight, m =>
    if ruleWeight > rule.weight ∧ m.idset.length ≥ counter then m
    else
      ruleLoop qr counter rules rule.weight
        ((ruleSearch eng dbs qr rule).foldl (addFound rule) m)

/-- What the rule loop of a request reads. -/
structure Request where
  rules : List QueryRuleT
  params : UsedParamsT
  corrected : Bytes

/-- The parameters of the second pass. -/
def Request.correctedParams (s : Request) : UsedParamsT :=
  { s.params with query := stemQuery eng.kstem s.corrected (!s.params.fullWords) }

/-- The weight of the last rule, which the first pass leaves behind when it found nothing: it then
    ran every rule. -/
def Request.lastWeight (s : Request) : ℕ := (s.rules.getLast?.map (·.weight)).getD 0

/-- The two passes: the corrected query is tried when the first one found nothing. -/
def Request.passes (s : Request) : Merged :=
  let first := ruleLoop eng dbs s.params s.params.items s.rules 0 ⟨[], OrdMap.empty⟩
  if s.corrected.isEmpty || first.idset.length > 0 then first
  else
    ruleLoop eng dbs (s.correctedParams eng) s.params.items s.rules s.lastWeight first

/-- The ids of the response: the map read backwards. -/
def Request.response (s : Request) : List ℕ :=
  (s.passes eng dbs).idmap.rows.reverse.map Prod.snd

/-- The query words: the flattened text, its spelling corrected but for a last partial word.  (The
    source reads the last character of an empty text, too; such a text has no words to search.) -/
def prepareQuery (qr : UsedParamsT) : UsedParamsT × Bytes :=
  let lastPartial := qr.rawQuery.getLast? ≠ some 32
  let fullWords := if qr.fullWords then true else !lastPartial
  let q := (flattenCount qr.rawQuery).1
  -- the text up to the last blank, and the rest from that blank on
  let rest := (q.reverse.takeWhile (· ≠ 32)).reverse
  let corrected :=
    if fullWords then eng.correct qr.lang q
    else if q.contains 32 then
      eng.correct qr.lang (q.take (q.length - rest.length - 1)) ++ [32] ++ rest
    else []
  ({ qr with
      lastPartial := lastPartial
      fullWords := fullWords
      noOfWords := (flattenCount qr.rawQuery).2
      query := stemQuery eng.kstem q (!fullWords) },
    if q = corrected then [] else corrected)

/-- `GetExterProfile`, from the record that `Get` filled. -/
def getExterProfile (user : UserDataT) (queryType : Int) : Option QueryProfT :=
  if user.notfound then none else user.profiles.find? (fun p => p.queryType = queryType)

/-- The geohash of a place that is used. -/
def locate (loc : PointLocT) : Except Exc PointLocT :=
  if loc.dontUse then pure loc
  else do
    let hash ← eng.geohash loc.lat loc.lon
    pure { loc with geohash := hash }

/-- `SearchByProfile` up to the rule loop: nothing to search when the query has no words. -/
def prepareSearch (user : UserDataT) (queryType : Int) (qr : UsedParamsT) :
    Except Exc (Option Request) :=
  match getExterProfile user queryType with
  | none => badData "This search profile does not exist"
  | some qprof => do
    let location ← locate eng qr.location
    let qr := { qr with location := location, items := keepInBound qr.items 1 100 }
    if qr.noname then pure (some ⟨qprof.rules, qr, []⟩)
    else
      let (qr, corrected) := prepareQuery eng qr
      if qr.noOfWords = 0 then pure none else pure (some ⟨qprof.rules, qr, corrected⟩)

/-- `SearchByProfile`: the ids of the response. -/
def searchByProfile (user : UserDataT) (queryType : Int) (qr : UsedParamsT) :
    Except Exc (List ℕ) := do
  match ← prepareSearch eng user queryType qr with
  | none => pure []
  | some s => pure (s.response eng dbs)

end

/-- An engine that finds every document of the database, whatever the query. -/
def findAll : Engine where
  kstem w := w
  correct _ _ := []
  geohash _ _ := .ok []
  metric _ _ := 0
  enquire db _ _ items := db.take items

/-- A profile with one rule, by importance. -/
def oneRule : UserDataT := { profiles := [⟨1, [{ weight := 5, maxRecords := 10 }]⟩] }

/-- A query of one word. -/
def oneWord : UsedParamsT := { rawQuery := str "inn ", items := 10, location := { dontUse := true } }

end Zapdos.Search
