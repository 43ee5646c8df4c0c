/-
  Indexing — the documents that item records become, and the index they are kept in.

  A document is keyed by the term `Q` followed by the record id; writing a document under a key
  replaces the one that was there.  There is one index for every language and data type.

  Posting positions are left out: no search uses them.  The geohash encoder is a parameter.
-/
import Zapdos.Search.SearchBase
import Zapdos.Store.StoreTrans

namespace Zapdos.Search

open Zapdos.Lib Zapdos.Store

def iLocaldata : Int := 0
def iWikidata : Int := 1

/-! ## Postings -/

section

variable (kstem : Bytes → Bytes)

/-- The full words that one word of a text is posted as, after the word `prev`: the word, its stem
    and, after an equal or a short word, the two joined. -/
def fullWordsAt (withStem : Bool) (prev : Option Bytes) (w : Bytes) : List Bytes :=
  [w]
    ++ (if withStem && (w.length ≥ xapMinStemLen : Bool) then
          (if w ≠ stemWord kstem w then [stemWord kstem w] else [])
        else [])
    ++ (match prev with
        | none => []
        | some p => if w = p ∨ p.length ≤ xapMaxShinLen then [p ++ w] else [])

/-- The beginnings of a word. -/
def partWordsAt (w : Bytes) : List Bytes := (List.range w.length).map (fun j => w.take (j + 1))

/-- The loop of `IndexWithPart` over the words. -/
def indexWithPartLoop (fullPrefix partPrefix : Bytes) (withStem : Bool) :
    Option Bytes → List Bytes → List Bytes
  | _, [] => []
  | prev, w :: ws =>
    (fullWordsAt kstem withStem prev w).map (fullPrefix ++ ·)
      ++ (partWordsAt w).map (partPrefix ++ ·)
      ++ indexWithPartLoop fullPrefix partPrefix withStem (some w) ws

/-- `IndexWithPart`: the terms it posts. -/
def indexWithPart (item fullPrefix partPrefix : Bytes) (withStem : Bool) : List Bytes :=
  indexWithPartLoop kstem fullPrefix partPrefix withStem none (lowerNoQuote item)

end

/-- `IndexOneWord`. -/
def indexOneWord (item fullPrefix : Bytes) : List Bytes := [fullPrefix ++ item]

/-- What indexing calls and does not define: the geohash encoder and its neighbours. -/
structure GeoHash where
  encode : ℚ → ℚ → Except Exc Bytes
  neighbours : Bytes → ℕ → List Bytes

/-- `IndexGeo`: the geohash terms, none when the encoder throws. -/
def indexGeo (gh : GeoHash) (lat lon : ℚ) : List Bytes :=
  if lat = 0 ∧ lon = 0 then []
  else
    match gh.encode lat lon with
    | .error _ => []
    | .ok hash =>
      [formatPrefix (hash.take 3) xapGeohash3Prefix, formatPrefix (hash.take 5) xapGeohash5Prefix,
        formatPrefix (hash.take 7) xapGeohash7Prefix, formatPrefix (hash.take 9) xapGeohash9Prefix,
        formatPrefix (hash.take 3) xapNbrhash3Prefix]
        ++ (gh.neighbours (hash.take 3) 1).map (formatPrefix · xapNbrhash3Prefix)
        ++ [formatPrefix (hash.take 5) xapNbrhash5Prefix]
        ++ (gh.neighbours (hash.take 5) 1).map (formatPrefix · xapNbrhash5Prefix)
        ++ (gh.neighbours (hash.take 5) 2).map (formatPrefix · xapNbrhash5Prefix)

/-! ## Documents -/

/-- `PrintWith<C, 0>::String`. -/
def printWith (c : UInt8) (ts : List Bytes) : Bytes :=
  let out := ts.flatMap (fun t => c :: t)
  if out.length > 1 then out.drop 1 else []

/-- The term a record's document is kept under. -/
def idterm (id : ℕ) : Bytes := str "Q" ++ Radix.numeral 10 chr id

theorem idterm_inj {m n : ℕ} : idterm m = idterm n ↔ m = n := by
  constructor
  · intro h
    refine Radix.numeral_inj (fun d e hlt he => hexDigit_lt d e hlt (by omega)) (by omega)
      (List.append_cancel_left h)
  · intro h
    rw [h]

/-- The terms of categories and searchable tags. -/
def tagTerms (record : ItemDataT) : List Bytes :=
  record.categories.flatMap (fun c => indexOneWord c xapCategoryPrefix)
    ++ (record.tags.filter (·.isSearchable)).flatMap
        (fun t => indexOneWord (formatTag t.name t.value) xapTagPrefix)

/-- The terms of city and country. -/
def placeTerms (record : ItemDataT) : List Bytes :=
  (if record.city.isEmpty || record.ccode.isEmpty then []
    else [formatPrefix (record.city ++ record.ccode) xapCityPrefix])
    ++ (if record.ccode.isEmpty then [] else [formatPrefix record.ccode xapCcodePrefix])

/-- The words of the suggest text, of the name and of the name's first word. -/
def nameTerms (kstem : Bytes → Bytes) (withStem : Bool) (suggest name : Bytes) : List Bytes :=
  indexWithPart kstem suggest [] xapPartwordPrefix withStem
    ++ (if name.isEmpty then []
        else indexWithPart kstem name xapNamefullPrefix xapNamepartPrefix withStem)
    ++ (match splitSpace name with
        | [] => []
        | w :: _ => indexWithPart kstem w xapBeginfullPrefix xapBeginpartPrefix withStem)

/-- The document of a record, from its terms: none when its latitude is out of range. -/
def documentOf (gh : GeoHash) (record : ItemDataT) (terms : List Bytes) : Option Document :=
  (latLongCoord record.lat record.lon).map (fun coords =>
    { terms := terms ++ indexGeo gh record.lat record.lon ++ [idterm record.id]
      importance := record.importance
      rocksid := record.id
      uniqueId := record.uniqueId
      latlon := some coords })

/-- `LangTypeE::EN`. -/
def langEn : Int := 0

/-- `IndexLocal::CreateDoc`. -/
def createDocLocal (kstem : Bytes → Bytes) (gh : GeoHash) (record : ItemDataT) : Option Document :=
  documentOf gh record
    (nameTerms kstem (record.lang = langEn)
        (printWith 44 [record.fldName, record.fldArea, record.pincode, record.city, record.country])
        record.fldName
      ++ tagTerms record
      ++ (if record.pincode.isEmpty || record.ccode.isEmpty then []
          else [formatPrefix (record.pincode ++ record.ccode) xapPincodePrefix])
      ++ placeTerms record)

/-- `IndexWiki::CreateDoc`. -/
def createDocWiki (kstem : Bytes → Bytes) (gh : GeoHash) (record : ItemDataT) : Option Document :=
  documentOf gh record
    (nameTerms kstem (record.lang = langEn)
        (printWith 32 [record.title, record.summary, record.city, record.country]) record.title
      ++ tagTerms record ++ placeTerms record)

theorem documentOf_rocksid {gh : GeoHash} {record : ItemDataT} {terms : List Bytes} {d : Document}
    (h : documentOf gh record terms = some d) : d.rocksid = record.id := by
  obtain ⟨coords, -, rfl⟩ := Option.map_eq_some_iff.mp h
  rfl

/-! ## The index -/

/-- The documents by language, data type and key. -/
abbrev Index := Int → Int → OrdMap Bytes Document

/-- The index with one of its databases changed. -/
def Index.set (ix : Index) (lang dtyp : Int) (db : OrdMap Bytes Document) : Index :=
  fun l d => if l = lang ∧ d = dtyp then db else ix l d

/-- The documents of a database, in the order of their keys. -/
def Index.documents (ix : Index) (lang dtyp : Int) : List Document :=
  (ix lang dtyp).rows.map Prod.snd

/-- `AddRecord`, once the document is made. -/
def addDoc (ix : Index) (lang dtyp : Int) (id : ℕ) (doc : Document) : Index :=
  ix.set lang dtyp ((ix lang dtyp).put (idterm id) doc)

/-- `DelRecord`. -/
def delRecord (ix : Index) (dtyp : Int) (record : ItemDataT) : Index :=
  ix.set record.lang dtyp ((ix record.lang dtyp).delete (idterm record.id))

section

variable (kstem : Bytes → Bytes) (gh : GeoHash)

/-- What `AddToCache` does to the index for one row; none when an exception ends it. -/
def indexRow (ix : Index) (i : TransItemT) : Option Index :=
  match i.key with
  | .primary kt _ =>
    if kt = kLocaldata then
      match i.value.parseItem with
      | none => some ix
      | some record =>
        if i.toDel then some (delRecord ix iLocaldata record)
        else
          (createDocLocal kstem gh record).map (addDoc ix record.lang iLocaldata record.id)
    else if kt = kWikidata then
      match i.value.parseItem with
      | none => some ix
      | some record =>
        if i.toDel then some (delRecord ix iWikidata record)
        else
          (createDocWiki kstem gh record).map (addDoc ix record.lang iWikidata record.id)
    else some ix
  | .secondary _ _ => some ix

/-- What `AddToCache` does to the index: the rows in turn, up to an exception. -/
def indexRows (ix : Index) : List TransItemT → Index
  | [] => ix
  | i :: items =>
    match indexRow kstem gh ix i with
    | none => ix
    | some ix' => indexRows ix' items

/-- The index after a commit: nothing is indexed while `no_xapian` is set. -/
def addToIndex (noXapian : Bool) (ix : Index) (items : List TransItemT) : Index :=
  if noXapian then ix else indexRows kstem gh ix items

variable {kstem gh}

/-- A document cannot be made where the latitude is out of range, whatever its terms. -/
theorem documentOf_eq_none_iff {record : ItemDataT} {terms : List Bytes} :
    documentOf gh record terms = none ↔ (latLongCoord record.lat record.lon).isNone = true := by
  rw [documentOf, Option.map_eq_none_iff, Option.isNone_iff_eq_none]

/-- **Indexing throws** for the rows that `AddToCache` stops at. -/
theorem indexRow_eq_none_iff {ix : Index} {i : TransItemT} :
    indexRow kstem gh ix i = none ↔ unplaced false i = true := by
  rw [unplaced, indexedItem, indexRow]
  cases i.key with
  | secondary kt parts => exact iff_of_false (by simp) (by simp)
  | primary kt n =>
    have hitem : ∀ {dtyp : Int} {createDoc : ItemDataT → Option Document},
        (∀ record, createDoc record = none ↔
          (latLongCoord record.lat record.lon).isNone = true) →
        ((match i.value.parseItem with
          | none => some ix
          | some record =>
            if i.toDel then some (delRecord ix dtyp record)
            else (createDoc record).map (addDoc ix record.lang dtyp record.id)) = none ↔
          (match i.value.parseItem with
          | none => false
          | some record => !i.toDel && (latLongCoord record.lat record.lon).isNone) = true) := by
      intro dtyp createDoc hdoc
      cases i.value.parseItem with
      | none => exact iff_of_false (by simp) (by simp)
      | some record =>
        cases i.toDel with
        | true => exact iff_of_false (by simp) (by simp)
        | false =>
          simp only [Bool.false_eq_true, if_false, Bool.not_false, Bool.true_and,
            Option.map_eq_none_iff]
          exact hdoc record
    dsimp only
    by_cases hlocal : kt = kLocaldata
    · rw [if_pos hlocal, if_pos ⟨Or.inl hlocal, rfl⟩]
      exact hitem fun _ => documentOf_eq_none_iff
    · rw [if_neg hlocal]
      by_cases hwiki : kt = kWikidata
      · rw [if_pos hwiki, if_pos ⟨Or.inr hwiki, rfl⟩]
        exact hitem fun _ => documentOf_eq_none_iff
      · rw [if_neg hwiki, if_neg fun h => h.1.elim hlocal hwiki]
        exact iff_of_false (by simp) (by simp)

/-- The index takes what `AddToCache` gets through, and all of it. -/
theorem addToIndex_cacheRows (noXapian : Bool) (ix : Index) (items : List TransItemT) :
    addToIndex kstem gh noXapian ix (cacheRows noXapian none items).1 =
      addToIndex kstem gh noXapian ix items := by
  cases noXapian with
  | true => rfl
  | false =>
    show indexRows kstem gh ix _ = indexRows kstem gh ix _
    induction items generalizing ix with
    | nil => rfl
    | cons i items ih =>
      rw [cacheRows, indexRows]
      by_cases hun : unplaced false i = true
      · rw [if_pos (Or.inl hun), indexRow_eq_none_iff.mpr hun]
        rfl
      · rw [if_neg (by simpa using hun)]
        cases hrow : indexRow kstem gh ix i with
        | none => exact absurd (indexRow_eq_none_iff.mp hrow) hun
        | some ix' =>
          show indexRows kstem gh ix (i :: (cacheRows false none items).1) = _
          rw [indexRows, hrow]
          exact ih ix'

end

end Zapdos.Search
