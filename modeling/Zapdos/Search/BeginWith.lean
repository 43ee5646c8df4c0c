/-
  Begin-with search — the term that `RuleSearch` adds for `S_BEGINWITH`, against the begin terms that
  indexing posts for a name.

  Indexing cuts the raw name at its first white space and posts the words of what stands before it.
  The query is cut into words first, and the term is its first word, stemmed, up to the first white
  space.

  THE CRUX.  White space always ends a word, so the words of the name's first part are the first words
  of the name, if it has any (`lowerNoQuote_firstPart`).  A name that starts with a blank or a lone
  punctuation mark has a first part without words and is indexed under nothing.
-/
import Zapdos.Search.SelfMatch

namespace Zapdos.Search

open Zapdos.Lib Zapdos.Store

/-! ## First parts -/

/-- `SplitWith::Space(x).front()`. -/
def firstPart (x : Bytes) : Bytes := (splitSpace x).headD []

theorem splitSpace_eq (x : Bytes) :
    ∃ rest, splitSpace x = x.takeWhile (fun c => !isSpace c) :: rest := by
  induction x with
  | nil => exact ⟨[], rfl⟩
  | cons c cs ih =>
    obtain ⟨rest, hrest⟩ := ih
    rw [splitSpace]
    by_cases hs : isSpace c = true
    · rw [if_pos hs, List.takeWhile_cons_of_neg (by simp [hs])]
      exact ⟨_, rfl⟩
    · rw [if_neg hs, hrest, List.takeWhile_cons_of_pos (by simp [hs])]
      exact ⟨rest, rfl⟩

theorem firstPart_eq (x : Bytes) : firstPart x = x.takeWhile (fun c => !isSpace c) := by
  obtain ⟨rest, hrest⟩ := splitSpace_eq x
  rw [firstPart, hrest]
  rfl

theorem firstPart_noSpace {x : Bytes} (h : ∀ c ∈ x, isSpace c = false) : firstPart x = x := by
  rw [firstPart, splitSpace_noSpace h]
  rfl

/-- What stands after a blank does not matter. -/
theorem firstPart_append_space (x y : Bytes) : firstPart (x ++ 32 :: y) = firstPart x := by
  obtain ⟨rest, hrest⟩ := splitSpace_eq x
  rw [firstPart, firstPart, splitSpace_append, hrest]
  rfl

/-- The words of the first part are the first words. -/
theorem lowerNoQuote_firstPart (x : Bytes) :
    ∃ ws, lowerNoQuote x = lowerNoQuote (firstPart x) ++ ws := by
  have hcut := List.takeWhile_append_dropWhile (p := fun c => !isSpace c) (l := x)
  rw [firstPart_eq]
  cases hrest : x.dropWhile (fun c => !isSpace c) with
  | nil =>
    rw [hrest, List.append_nil] at hcut
    exact ⟨[], by rw [hcut, List.append_nil]⟩
  | cons c y =>
    have hc : isSpace c = true := by
      have hhead := List.head_dropWhile_not (fun c => !isSpace c) (by rw [hrest]; simp)
      simpa [hrest] using hhead
    rw [hrest] at hcut
    refine ⟨lowerNoQuote y, ?_⟩
    rw [← lowerNoQuote_append_isSpace hc, hcut]

/-! ## The two sides -/

section

variable (kstem : Bytes → Bytes)

/-- The query that a full-words search for a text runs. -/
def fullQuery (text : Bytes) : Bytes := stemQuery kstem (flattenCount text).1 false

/-- The first word of the stemmed query under the prefix of full begin words. -/
def beginTerm (text : Bytes) : Bytes := xapBeginfullPrefix ++ firstPart (fullQuery kstem text)

/-- The terms posted for the first part of a name. -/
def beginTerms (withStem : Bool) (name : Bytes) : List Bytes :=
  match splitSpace name with
  | [] => []
  | w :: _ => indexWithPart kstem w xapBeginfullPrefix xapBeginpartPrefix withStem

/-- The begin terms are what `IndexLocal` and `IndexWiki` post after the words of the name. -/
theorem nameTerms_eq (withStem : Bool) (suggest name : Bytes) :
    nameTerms kstem withStem suggest name =
      indexWithPart kstem suggest [] xapPartwordPrefix withStem
        ++ (if name.isEmpty then []
            else indexWithPart kstem name xapNamefullPrefix xapNamepartPrefix withStem)
        ++ beginTerms kstem withStem name := rfl

/-- `prepareQuery` of a full-words search leaves this query. -/
theorem prepareQuery_fullWords (eng : Engine) (qr : UsedParamsT) (text : Bytes) :
    (prepareQuery eng { qr with rawQuery := text, fullWords := true }).1.query =
      fullQuery eng.kstem text := rfl

/-- A full-words `S_BEGINWITH` rule adds the begin term. -/
theorem searchExtra_beginwith (params : UsedParamsT) (rule : QueryRuleT) (text : Bytes) :
    searchExtra
        { params with query := fullQuery kstem text, allPartial := false, lastPartial := false }
        { rule with searchType := sBeginwith } =
      str " +" ++ beginTerm kstem text := by
  obtain ⟨rest, hrest⟩ := splitSpace_eq (fullQuery kstem text)
  rw [searchExtra, if_pos rfl, hrest, beginTerm, firstPart, hrest]
  simp only [Bool.false_or, Bool.false_and, Bool.false_eq_true, if_false, List.headD_cons,
    List.append_assoc]

/-- The term starts with the first word's stem. -/
theorem firstPart_fullQuery {text w : Bytes} {ws : List Bytes} (h : lowerNoQuote text = w :: ws) :
    firstPart (fullQuery kstem text) = firstPart (stemmed kstem w) := by
  have hw : (if ((w.length ≥ xapMinStemLen : Bool) && !(false && ws.isEmpty)) = true then
      stemWord kstem w else w) = stemmed kstem w := by simp [stemmed]
  rw [fullQuery, stemQuery, lowerNoQuote_flattenCount, h, stemQueryLoop]
  show firstPart ((if _ then _ else _) ++ _ ++ _) = _
  rw [hw]
  cases ws with
  | nil => simp [stemQueryLoop]
  | cons v vs =>
    rw [if_pos (by simp), List.append_assoc, List.singleton_append, firstPart_append_space]

/-- A full begin word is posted when indexing posts it for the words of the first part. -/
theorem mem_beginTerms {name x : Bytes} :
    xapBeginfullPrefix ++ x ∈ beginTerms kstem true name ↔
      Posted kstem (lowerNoQuote (firstPart name)) x := by
  obtain ⟨rest, hrest⟩ := splitSpace_eq name
  have hpart : ¬ xapBeginfullPrefix ++ x ∈
      ((lowerNoQuote (firstPart name)).flatMap partWordsAt).map (xapBeginpartPrefix ++ ·) := by
    intro h
    obtain ⟨y, -, hy⟩ := List.mem_map.mp h
    have hhead : (98 : UInt8) = 97 := (List.cons.inj hy).1
    exact absurd hhead (by decide)
  have hword : firstPart name = name.takeWhile (fun c => !isSpace c) := firstPart_eq name
  rw [beginTerms, hrest, ← hword]
  show _ ∈ indexWithPartLoop kstem _ _ true none (lowerNoQuote (firstPart name)) ↔ _
  rw [mem_indexWithPartLoop, or_iff_left hpart,
    List.mem_map_of_injective (List.append_right_injective _), mem_fullWordsLoop]
  simp

/-! ## Found by the beginning -/

/-- The term that a full-words `S_BEGINWITH` search for the name adds is one of its begin terms. -/
def BeginFound (name : Bytes) : Prop :=
  ∃ t ∈ beginTerms kstem true name, ∀ (params : UsedParamsT) (rule : QueryRuleT),
    searchExtra
        { params with query := fullQuery kstem name, allPartial := false, lastPartial := false }
        { rule with searchType := sBeginwith } =
      str " +" ++ t

/-- The first part of the name has a word; and the stem of its first word has no white space, unless
    what stands before it is posted for the first part as well. -/
def BeginIndexed (name : Bytes) : Prop :=
  ∃ w ws, lowerNoQuote (firstPart name) = w :: ws ∧
    ((∀ c ∈ stemmed kstem w, isSpace c = false) ∨
      Posted kstem (w :: ws) (firstPart (stemmed kstem w)))

theorem beginFound_iff_mem {name : Bytes} :
    BeginFound kstem name ↔ beginTerm kstem name ∈ beginTerms kstem true name := by
  constructor
  · rintro ⟨t, ht, hadd⟩
    have hsame := (searchExtra_beginwith kstem {} {} name).symm.trans (hadd {} {})
    rw [List.append_cancel_left hsame]
    exact ht
  · intro h
    exact ⟨_, h, fun params rule => searchExtra_beginwith kstem params rule name⟩

/-- A word or its stem is always posted. -/
theorem posted_stemmed {words : List Bytes} {w : Bytes} (hw : w ∈ words) :
    Posted kstem words (stemmed kstem w) :=
  Plain.posted kstem (Or.inl ⟨w, hw, rfl⟩) (Run.one _)

theorem beginTerm_mem_iff {name : Bytes} :
    beginTerm kstem name ∈ beginTerms kstem true name ↔ BeginIndexed kstem name := by
  rw [beginTerm, mem_beginTerms]
  obtain ⟨rest, hrest⟩ := lowerNoQuote_firstPart name
  cases hwords : lowerNoQuote (firstPart name) with
  | nil =>
    -- nothing is posted for a first part without words
    constructor
    · rintro (h | ⟨w, hw, -⟩ | ⟨p, w, hpw, -⟩)
      · cases h
      · cases hw
      · exact absurd hpw (by simp)
    · rintro ⟨w, ws, hcons, -⟩
      rw [hwords] at hcons
      cases hcons
  | cons w ws =>
    rw [hwords, List.cons_append] at hrest
    rw [firstPart_fullQuery kstem hrest]
    constructor
    · intro h
      exact ⟨w, ws, hwords, Or.inr h⟩
    · rintro ⟨v, vs, hcons, hstem⟩
      rw [hwords] at hcons
      obtain ⟨rfl, rfl⟩ := List.cons.inj hcons
      rcases hstem with hone | hposted
      · rw [firstPart_noSpace hone]
        exact posted_stemmed kstem List.mem_cons_self
      · exact hposted

/-- **A name is found by its beginning** exactly when its first part has a word whose stem is one
    word, or is cut to a posted one. -/
theorem beginFound_iff (name : Bytes) : BeginFound kstem name ↔ BeginIndexed kstem name :=
  (beginFound_iff_mem kstem).trans (beginTerm_mem_iff kstem)

/-- The documents of English records have the begin terms of their names. -/
theorem beginTerms_subset_local {gh : GeoHash} {record : ItemDataT} {d : Document}
    (hlang : record.lang = langEn) (h : createDocLocal kstem gh record = some d) :
    beginTerms kstem true record.fldName ⊆ d.terms := by
  intro t ht
  rw [createDocLocal, hlang] at h
  refine documentOf_terms h ?_
  simp only [List.append_assoc, nameTerms_eq]
  simp only [List.mem_append]
  exact Or.inr (Or.inr (Or.inl ht))

theorem beginTerms_subset_wiki {gh : GeoHash} {record : ItemDataT} {d : Document}
    (hlang : record.lang = langEn) (h : createDocWiki kstem gh record = some d) :
    beginTerms kstem true record.title ⊆ d.terms := by
  intro t ht
  rw [createDocWiki, hlang] at h
  refine documentOf_terms h ?_
  simp only [List.append_assoc, nameTerms_eq]
  simp only [List.mem_append]
  exact Or.inr (Or.inr (Or.inl ht))

/-- A local record with such a name has the term of its own beginning. -/
theorem local_begins {gh : GeoHash} {record : ItemDataT} {d : Document}
    (hlang : record.lang = langEn) (hdoc : createDocLocal kstem gh record = some d)
    (h : BeginIndexed kstem record.fldName) : beginTerm kstem record.fldName ∈ d.terms :=
  beginTerms_subset_local kstem hlang hdoc ((beginTerm_mem_iff kstem).mpr h)

/-- A wiki record with such a title has the term of its own beginning. -/
theorem wiki_begins {gh : GeoHash} {record : ItemDataT} {d : Document}
    (hlang : record.lang = langEn) (hdoc : createDocWiki kstem gh record = some d)
    (h : BeginIndexed kstem record.title) : beginTerm kstem record.title ∈ d.terms :=
  beginTerms_subset_wiki kstem hlang hdoc ((beginTerm_mem_iff kstem).mpr h)

end

/-- A first part may join several words. -/
example : BeginIndexed id (str "foo-bar inn") :=
  ⟨str "foo", [str "bar"], by decide +kernel, Or.inl (by decide +kernel)⟩

/-- The name " inn" has a word, and is indexed under no beginning. -/
theorem blank_first_lost : ¬ ∀ (kstem : Bytes → Bytes) (name : Bytes), lowerNoQuote name ≠ [] →
    BeginFound kstem name := by
  intro hall
  obtain ⟨t, ht, -⟩ := hall id (str " inn") (by decide +kernel)
  have hnone : beginTerms id true (str " inn") = [] := by decide +kernel
  rw [hnone] at ht
  cases ht

end Zapdos.Search
