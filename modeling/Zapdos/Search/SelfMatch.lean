/-
  A text as its own query — the terms that the query for a text requires, against the full words that
  indexing posts for it.

  Indexing posts every word, its stem, and two neighbouring words as one where the first is short or
  the two are equal.  The query joins words after they are stemmed, and a joined word can be joined
  again.

  THE CRUX.  A stem, and two neighbouring words of the text joined once, are always posted
  (`Plain.posted`).  Everything else the query joins is posted only by accident: "running running"
  becomes "runrun", and "a a aa" becomes "aaaa".
-/
import Mathlib.Data.List.Chain
import Zapdos.Search.IndexBase
import Zapdos.Search.Words

namespace Zapdos.Search

open Zapdos.Lib Zapdos.Store

/-! ## The terms of the query -/

/-- What the query parser makes of `text`, taken to require each `+` term as it is written. -/
def requiredTerms (text : Bytes) : List Bytes :=
  ((splitSpace text).filter (fun t => t.head? = some 43)).map (List.drop 1)

/-- The prefix of full words, for names or for the whole text. -/
def fullPrefixOf (useName : Bool) : Bytes := if useName then xapNamefullPrefix else []

/-- The prefix of partial words. -/
def partPrefixOf (useName : Bool) : Bytes := if useName then xapNamepartPrefix else xapPartwordPrefix

section

variable (kstem : Bytes → Bytes)

/-- The query words of a text when all words are stemmed: `FlattenCount`, `StemQuery` and
    `SplitMerge`. -/
def queryWords (text : Bytes) : List Bytes :=
  splitMerge (stemQuery kstem (flattenCount text).1 false)

/-- The terms that the query for a text requires. -/
def queryTerms (useName : Bool) (text : Bytes) : List Bytes :=
  requiredTerms (getQueryString (queryWords kstem text) .fullWords [] (str "+" ++ fullPrefixOf useName)
    (str "+" ++ partPrefixOf useName))

end

theorem splitSpace_ne_nil (x : Bytes) : splitSpace x ≠ [] := by
  cases x with
  | nil => simp [splitSpace]
  | cons c cs =>
    rw [splitSpace]
    split
    · simp
    · split <;> simp

theorem splitSpace_append (x y : Bytes) :
    splitSpace (x ++ 32 :: y) = splitSpace x ++ splitSpace y := by
  induction x with
  | nil => simp [splitSpace, blank_isSpace]
  | cons c cs ih =>
    rw [List.cons_append, splitSpace, splitSpace]
    by_cases hs : isSpace c = true
    · rw [if_pos hs, if_pos hs, ih]
      rfl
    · rw [if_neg hs, if_neg hs, ih]
      cases hcs : splitSpace cs with
      | nil => exact absurd hcs (splitSpace_ne_nil cs)
      | cons w ws => rfl

theorem splitSpace_noSpace {x : Bytes} (h : ∀ c ∈ x, isSpace c = false) : splitSpace x = [x] := by
  induction x with
  | nil => rfl
  | cons c cs ih =>
    rw [splitSpace, if_neg (by rw [h c List.mem_cons_self]; nofun),
      ih (fun d hd => h d (List.mem_cons_of_mem c hd))]

theorem IsWord.noSpace {w : Bytes} (h : IsWord w) : ∀ c ∈ w, isSpace c = false := by
  intro c hc
  have ha := (h.alnum c hc).1
  simp only [isAlnum, Bool.or_eq_true, Bool.and_eq_true, decide_eq_true_eq] at ha
  simp only [isSpace, Bool.or_eq_false_iff, Bool.and_eq_false_iff, decide_eq_false_iff_not]
  omega

theorem splitSpace_words {pfx : Bytes} (hp : ∀ c ∈ pfx, isSpace c = false) {ws : List Bytes}
    (hw : ∀ w ∈ ws, IsWord w) (x : Bytes) :
    splitSpace (x ++ ws.flatMap (fun w => 32 :: (pfx ++ w))) =
      splitSpace x ++ ws.map (pfx ++ ·) := by
  induction ws generalizing x with
  | nil => simp
  | cons w ws ih =>
    have htail : ∀ v ∈ ws, IsWord v := fun v hv => hw v (List.mem_cons_of_mem w hv)
    have hfirst : splitSpace (pfx ++ w) = [pfx ++ w] := by
      refine splitSpace_noSpace fun c hc => ?_
      rcases List.mem_append.mp hc with hc | hc
      · exact hp c hc
      · exact (hw w List.mem_cons_self).noSpace c hc
    rw [List.flatMap_cons, List.cons_append, splitSpace_append, ih htail, hfirst]
    rfl

theorem getQueryWords_full (fullPrefix partPrefix : Bytes) (ws : List Bytes) :
    getQueryWords .fullWords fullPrefix partPrefix ws =
      ws.flatMap (fun w => 32 :: (fullPrefix ++ w)) := by
  induction ws with
  | nil => rfl
  | cons w ws ih =>
    have hno : ¬ (QueryWordsE.fullWords = .allPartial ∨
        (QueryWordsE.fullWords = .lastPartial ∧ ws = [])) := by simp
    rw [getQueryWords, if_neg hno, ih]
    rfl

theorem requiredTerms_plus {ts : List Bytes} :
    ((ts.map (43 :: ·)).filter (fun t : Bytes => t.head? = some 43)).map (List.drop 1) = ts := by
  induction ts with
  | nil => rfl
  | cons t ts ih => simpa using ih

/-- Joined words are words. -/
theorem isWord_run {g : List Bytes} {b : Bytes} (h : Run id joins g b) (hg : ∀ w ∈ g, IsWord w) :
    IsWord b := by
  rw [joined_eq h]
  constructor
  · cases g with
    | nil => exact absurd rfl h.ne_nil
    | cons w ws =>
      have hne := (hg w List.mem_cons_self).ne_nil
      simp [hne]
  · intro c hc
    obtain ⟨w, hw, hc⟩ := List.mem_flatten.mp hc
    exact (hg w hw).alnum c hc

section

variable (kstem : Bytes → Bytes)

theorem queryWords_eq (text : Bytes) :
    queryWords kstem text = greedy id joins (stemmedWords kstem (lowerNoQuote text)) := by
  rw [queryWords, splitMerge_eq, lowerNoQuote_stemQuery, lowerNoQuote_flattenCount]

theorem isWord_of_mem_stemmedWords {words : List Bytes} {w : Bytes}
    (hw : w ∈ stemmedWords kstem words) : IsWord w := by
  obtain ⟨v, -, hv⟩ := List.mem_flatMap.mp hw
  exact isWord_of_mem hv

theorem isWord_queryWords (text : Bytes) : ∀ w ∈ queryWords kstem text, IsWord w := by
  rw [queryWords_eq, forall_greedy_iff]
  intro gs hgs p hp
  obtain ⟨hrun, hpart⟩ := hgs.run_of_mem hp
  exact isWord_run hrun fun w hw => isWord_of_mem_stemmedWords kstem (hpart.subset hw)

/-- The terms required are the query words under their prefix. -/
theorem queryTerms_eq (useName : Bool) (text : Bytes) :
    queryTerms kstem useName text = (queryWords kstem text).map (fullPrefixOf useName ++ ·) := by
  have hp : ∀ c ∈ str "+" ++ fullPrefixOf useName, isSpace c = false := by
    cases useName <;> decide +kernel
  have hwords := splitSpace_words hp (isWord_queryWords kstem text) []
  rw [queryTerms, requiredTerms, getQueryString, getQueryWords_full]
  rw [List.nil_append] at hwords
  simp only [List.isEmpty_nil, if_true, List.append_nil, hwords]
  have hplus : (queryWords kstem text).map (str "+" ++ fullPrefixOf useName ++ ·) =
      ((queryWords kstem text).map (fullPrefixOf useName ++ ·)).map (43 :: ·) := by
    rw [List.map_map]
    rfl
  rw [hplus]
  show (((([] : Bytes) :: ((queryWords kstem text).map (fullPrefixOf useName ++ ·)).map
    (43 :: ·)).filter (fun t : Bytes => t.head? = some 43)).map (List.drop 1)) = _
  rw [List.filter_cons_of_neg (by simp), requiredTerms_plus]

/-! ## The terms of the index -/

/-- The full words that `IndexWithPart` posts for the words of a text. -/
def fullWordsLoop (withStem : Bool) : Option Bytes → List Bytes → List Bytes
  | _, [] => []
  | prev, w :: ws => fullWordsAt kstem withStem prev w ++ fullWordsLoop withStem (some w) ws

/-- The full-word terms that `IndexWithPart` posts for a text with stemming on. -/
def fullTerms (useName : Bool) (text : Bytes) : List Bytes :=
  (fullWordsLoop kstem true none (lowerNoQuote text)).map (fullPrefixOf useName ++ ·)

theorem mem_indexWithPartLoop {fullPrefix partPrefix : Bytes} {withStem : Bool}
    {prev : Option Bytes} {words : List Bytes} {t : Bytes} :
    t ∈ indexWithPartLoop kstem fullPrefix partPrefix withStem prev words ↔
      t ∈ (fullWordsLoop kstem withStem prev words).map (fullPrefix ++ ·) ∨
        t ∈ (words.flatMap partWordsAt).map (partPrefix ++ ·) := by
  induction words generalizing prev with
  | nil => simp [indexWithPartLoop, fullWordsLoop]
  | cons w ws ih =>
    rw [indexWithPartLoop, fullWordsLoop, List.flatMap_cons, List.map_append, List.map_append,
      List.mem_append, List.mem_append, ih, List.mem_append, List.mem_append]
    tauto

/-- The full-word terms are among the terms of `IndexWithPart`. -/
theorem fullTerms_subset (useName : Bool) (text partPrefix : Bytes) :
    fullTerms kstem useName text ⊆
      indexWithPart kstem text (fullPrefixOf useName) partPrefix true := by
  intro t ht
  exact (mem_indexWithPartLoop kstem).mpr (Or.inl ht)

/-- A word that indexing posts for a text with these words: one of them, a stem, or two neighbours of
    which the first is short or the second is the same. -/
def Posted (words : List Bytes) (x : Bytes) : Prop :=
  x ∈ words ∨ (∃ w ∈ words, xapMinStemLen ≤ w.length ∧ x = stemWord kstem w) ∨
    ∃ p w, [p, w] <:+: words ∧ (w = p ∨ p.length ≤ xapMaxShinLen) ∧ x = p ++ w

theorem mem_fullWordsAt {prev : Option Bytes} {w x : Bytes} :
    x ∈ fullWordsAt kstem true prev w ↔
      x = w ∨ (xapMinStemLen ≤ w.length ∧ x = stemWord kstem w) ∨
        ∃ p, prev = some p ∧ (w = p ∨ p.length ≤ xapMaxShinLen) ∧ x = p ++ w := by
  have hstem : x ∈ (if (true && (w.length ≥ xapMinStemLen : Bool)) = true then
      (if w ≠ stemWord kstem w then [stemWord kstem w] else []) else []) ↔
        xapMinStemLen ≤ w.length ∧ w ≠ stemWord kstem w ∧ x = stemWord kstem w := by
    by_cases hlen : xapMinStemLen ≤ w.length
    · by_cases hne : w ≠ stemWord kstem w
      · simp [hlen, hne]
      · simp [hlen, hne]
    · simp [hlen]
  have hjoin : ∀ p, x ∈ (if w = p ∨ p.length ≤ xapMaxShinLen then [p ++ w] else []) ↔
      (w = p ∨ p.length ≤ xapMaxShinLen) ∧ x = p ++ w := by
    intro p
    by_cases h : w = p ∨ p.length ≤ xapMaxShinLen
    · simp [h]
    · simp [h]
  have hmerge : ∀ joined : Prop,
      (x = w ∨ xapMinStemLen ≤ w.length ∧ w ≠ stemWord kstem w ∧ x = stemWord kstem w) ∨ joined ↔
        x = w ∨ (xapMinStemLen ≤ w.length ∧ x = stemWord kstem w) ∨ joined := by
    intro joined
    constructor
    · rintro ((h | ⟨h1, -, h2⟩) | h)
      · exact Or.inl h
      · exact Or.inr (Or.inl ⟨h1, h2⟩)
      · exact Or.inr (Or.inr h)
    · rintro (h | ⟨h1, h2⟩ | h)
      · exact Or.inl (Or.inl h)
      · -- a stem equal to its word is posted as the word
        by_cases hne : w = stemWord kstem w
        · exact Or.inl (Or.inl (h2.trans hne.symm))
        · exact Or.inl (Or.inr ⟨h1, hne, h2⟩)
      · exact Or.inr h
  unfold fullWordsAt
  rw [List.mem_append, List.mem_append, List.mem_singleton, hstem, hmerge]
  refine or_congr_right (or_congr_right ?_)
  cases prev with
  | none => simp
  | some p => simp [hjoin]

theorem pair_isInfix_cons {p w v : Bytes} {ws : List Bytes} :
    [p, w] <:+: v :: ws ↔ (p = v ∧ ws.head? = some w) ∨ [p, w] <:+: ws := by
  rw [List.infix_cons_iff, List.cons_prefix_cons]
  refine or_congr_left (and_congr_right fun _ => ?_)
  cases ws with
  | nil => simp
  | cons u us => simp [List.cons_prefix_cons, eq_comm]

theorem mem_fullWordsLoop {prev : Option Bytes} {words : List Bytes} {x : Bytes} :
    x ∈ fullWordsLoop kstem true prev words ↔ Posted kstem words x ∨
      ∃ p w, prev = some p ∧ words.head? = some w ∧ (w = p ∨ p.length ≤ xapMaxShinLen) ∧
        x = p ++ w := by
  induction words generalizing prev with
  | nil => simp [fullWordsLoop, Posted]
  | cons v ws ih =>
    rw [fullWordsLoop, List.mem_append, ih, mem_fullWordsAt]
    simp only [Posted, pair_isInfix_cons, List.mem_cons, List.head?_cons, Option.some.injEq]
    constructor
    · rintro ((h | ⟨h1, h2⟩ | ⟨p, hp, h1, h2⟩) | ((h | ⟨w, hw, h⟩ | ⟨p, w, hpw, h⟩) |
        ⟨p, w, hp, hw, h⟩))
      · exact Or.inl (Or.inl (Or.inl h))
      · exact Or.inl (Or.inr (Or.inl ⟨v, Or.inl rfl, h1, h2⟩))
      · exact Or.inr ⟨p, v, hp, rfl, h1, h2⟩
      · exact Or.inl (Or.inl (Or.inr h))
      · exact Or.inl (Or.inr (Or.inl ⟨w, Or.inr hw, h⟩))
      · exact Or.inl (Or.inr (Or.inr ⟨p, w, Or.inr hpw, h⟩))
      · exact Or.inl (Or.inr (Or.inr ⟨p, w, Or.inl ⟨hp.symm, hw⟩, h⟩))
    · rintro (((h | h) | ⟨w, (rfl | hw), h⟩ | ⟨p, w, (⟨rfl, hw⟩ | hpw), h⟩) | ⟨p, w, hp, hw, h⟩)
      · exact Or.inl (Or.inl h)
      · exact Or.inr (Or.inl (Or.inl h))
      · exact Or.inl (Or.inr (Or.inl h))
      · exact Or.inr (Or.inl (Or.inr (Or.inl ⟨w, hw, h⟩)))
      · exact Or.inr (Or.inr ⟨p, w, rfl, hw, h⟩)
      · exact Or.inr (Or.inl (Or.inr (Or.inr ⟨p, w, hpw, h⟩)))
      · exact Or.inl (Or.inr (Or.inr ⟨p, hp, hw ▸ h⟩))

theorem mem_fullTerms {useName : Bool} {text x : Bytes} :
    fullPrefixOf useName ++ x ∈ fullTerms kstem useName text ↔
      Posted kstem (lowerNoQuote text) x := by
  rw [fullTerms, List.mem_map_of_injective (List.append_right_injective _), mem_fullWordsLoop]
  simp

theorem fullTerms_subset_nameTerms (suggest name : Bytes) :
    fullTerms kstem true name ⊆ nameTerms kstem true suggest name := by
  intro t ht
  cases name with
  | nil => cases ht
  | cons c cs =>
    have hpost := fullTerms_subset kstem true (c :: cs) xapNamepartPrefix ht
    unfold nameTerms
    exact List.mem_append_left _ (List.mem_append_right _ hpost)

theorem documentOf_terms {gh : GeoHash} {record : ItemDataT} {terms : List Bytes} {d : Document}
    (h : documentOf gh record terms = some d) : terms ⊆ d.terms := by
  obtain ⟨coords, -, rfl⟩ := Option.map_eq_some_iff.mp h
  intro t ht
  exact List.mem_append_left _ (List.mem_append_left _ ht)

/-- The document of an English local record has the full-word terms of its name. -/
theorem fullTerms_subset_local {gh : GeoHash} {record : ItemDataT} {d : Document}
    (hlang : record.lang = langEn) (h : createDocLocal kstem gh record = some d) :
    fullTerms kstem true record.fldName ⊆ d.terms := by
  intro t ht
  rw [createDocLocal, hlang] at h
  refine documentOf_terms h ?_
  simp only [List.append_assoc]
  exact List.mem_append_left _ (fullTerms_subset_nameTerms kstem _ _ ht)

/-- The document of an English wiki record has the full-word terms of its title. -/
theorem fullTerms_subset_wiki {gh : GeoHash} {record : ItemDataT} {d : Document}
    (hlang : record.lang = langEn) (h : createDocWiki kstem gh record = some d) :
    fullTerms kstem true record.title ⊆ d.terms := by
  intro t ht
  rw [createDocWiki, hlang] at h
  refine documentOf_terms h ?_
  simp only [List.append_assoc]
  exact List.mem_append_left _ (fullTerms_subset_nameTerms kstem _ _ ht)

/-! ## The joins of the query -/

/-- A run of query words that is nothing but the stem of one word of the text, or two neighbouring
    words of the text. -/
def Plain (words g : List Bytes) : Prop :=
  (∃ w ∈ words, g = [stemmed kstem w]) ∨ ∃ p w, [p, w] <:+: words ∧ g = [p, w]

/-- Indexing posts the plain runs, joined. -/
theorem Plain.posted {words g : List Bytes} {b : Bytes} (h : Plain kstem words g)
    (hrun : Run id joins g b) : Posted kstem words b := by
  rcases h with ⟨w, hw, rfl⟩ | ⟨p, w, hpw, rfl⟩
  · have hb : b = stemmed kstem w := by simpa using joined_eq hrun
    rw [hb, stemmed]
    by_cases hlen : w.length ≥ xapMinStemLen
    · rw [if_pos hlen]
      exact Or.inr (Or.inl ⟨w, hw, hlen, rfl⟩)
    · rw [if_neg hlen]
      exact Or.inl hw
  · obtain ⟨rfl, hjoin⟩ := joined_pair hrun
    have hshort : xapMergeLimit ≤ xapMaxShinLen := by decide
    exact Or.inr (Or.inr ⟨p, w, hpw, hjoin.imp id (·.trans hshort), rfl⟩)

/-- Whatever the query joins beyond that, indexing happens to post as well.  The runs are those of the
    stemmed words: two equal words or two of one character, and then any word that equals what is
    joined so far. -/
def JoinsPosted (text : Bytes) : Prop :=
  ∀ gs, Cut id joins (stemmedWords kstem (lowerNoQuote text)) gs → ∀ p ∈ gs,
    ¬ Plain kstem (lowerNoQuote text) p.1 → Posted kstem (lowerNoQuote text) p.2

/-- A text whose words all have a word as their stem, and no two neighbouring stems that are equal or
    both of one character, gives the query nothing to join. -/
theorem joinsPosted_of_apart {text : Bytes}
    (hstem : ∀ w ∈ lowerNoQuote text, IsWord (stemmed kstem w))
    (hapart : ((lowerNoQuote text).map (stemmed kstem)).IsChain (fun v w => joins v w = none)) :
    JoinsPosted kstem text := by
  intro gs hgs p hp hplain
  have hwords : stemmedWords kstem (lowerNoQuote text) =
      (lowerNoQuote text).map (stemmed kstem) := by
    rw [stemmedWords, ← List.flatMap_singleton' ((lowerNoQuote text).map _), List.flatMap_map]
    exact List.flatMap_congr fun w hw => lowerNoQuote_word (hstem w hw)
  rw [hwords] at hgs
  obtain ⟨hrun, hpart⟩ := hgs.run_of_mem hp
  refine absurd ?_ hplain
  rcases hrun.first with ⟨v, hv, -⟩ | ⟨v, w, r, b', hvw, hjoin⟩
  · have hmem : v ∈ (lowerNoQuote text).map (stemmed kstem) := hpart.subset (by rw [hv]; simp)
    obtain ⟨w, hw, rfl⟩ := List.mem_map.mp hmem
    exact Or.inl ⟨w, hw, hv⟩
  · have hchain := hapart.infix hpart
    rw [hvw, List.isChain_cons_cons] at hchain
    have hnone : joins v w = none := hchain.1
    rw [show joins v w = some b' from hjoin] at hnone
    cases hnone

theorem posted_iff (text : Bytes) :
    (∀ w ∈ queryWords kstem text, Posted kstem (lowerNoQuote text) w) ↔ JoinsPosted kstem text := by
  rw [queryWords_eq, forall_greedy_iff]
  constructor
  · intro h gs hgs p hp _
    exact h gs hgs p hp
  · intro h gs hgs p hp
    by_cases hplain : Plain kstem (lowerNoQuote text) p.1
    · exact hplain.posted kstem (hgs.run_of_mem hp).1
    · exact h gs hgs p hp hplain

/-- The terms that the query requires are posted when its words are. -/
theorem queryTerms_posted_iff (useName : Bool) (text : Bytes) :
    (∀ t ∈ queryTerms kstem useName text, t ∈ fullTerms kstem useName text) ↔
      ∀ w ∈ queryWords kstem text, Posted kstem (lowerNoQuote text) w := by
  rw [queryTerms_eq, List.forall_mem_map]
  simp only [mem_fullTerms]

/-- **A text is found by itself** exactly when all the query joins beyond neighbouring words of the
    text, left as they are, is posted by accident. -/
theorem found_by_itself_iff (useName : Bool) (text : Bytes) :
    (∀ t ∈ queryTerms kstem useName text, t ∈ fullTerms kstem useName text) ↔
      JoinsPosted kstem text :=
  (queryTerms_posted_iff kstem useName text).trans (posted_iff kstem text)

/-- A local record is matched by its own name when the name is found by itself. -/
theorem local_matched {gh : GeoHash} {record : ItemDataT} {d : Document}
    (hlang : record.lang = langEn) (hdoc : createDocLocal kstem gh record = some d)
    (h : JoinsPosted kstem record.fldName) :
    ∀ t ∈ queryTerms kstem true record.fldName, t ∈ d.terms := fun t ht =>
  fullTerms_subset_local kstem hlang hdoc ((queryTerms_posted_iff kstem true _).mpr ((posted_iff kstem _).mpr h) t ht)

/-- A wiki record is matched by its own title when the title is found by itself. -/
theorem wiki_matched {gh : GeoHash} {record : ItemDataT} {d : Document}
    (hlang : record.lang = langEn) (hdoc : createDocWiki kstem gh record = some d)
    (h : JoinsPosted kstem record.title) :
    ∀ t ∈ queryTerms kstem true record.title, t ∈ d.terms := fun t ht =>
  fullTerms_subset_wiki kstem hlang hdoc ((queryTerms_posted_iff kstem true _).mpr ((posted_iff kstem _).mpr h) t ht)

end

/-- The stem of `running`, as far as the next theorem needs it. -/
def stemRunning (w : Bytes) : Bytes := if w = str "running" then str "run" else w

/-- The name "running running" requires "runrun", and is indexed under "running", "run" and
    "runningrunning". -/
theorem repeated_word_lost :
    ¬ ∀ t ∈ queryTerms stemRunning true (str "running running"),
      t ∈ fullTerms stemRunning true (str "running running") := by
  decide +kernel

end Zapdos.Search
