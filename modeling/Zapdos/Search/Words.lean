/-
  Facts about words — what `LowerNoQuote` makes of a text, of a flattened text and of a stemmed text,
  and the words `SplitMerge` joins.

  THE CRUX.  A blank always ends a word, so the words of texts joined with blanks are the words of the
  texts, one after the other (`lowerNoQuote_append_space`).  Flattening and stemming join with blanks.
-/
import Zapdos.Lib.Greedy
import Zapdos.Search.BaseUtils

namespace Zapdos.Search

open Zapdos.Lib Zapdos.Store

/-! ## Words -/

/-- A word: lowercase letters and digits, at least one. -/
structure IsWord (w : Bytes) : Prop where
  ne_nil : w ≠ []
  alnum : ∀ c ∈ w, isAlnum c = true ∧ toLower c = c

theorem isAlnum_toLower {c : UInt8} (h : isAlnum c = true) :
    isAlnum (toLower c) = true ∧ toLower (toLower c) = toLower c := by
  by_cases hup : 65 ≤ c.toNat ∧ c.toNat ≤ 90
  · have hlow : toLower c = c + 32 := if_pos hup
    have hnat : (c + 32).toNat = c.toNat + 32 := by
      rw [UInt8.toNat_add]
      show (c.toNat + 32) % 256 = _
      omega
    have hnot : ¬ (65 ≤ (c + 32).toNat ∧ (c + 32).toNat ≤ 90) := by omega
    rw [hlow]
    refine ⟨?_, if_neg hnot⟩
    simp only [isAlnum, hnat, Bool.or_eq_true, Bool.and_eq_true, decide_eq_true_eq]
    omega
  · have hlow : toLower c = c := if_neg hup
    rw [hlow]
    exact ⟨h, hlow⟩

theorem blank_isAlnum : isAlnum 32 = false := by decide

theorem blank_isQuote : isQuote 32 = false := by decide

theorem blank_isSpace : isSpace 32 = true := by decide

/-- The word being read is empty exactly when the last character that counted was no letter. -/
def Reading (xtmp : Bytes) (last : Bool) : Prop := last = true ↔ xtmp ≠ []

theorem reading_nil : Reading [] false := by simp [Reading]

theorem reading_snoc (xtmp : Bytes) (c : UInt8) : Reading (xtmp ++ [c]) true := by simp [Reading]

theorem isQuote_of_isSpace {c : UInt8} (h : isSpace c = true) : isQuote c = false := by
  simp only [isSpace, Bool.or_eq_true, Bool.and_eq_true, decide_eq_true_eq] at h
  simp only [isQuote, Bool.or_eq_false_iff, decide_eq_false_iff_not]
  omega

theorem lowerNoQuoteLoop_isSpace {c : UInt8} (hc : isSpace c = true) (y xtmp : Bytes) (last : Bool) :
    lowerNoQuoteLoop (c :: y) xtmp last =
      if last then xtmp :: lowerNoQuoteLoop y [] false else lowerNoQuoteLoop y xtmp last := by
  rw [lowerNoQuoteLoop, if_neg (by rw [isAlnum_of_isSpace hc]; nofun),
    if_neg (by rw [isQuote_of_isSpace hc]; nofun), hc]
  rfl

/-- White space ends a word. -/
theorem lowerNoQuoteLoop_append_isSpace {c : UInt8} (hc : isSpace c = true) (x y : Bytes)
    {xtmp : Bytes} {last : Bool} (h : Reading xtmp last) :
    lowerNoQuoteLoop (x ++ c :: y) xtmp last = lowerNoQuoteLoop x xtmp last ++ lowerNoQuote y := by
  induction x generalizing xtmp last with
  | nil =>
    rw [List.nil_append, lowerNoQuoteLoop_isSpace hc]
    cases last with
    | true =>
      have hne : xtmp.length > 0 := List.length_pos_iff.mpr (h.mp rfl)
      simp [lowerNoQuoteLoop, lowerNoQuote, hne]
    | false =>
      have hnil : xtmp = [] := by
        by_contra hne
        exact absurd (h.mpr hne) (by simp)
      simp [lowerNoQuoteLoop, lowerNoQuote, hnil]
  | cons d cs ih =>
    rw [List.cons_append, lowerNoQuoteLoop, lowerNoQuoteLoop]
    by_cases ha : isAlnum d = true
    · rw [if_pos ha, if_pos ha]
      exact ih (reading_snoc xtmp (toLower d))
    · by_cases hq : isQuote d = true
      · rw [if_neg ha, if_neg ha, if_pos hq, if_pos hq]
        exact ih h
      · by_cases hs : ((isSpace d || isPunct d) && last) = true
        · rw [if_neg ha, if_neg ha, if_neg hq, if_neg hq, if_pos hs, if_pos hs, ih reading_nil]
          rfl
        · rw [if_neg ha, if_neg ha, if_neg hq, if_neg hq, if_neg hs, if_neg hs]
          exact ih h

/-- The words of two texts with white space between them. -/
theorem lowerNoQuote_append_isSpace {c : UInt8} (hc : isSpace c = true) (x y : Bytes) :
    lowerNoQuote (x ++ c :: y) = lowerNoQuote x ++ lowerNoQuote y :=
  lowerNoQuoteLoop_append_isSpace hc x y reading_nil

/-- The words of two texts with a blank between them. -/
theorem lowerNoQuote_append_space (x y : Bytes) :
    lowerNoQuote (x ++ 32 :: y) = lowerNoQuote x ++ lowerNoQuote y :=
  lowerNoQuote_append_isSpace blank_isSpace x y

theorem isWord_of_mem_loop {cs xtmp : Bytes} {last : Bool} (h : Reading xtmp last)
    (hx : ∀ c ∈ xtmp, isAlnum c = true ∧ toLower c = c) {w : Bytes}
    (hw : w ∈ lowerNoQuoteLoop cs xtmp last) : IsWord w := by
  induction cs generalizing xtmp last with
  | nil =>
    rw [lowerNoQuoteLoop] at hw
    split at hw
    · rename_i hlen
      rw [List.mem_singleton.mp hw]
      exact ⟨List.length_pos_iff.mp hlen, hx⟩
    · cases hw
  | cons c cs ih =>
    rw [lowerNoQuoteLoop] at hw
    by_cases ha : isAlnum c = true
    · rw [if_pos ha] at hw
      refine ih (reading_snoc xtmp (toLower c)) ?_ hw
      intro d hd
      rcases List.mem_append.mp hd with hd | hd
      · exact hx d hd
      · rw [List.mem_singleton.mp hd]
        exact isAlnum_toLower ha
    · by_cases hq : isQuote c = true
      · rw [if_neg ha, if_pos hq] at hw
        exact ih h hx hw
      · by_cases hs : ((isSpace c || isPunct c) && last) = true
        · rw [if_neg ha, if_neg hq, if_pos hs] at hw
          rcases List.mem_cons.mp hw with rfl | hw
          · have hlast : last = true := (Bool.and_eq_true_iff.mp hs).2
            exact ⟨h.mp hlast, hx⟩
          · exact ih reading_nil nofun hw
        · rw [if_neg ha, if_neg hq, if_neg hs] at hw
          exact ih h hx hw

/-- What `LowerNoQuote` returns are words. -/
theorem isWord_of_mem {input w : Bytes} (hw : w ∈ lowerNoQuote input) : IsWord w :=
  isWord_of_mem_loop reading_nil nofun hw

theorem lowerNoQuoteLoop_word {w xtmp : Bytes} {last : Bool}
    (hw : ∀ c ∈ w, isAlnum c = true ∧ toLower c = c) (hne : xtmp ++ w ≠ []) :
    lowerNoQuoteLoop w xtmp last = [xtmp ++ w] := by
  induction w generalizing xtmp last with
  | nil =>
    rw [List.append_nil] at hne ⊢
    rw [lowerNoQuoteLoop, if_pos (List.length_pos_iff.mpr hne)]
  | cons c cs ih =>
    obtain ⟨ha, hl⟩ := hw c List.mem_cons_self
    rw [lowerNoQuoteLoop, if_pos ha, hl, ih (fun d hd => hw d (List.mem_cons_of_mem c hd)) (by simp),
      List.append_assoc]
    rfl

/-- A word is its own only word. -/
theorem lowerNoQuote_word {w : Bytes} (h : IsWord w) : lowerNoQuote w = [w] :=
  lowerNoQuoteLoop_word h.alnum h.ne_nil

/-! ## The query before merging -/

theorem flattenCountLoop_append (cs xtmp : Bytes) (wc : ℕ) (last : Bool) :
    (flattenCountLoop cs xtmp wc last).1 = xtmp ++ (flattenCountLoop cs [] 0 last).1 := by
  induction cs generalizing xtmp wc last with
  | nil => simp [flattenCountLoop]
  | cons c cs ih =>
    rw [flattenCountLoop, flattenCountLoop]
    by_cases ha : isAlnum c = true
    · rw [if_pos ha, if_pos ha, ih, ih ([] ++ [toLower c])]
      simp
    · by_cases hq : isQuote c = true
      · rw [if_neg ha, if_neg ha, if_pos hq, if_pos hq, ih]
      · by_cases hs : ((isSpace c || isPunct c) && last) = true
        · rw [if_neg ha, if_neg ha, if_neg hq, if_neg hq, if_pos hs, if_pos hs, ih, ih ([] ++ [32])]
          simp
        · rw [if_neg ha, if_neg ha, if_neg hq, if_neg hq, if_neg hs, if_neg hs, ih]

/-- Reading the flattened text is reading the text. -/
theorem lowerNoQuoteLoop_flatten (cs : Bytes) {xtmp : Bytes} {last : Bool} (h : Reading xtmp last) :
    lowerNoQuoteLoop (flattenCountLoop cs [] 0 last).1 xtmp last =
      lowerNoQuoteLoop cs xtmp last := by
  induction cs generalizing xtmp last with
  | nil => rfl
  | cons c cs ih =>
    rw [flattenCountLoop, lowerNoQuoteLoop]
    by_cases ha : isAlnum c = true
    · have hlow := isAlnum_toLower ha
      rw [if_pos ha, if_pos ha, flattenCountLoop_append, List.nil_append, List.singleton_append,
        lowerNoQuoteLoop, if_pos hlow.1, hlow.2]
      exact ih (reading_snoc xtmp (toLower c))
    · by_cases hq : isQuote c = true
      · rw [if_neg ha, if_neg ha, if_pos hq, if_pos hq]
        exact ih h
      · by_cases hs : ((isSpace c || isPunct c) && last) = true
        · rw [if_neg ha, if_neg ha, if_neg hq, if_neg hq, if_pos hs, if_pos hs,
            flattenCountLoop_append, List.nil_append, List.singleton_append]
          -- the blank that the flattened text has here ends the same word
          have hlast : last = true := (Bool.and_eq_true_iff.mp hs).2
          rw [lowerNoQuoteLoop_isSpace blank_isSpace, if_pos hlast, ih reading_nil]
        · rw [if_neg ha, if_neg ha, if_neg hq, if_neg hq, if_neg hs, if_neg hs]
          exact ih h

/-- `FlattenCount` keeps the words. -/
theorem lowerNoQuote_flattenCount (input : Bytes) :
    lowerNoQuote (flattenCount input).1 = lowerNoQuote input :=
  lowerNoQuoteLoop_flatten input reading_nil

section

variable (kstem : Bytes → Bytes)

/-- What `StemQuery` writes for a word when all words are stemmed. -/
def stemmed (w : Bytes) : Bytes := if w.length ≥ xapMinStemLen then stemWord kstem w else w

/-- The words of a query before any are joined: those of the stemmed words, which the stemmer may
    have changed into none or several. -/
def stemmedWords (words : List Bytes) : List Bytes :=
  words.flatMap (fun w => lowerNoQuote (stemmed kstem w))

theorem lowerNoQuote_stemQueryLoop (words : List Bytes) :
    lowerNoQuote (stemQueryLoop kstem false words) = stemmedWords kstem words := by
  induction words with
  | nil => rfl
  | cons w words ih =>
    have hw : (if ((w.length ≥ xapMinStemLen : Bool) && !(false && words.isEmpty)) = true then
        stemWord kstem w else w) = stemmed kstem w := by simp [stemmed]
    rw [stemQueryLoop]
    show lowerNoQuote ((if _ then _ else _) ++ _ ++ _) = _
    rw [hw, stemmedWords, List.flatMap_cons]
    cases words with
    | nil => simp [stemQueryLoop]
    | cons w' words' =>
      rw [if_pos (by simp), List.append_assoc, List.singleton_append, lowerNoQuote_append_space, ih]
      rfl

/-- The words of a stemmed text. -/
theorem lowerNoQuote_stemQuery (input : Bytes) :
    lowerNoQuote (stemQuery kstem input false) = stemmedWords kstem (lowerNoQuote input) :=
  lowerNoQuote_stemQueryLoop kstem (lowerNoQuote input)

end

/-! ## Joined words -/

/-- A query word `jt` takes in the next word when they are equal or both of one character. -/
def joins (jt it : Bytes) : Option Bytes :=
  if it = jt ∨ (it.length ≤ xapMergeLimit ∧ jt.length ≤ xapMergeLimit) then some (jt ++ it) else none

theorem splitMergeLoop_eq (jt : Bytes) (words : List Bytes) :
    splitMergeLoop jt words = greedyFrom id joins jt words := by
  induction words generalizing jt with
  | nil => rfl
  | cons it rest ih =>
    rw [splitMergeLoop]
    by_cases h : it = jt ∨ (it.length ≤ xapMergeLimit ∧ jt.length ≤ xapMergeLimit)
    · rw [if_pos h, ih, greedyFrom_take (if_pos h)]
    · rw [if_neg h, ih, greedyFrom_stop (if_neg h)]
      rfl

/-- `SplitMerge` is a greedy fold of the words. -/
theorem splitMerge_eq (input : Bytes) :
    splitMerge input = greedy id joins (lowerNoQuote input) := by
  rw [splitMerge]
  cases lowerNoQuote input with
  | nil => rfl
  | cons w ws => exact splitMergeLoop_eq w ws

/-- A run of joined words spells their concatenation. -/
theorem joined_eq {g : List Bytes} {b : Bytes} (h : Run id joins g b) : b = g.flatten := by
  induction h with
  | one a => simp
  | @more g b b' a _ hstep ih =>
    rw [joins] at hstep
    split at hstep
    · rw [← Option.some.inj hstep, ih]
      simp
    · cases hstep

/-- Two words that are joined are equal or of one character. -/
theorem joined_pair {p w b : Bytes} (h : Run id joins [p, w] b) :
    b = p ++ w ∧ (w = p ∨ p.length ≤ xapMergeLimit) := by
  refine ⟨by simpa using joined_eq h, ?_⟩
  generalize hg : [p, w] = g at h
  cases h with
  | one a => simp at hg
  | @more g' b₀ b' a hrun hstep =>
    have hg' : [p] ++ [w] = g' ++ [a] := hg
    obtain ⟨h1, h2⟩ := List.append_inj' hg' rfl
    have hb : b₀ = p := by
      rw [joined_eq hrun, ← h1]
      simp
    rw [joins] at hstep
    split at hstep
    · rename_i hjoin
      rw [List.cons.inj h2 |>.1, ← hb]
      exact hjoin.imp id And.right
    · cases hstep

end Zapdos.Search
