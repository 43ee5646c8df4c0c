/-
  Flattened texts — `FlattenCount` against `LowerNoQuote`.

  The two loops run side by side: both drop quotes, skip control characters and the bytes of a
  multi-byte character, and end a word at the first blank or punctuation mark after it.  Where one
  loop ends a word the other writes a blank and counts.

  THE CRUX.  At the end of the text `LowerNoQuote` looks whether a word has been begun, `FlattenCount`
  whether the last character that counted was a letter: the same (`Reading`).
-/
import Zapdos.Search.SearchBase
import Zapdos.Search.Words

namespace Zapdos.Search

open Zapdos.Lib Zapdos.Store

/-- The count of one loop is the number of words of the other. -/
theorem flattenCountLoop_count (cs flat : Bytes) (wc : ℕ) {xtmp : Bytes} {last : Bool}
    (h : Reading xtmp last) :
    (flattenCountLoop cs flat wc last).2 = wc + (lowerNoQuoteLoop cs xtmp last).length := by
  induction cs generalizing flat wc xtmp last with
  | nil =>
    rw [flattenCountLoop, lowerNoQuoteLoop]
    cases last with
    | true =>
      have hne : xtmp.length > 0 := List.length_pos_iff.mpr (h.mp rfl)
      rw [if_pos hne]
      rfl
    | false =>
      have hnil : ¬ xtmp.length > 0 := fun hne =>
        absurd (h.mpr (List.length_pos_iff.mp hne)) (by decide)
      rw [if_neg hnil]
      rfl
  | cons c cs ih =>
    rw [flattenCountLoop, lowerNoQuoteLoop]
    by_cases ha : isAlnum c = true
    · rw [if_pos ha, if_pos ha]
      exact ih _ wc (reading_snoc xtmp (toLower c))
    · by_cases hq : isQuote c = true
      · rw [if_neg ha, if_neg ha, if_pos hq, if_pos hq]
        exact ih flat wc h
      · by_cases hs : ((isSpace c || isPunct c) && last) = true
        · rw [if_neg ha, if_neg ha, if_neg hq, if_neg hq, if_pos hs, if_pos hs,
            ih _ (wc + 1) reading_nil, List.length_cons]
          omega
        · rw [if_neg ha, if_neg ha, if_neg hq, if_neg hq, if_neg hs, if_neg hs]
          exact ih flat wc h

theorem flattenCount_count (input : Bytes) :
    (flattenCount input).2 = (lowerNoQuote input).length := by
  have hloop := flattenCountLoop_count input [] 0 reading_nil
  rw [Nat.zero_add] at hloop
  exact hloop

/-- Flattening what has been flattened, from the same state on. -/
theorem flattenCountLoop_flatten (cs flat : Bytes) (wc : ℕ) (last : Bool) :
    flattenCountLoop (flattenCountLoop cs [] 0 last).1 flat wc last =
      flattenCountLoop cs flat wc last := by
  induction cs generalizing flat wc last with
  | nil => rfl
  | cons c cs ih =>
    rw [flattenCountLoop, flattenCountLoop]
    by_cases ha : isAlnum c = true
    · obtain ⟨hlow, hsame⟩ := isAlnum_toLower ha
      simp only [if_pos ha]
      rw [flattenCountLoop_append, List.nil_append, List.singleton_append, flattenCountLoop,
        if_pos hlow, hsame]
      exact ih _ wc true
    · by_cases hq : isQuote c = true
      · simp only [if_neg ha, if_pos hq]
        exact ih flat wc last
      · by_cases hs : ((isSpace c || isPunct c) && last) = true
        · simp only [if_neg ha, if_neg hq, if_pos hs]
          rw [flattenCountLoop_append, List.nil_append, List.singleton_append, flattenCountLoop,
            if_neg (Bool.eq_false_iff.mp blank_isAlnum), if_neg (Bool.eq_false_iff.mp blank_isQuote)]
          -- the blank written here is a blank that ends a word
          have hlast : last = true := (Bool.and_eq_true_iff.mp hs).2
          rw [if_pos (by rw [blank_isSpace, hlast]; rfl)]
          exact ih _ (wc + 1) false
        · simp only [if_neg ha, if_neg hq, if_neg hs]
          exact ih flat wc last

/-- A flattened text is flat. -/
theorem flattenCount_flattenCount (input : Bytes) :
    flattenCount (flattenCount input).1 = flattenCount input :=
  flattenCountLoop_flatten input [] 0 false

/-- The one-word test of a rule counts the words of the raw query. -/
theorem inputOk_oneword (eng : Engine) (qr : UsedParamsT) (rule : QueryRuleT) :
    inputOk (prepareQuery eng qr).1 { rule with inputType := iOneword } =
      (decide ((lowerNoQuote qr.rawQuery).length ≤ 1)
        && !(rule.onewordLength > 0 &&
          (prepareQuery eng qr).1.query.length > rule.onewordLength)) := by
  have hcount : (prepareQuery eng qr).1.noOfWords = (lowerNoQuote qr.rawQuery).length :=
    flattenCount_count qr.rawQuery
  have hkind : iOneword ≠ iDefault := by decide
  rw [inputOk, if_neg hkind, if_pos rfl, hcount]
  congr 1
  rw [← decide_not]
  exact decide_eq_decide.mpr not_lt

/-- **The normalisers agree**: the count is the number of words, the flattened text has the words of
    the text and is flat, and the one-word test of a rule counts these words. -/
theorem normalisers_agree (x : Bytes) :
    (flattenCount x).2 = (lowerNoQuote x).length ∧
      lowerNoQuote (flattenCount x).1 = lowerNoQuote x ∧
      (flattenCount (flattenCount x).1).1 = (flattenCount x).1 ∧
      ∀ (eng : Engine) (qr : UsedParamsT) (rule : QueryRuleT),
        inputOk (prepareQuery eng { qr with rawQuery := x }).1 { rule with inputType := iOneword } =
          (decide ((lowerNoQuote x).length ≤ 1)
            && !(rule.onewordLength > 0 &&
              (prepareQuery eng { qr with rawQuery := x }).1.query.length > rule.onewordLength)) := by
  refine ⟨flattenCount_count x, lowerNoQuote_flattenCount x, ?_, fun eng qr rule => ?_⟩
  · rw [flattenCount_flattenCount]
  · exact inputOk_oneword eng { qr with rawQuery := x } rule

end Zapdos.Search
