/-
  Words — the text helpers that indexing and querying share.

  `std::isalnum` and its kin are those of the "C" locale: only ASCII letters and digits are word
  characters, a quote is dropped, a blank or a punctuation mark ends a word, and every other byte
  (control characters, all bytes of a multi-byte character) is skipped without ending the word.

  The Krovetz stemmer is a parameter `kstem` of the functions that call it.
-/
import Zapdos.Store.Types

namespace Zapdos.Search

open Zapdos.Lib Zapdos.Store

/-- The single and the double quote, which words never contain. -/
def isQuote (c : UInt8) : Bool := c.toNat = 39 || c.toNat = 34

/-! ## Term prefixes -/

def xapBeginfullPrefix : Bytes := str "a_"
def xapBeginpartPrefix : Bytes := str "b_"
def xapPartwordPrefix : Bytes := str "c_"
def xapNamefullPrefix : Bytes := str "d_"
def xapNamepartPrefix : Bytes := str "e_"
def xapCcodePrefix : Bytes := str "f_"
def xapCityPrefix : Bytes := str "g_"
def xapPincodePrefix : Bytes := str "h_"
def xapGeohash3Prefix : Bytes := str "j_"
def xapGeohash5Prefix : Bytes := str "k_"
def xapGeohash7Prefix : Bytes := str "l_"
def xapGeohash9Prefix : Bytes := str "m_"
def xapNbrhash3Prefix : Bytes := str "n_"
def xapNbrhash5Prefix : Bytes := str "o_"
def xapCategoryPrefix : Bytes := str "p_"
def xapTagPrefix : Bytes := str "q_"

def xapMergeLimit : Nat := 1
def xapMinStemLen : Nat := 4
def xapMaxShinLen : Nat := 2

/-! ## Splitting -/

/-- The loop of `LowerNoQuote`: `xtmp` is the word being read, `last` tells whether the last
    character that counted was a word character. -/
def lowerNoQuoteLoop : Bytes → Bytes → Bool → List Bytes
  | [], xtmp, _ => if xtmp.length > 0 then [xtmp] else []
  | c :: cs, xtmp, last =>
    if isAlnum c then lowerNoQuoteLoop cs (xtmp ++ [toLower c]) true
    else if isQuote c then lowerNoQuoteLoop cs xtmp last
    else if (isSpace c || isPunct c) && last then xtmp :: lowerNoQuoteLoop cs [] false
    else lowerNoQuoteLoop cs xtmp last

/-- `SplitWith::LowerNoQuote`. -/
def lowerNoQuote (input : Bytes) : List Bytes := lowerNoQuoteLoop input [] false

/-- `SplitWith::Space`: adjacent blanks are not compressed, so there is always a first part. -/
def splitSpace : Bytes → List Bytes
  | [] => [[]]
  | c :: cs =>
    if isSpace c then [] :: splitSpace cs
    else
      match splitSpace cs with
      | [] => [[c]]
      | w :: ws => (c :: w) :: ws

/-- The loop of `FlattenCount`. -/
def flattenCountLoop : Bytes → Bytes → Nat → Bool → Bytes × Nat
  | [], xtmp, wc, last => (xtmp, if last then wc + 1 else wc)
  | c :: cs, xtmp, wc, last =>
    if isAlnum c then flattenCountLoop cs (xtmp ++ [toLower c]) wc true
    else if isQuote c then flattenCountLoop cs xtmp wc last
    else if (isSpace c || isPunct c) && last then
      flattenCountLoop cs (xtmp ++ [32]) (wc + 1) false
    else flattenCountLoop cs xtmp wc last

/-- `BaseUtils::FlattenCount`: the words with one blank after each, and how many they are. -/
def flattenCount (input : Bytes) : Bytes × Nat := flattenCountLoop input [] 0 false

/-- `BaseUtils::NoSpace`. -/
def noSpace (orig : Bytes) : Bytes := (orig.filter isAlnum).map toLower

/-- `BaseUtils::FormatPrefix`. -/
def formatPrefix (input pfx : Bytes) : Bytes := pfx ++ noSpace input

/-- `BaseUtils::FormatTag`. -/
def formatTag (name value : Bytes) : Bytes := name ++ str "=" ++ noSpace value

/-! ## Stemming and merging -/

section

variable (kstem : Bytes → Bytes)

/-- `BaseUtils::StemWord`: the stemmer sees at most 25 characters. -/
def stemWord (input : Bytes) : Bytes := kstem (input.take 25)

/-- The loop of `StemQuery` over the words: a word of at least four characters is stemmed, unless
    it is the last one and `notlast` is set. -/
def stemQueryLoop (notlast : Bool) : List Bytes → Bytes
  | [] => []
  | it :: words =>
    let toStem := (it.length ≥ xapMinStemLen : Bool) && !(notlast && words.isEmpty)
    (if toStem then stemWord kstem it else it)
      ++ (if words.length > 0 then [32] else []) ++ stemQueryLoop notlast words

/-- `BaseUtils::StemQuery`. -/
def stemQuery (input : Bytes) (notlast : Bool) : Bytes :=
  stemQueryLoop kstem notlast (lowerNoQuote input)

end

/-- The loop of `SplitMerge`: `jt` is the word before the iterator.  A word joins it when the two are
    equal or both of one character, and the joined word is compared with the next one. -/
def splitMergeLoop : Bytes → List Bytes → List Bytes
  | jt, [] => [jt]
  | jt, it :: rest =>
    if it = jt ∨ (it.length ≤ xapMergeLimit ∧ jt.length ≤ xapMergeLimit) then
      splitMergeLoop (jt ++ it) rest
    else jt :: splitMergeLoop it rest

/-- `BaseUtils::SplitMerge`. -/
def splitMerge (input : Bytes) : List Bytes :=
  match lowerNoQuote input with
  | [] => []
  | w :: ws => splitMergeLoop w ws

end Zapdos.Search
