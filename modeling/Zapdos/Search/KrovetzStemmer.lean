/-
  The Krovetz stemmer — the buffer it works in, its endings and its cache.

  The word is a C string in a buffer of `MAX_WORD_LENGTH` characters.  `k` and `j`, the last index of
  the word and of its stem, are kept as the lengths `k + 1` and `j + 1` that the source's macros
  `wordlength` and `stemlength` make of them, so `word[j+1]` is at `stemlength`.  A write outside the
  buffer has no defined behaviour: it gives no result.

  The word lists are a parameter.
-/
import Mathlib.Logic.Function.Basic
import Zapdos.Lib.CString
import Zapdos.Search.BaseUtils

namespace Zapdos.Search.KrovetzStemmer

open Zapdos.Lib Zapdos.Lib.CString Zapdos.Store

def maxWordLength : ℕ := 25

def isLower (c : UInt8) : Bool := 97 ≤ c.toNat && c.toNat ≤ 122

/-! ## The dictionary -/

/-- `dictEntry`. -/
structure DictEntry where
  exception : Bool
  root : Bytes
  deriving DecidableEq, Repr

/-- `dictTable`. -/
abbrev DictTable := List (Bytes × DictEntry)

/-- `kstem_add_table_entry`: a duplicate is ignored. -/
def kstemAddTableEntry (t : DictTable) (variant word : Bytes) (exc : Bool) : DictTable :=
  match t.lookup variant with
  | some _ => t
  | none => (variant, ⟨exc, word⟩) :: t

/-- A word of the lists: lower case, and it fits into the buffer. -/
def Listed (w : Bytes) : Prop := (∀ c ∈ w, isLower c = true) ∧ w.length < maxWordLength

instance decidableListed (w : Bytes) : Decidable (Listed w) := inferInstanceAs (Decidable (_ ∧ _))

/-- The word lists that the stemmer loads. -/
structure WordLists where
  exceptions : List Bytes
  headwords : List Bytes
  conflations : List (Bytes × Bytes)
  stems_listed : ∀ p ∈ conflations, Listed p.2

/-- `loadTables`. -/
def loadTables (l : WordLists) : DictTable :=
  let t := l.exceptions.foldl (fun t w => kstemAddTableEntry t w [] true) []
  let t := l.headwords.foldl (fun t w => kstemAddTableEntry t w [] false) t
  l.conflations.foldl (fun t p => kstemAddTableEntry t p.1 p.2 false) t

/-- `getdep`: short words are not looked up. -/
def getdep (d : DictTable) (w : Bytes) : Option DictEntry :=
  if w.length ≤ 1 then none else d.lookup w

/-- `lookup`. -/
def lookup (d : DictTable) (w : Bytes) : Bool := (getdep d w).isSome

/-- In the dictionary, and not an exception. -/
def lookupRegular (d : DictTable) (w : Bytes) : Bool :=
  match getdep d w with
  | none => false
  | some dep => !dep.exception

/-! ## Letters -/

def isVowelChar (ch : UInt8) : Bool :=
  ch = chr 'a' || ch = chr 'e' || ch = chr 'i' || ch = chr 'o' || ch = chr 'u'

/-- `word[i]`. -/
def charAt (word : List UInt8) (i : ℕ) : UInt8 := word.getD i 0

/-- `cons`. -/
def cons (word : List UInt8) (i : ℕ) : Bool :=
  let ch := charAt word i
  if isVowelChar ch then false
  else if ch ≠ chr 'y' ∨ i = 0 then true
  else isVowelChar (charAt word (i - 1))

/-- `vowel`. -/
def vowel (word : List UInt8) (i : ℕ) : Bool := !cons word i

/-- `vowelinstem`. -/
def vowelinstem (word : List UInt8) (stemlength : ℕ) : Bool :=
  (List.range stemlength).any (vowel word)

/-- `doublec`. -/
def doublec (word : List UInt8) (i : ℕ) : Bool :=
  if i < 1 then false
  else if charAt word i ≠ charAt word (i - 1) then false
  else cons word i

/-! ## The buffer -/

/-- The word being stemmed. -/
structure Stem where
  word : List UInt8
  wordlength : ℕ
  stemlength : ℕ
  deriving DecidableEq, Repr

namespace Stem

/-- The C string in the buffer. -/
def text (s : Stem) : Bytes := cstr s.word

/-- `word[i] = c`. -/
def put (s : Stem) (i : ℕ) (c : UInt8) : Option Stem :=
  if i < s.word.length then some { s with word := s.word.set i c } else none

/-- `strcpy(word + i, str)`. -/
def strcpy (s : Stem) (i : ℕ) : Bytes → Option Stem
  | [] => s.put i 0
  | c :: cs =>
    match s.put i c with
    | none => none
    | some s => s.strcpy (i + 1) cs

/-- The word ends at `word[n]`: `word[n] = '\0'` and `k = n - 1`. -/
def cut (s : Stem) (n : ℕ) : Option Stem :=
  (s.put n 0).map (fun s => { s with wordlength := n })

/-- `ends`. -/
def ends (s : Stem) (str : Bytes) : Stem × Bool :=
  if str.length ≥ s.wordlength then (s, false)
  else
    let r := s.wordlength - str.length
    if cstr (s.word.drop r) = str then ({ s with stemlength := r }, true)
    else ({ s with stemlength := s.wordlength }, false)

/-- `setsuff`. -/
def setsuff (s : Stem) (str : Bytes) : Option Stem := do
  let s ← s.strcpy s.stemlength str
  s.cut (s.stemlength + str.length)

/-- The word in the buffer is in the dictionary. -/
def known (s : Stem) (d : DictTable) : Bool := lookup d s.text

end Stem

/-! ## Endings -/

section

variable (d : DictTable)

/-- `plural`. -/
def plural (s : Stem) : Option Stem :=
  if charAt s.word (s.wordlength - 1) ≠ chr 's' then some s
  else
    match s.ends (str "ies") with
    | (s, true) => do
      let s ← s.cut (s.stemlength + 2)
      if s.known d then return s
      let s ← s.put (s.stemlength + 2) (chr 's')
      s.setsuff (str "y")
    | (s, false) =>
      match s.ends (str "es") with
      | (s, true) => do
        let s ← s.cut (s.stemlength + 1)
        if s.known d ∧ s.stemlength > 1 ∧ ¬ (charAt s.word (s.stemlength - 1) = chr 's' ∧
            charAt s.word (s.stemlength - 2) = chr 's') then return s
        let s ← s.cut s.stemlength
        if s.known d then return s
        let s ← s.put s.stemlength (chr 'e')
        s.cut (s.stemlength + 1)
      | (s, false) =>
        if s.wordlength > 3 ∧ charAt s.word (s.wordlength - 2) ≠ chr 's' then
          match s.ends (str "ous") with
          | (s, true) => some s
          | (s, false) => s.cut (s.wordlength - 1)
        else some s

/-- `past_tense`. -/
def pastTense (s : Stem) : Option Stem :=
  if s.wordlength ≤ 4 then some s
  else
    match s.ends (str "ied") with
    | (s, true) => do
      let s ← s.cut (s.stemlength + 2)
      if s.known d then return s
      let s ← s.put (s.stemlength + 2) (chr 'd')
      s.setsuff (str "y")
    | (s, false) =>
      match s.ends (str "ed") with
      | (s, true) =>
        if !vowelinstem s.word s.stemlength then some s
        else do
          let s ← s.cut (s.stemlength + 1)
          if lookupRegular d s.text then return s
          let s ← s.cut s.stemlength
          if s.known d then return s
          if doublec s.word (s.stemlength - 1) then
            let s ← s.cut (s.stemlength - 1)
            if s.known d then return s
            let s ← s.put (s.stemlength - 1) (charAt s.word (s.stemlength - 2))
            return { s with wordlength := s.stemlength }
          if charAt s.word 0 = chr 'u' ∧ charAt s.word 1 = chr 'n' then
            let s ← s.put s.stemlength (chr 'e')
            let s ← s.put (s.stemlength + 1) (chr 'd')
            return { s with wordlength := s.stemlength + 2 }
          let s ← s.put s.stemlength (chr 'e')
          s.cut (s.stemlength + 1)
      | (s, false) => some s

/-- `aspect`. -/
def aspect (s : Stem) : Option Stem :=
  if s.wordlength ≤ 5 then some s
  else
    match s.ends (str "ing") with
    | (s, true) =>
      if !vowelinstem s.word s.stemlength then some s
      else do
        let s ← s.put s.stemlength (chr 'e')
        let s ← s.cut (s.stemlength + 1)
        if lookupRegular d s.text then return s
        let s ← s.cut s.stemlength
        if s.known d then return s
        if doublec s.word (s.stemlength - 1) then
          let s ← s.cut (s.stemlength - 1)
          if s.known d then return s
          let s ← s.put (s.stemlength - 1) (charAt s.word (s.stemlength - 2))
          return { s with wordlength := s.stemlength }
        if s.stemlength > 1 ∧ cons s.word (s.stemlength - 1) ∧ cons s.word (s.stemlength - 2) then
          s.cut s.stemlength
        else
          let s ← s.put s.stemlength (chr 'e')
          s.cut (s.stemlength + 1)
    | (s, false) => some s

/-- The `-ition` part of `ion_endings`; the flag tells whether it returns. -/
def itionEnding (oldK : ℕ) (s : Stem) : Option (Stem × Bool) :=
  match s.ends (str "ition") with
  | (s, true) => do
    let s ← s.put s.stemlength (chr 'e')
    let s ← s.cut (s.stemlength + 1)
    if s.known d then return (s, true)
    let s ← s.put s.stemlength (chr 'i')
    let s ← s.put (s.stemlength + 1) (chr 't')
    return ({ s with wordlength := oldK }, false)
  | (s, false) => some (s, false)

/-- The `-ation` part of `ion_endings`. -/
def ationEnding (oldK : ℕ) (s : Stem) : Option (Stem × Bool) :=
  match s.ends (str "ation") with
  | (s, true) => do
    let s ← s.put (s.stemlength + 2) (chr 'e')
    let s ← s.cut (s.stemlength + 3)
    if s.known d then return (s, true)
    let s ← s.put s.stemlength (chr 'e')
    let s ← s.cut (s.stemlength + 1)
    if s.known d then return (s, true)
    let s ← s.cut s.stemlength
    if s.known d then return (s, true)
    let s ← s.put s.stemlength (chr 'a')
    let s ← s.put (s.stemlength + 1) (chr 't')
    let s ← s.put (s.stemlength + 2) (chr 'i')
    let s ← s.put (s.stemlength + 3) (chr 'o')
    return ({ s with wordlength := oldK }, false)
  | (s, false) => some (s, false)

/-- The `-ication` part of `ion_endings`. -/
def icationEnding (oldK : ℕ) (s : Stem) : Option (Stem × Bool) :=
  match s.ends (str "ication") with
  | (s, true) => do
    let s ← s.put s.stemlength (chr 'y')
    let s ← s.cut (s.stemlength + 1)
    if s.known d then return (s, true)
    let s ← s.put s.stemlength (chr 'i')
    let s ← s.put (s.stemlength + 1) (chr 'c')
    return ({ s with wordlength := oldK }, false)
  | (s, false) => some (s, false)

/-- The last part of `ion_endings`. -/
def ionEnding (oldK : ℕ) (s : Stem) : Option Stem :=
  match s.ends (str "ion") with
  | (s, true) => do
    let s ← s.put s.stemlength (chr 'e')
    let s ← s.cut (s.stemlength + 1)
    if s.known d then return s
    let s ← s.cut s.stemlength
    if s.known d then return s
    let s ← s.put s.stemlength (chr 'i')
    let s ← s.put (s.stemlength + 1) (chr 'o')
    return { s with wordlength := oldK }
  | (s, false) => some s

/-- `ion_endings`. -/
def ionEndings (s : Stem) : Option Stem :=
  let oldK := s.wordlength
  match s.ends (str "ization") with
  | (s, true) => do
    let s ← s.put (s.stemlength + 2) (chr 'e')
    s.cut (s.stemlength + 3)
  | (s, false) => do
    let (s, returned) ← itionEnding d oldK s
    if returned then return s
    let (s, returned) ← ationEnding d oldK s
    if returned then return s
    let (s, returned) ← icationEnding d oldK s
    if returned then return s
    ionEnding d oldK s

/-- A doubled consonant before the ending: one of the two is tried. -/
def undouble (s : Stem) : Option (Stem × Bool) :=
  if doublec s.word (s.stemlength - 1) then do
    let s ← s.cut (s.stemlength - 1)
    if s.known d then return (s, true)
    let s ← s.put (s.stemlength - 1) (charAt s.word (s.stemlength - 2))
    return (s, false)
  else some (s, false)

/-- The `-ier` part of `er_and_or_endings`: it leaves an `e` after the `i`, for `-ior` too. -/
def ierEnding (s : Stem) : Option (Stem × Bool) :=
  if charAt s.word (s.stemlength - 1) = chr 'i' then do
    let s ← s.put (s.stemlength - 1) (chr 'y')
    let s ← s.cut s.stemlength
    if s.known d then return (s, true)
    let s ← s.put (s.stemlength - 1) (chr 'i')
    let s ← s.put s.stemlength (chr 'e')
    return (s, false)
  else some (s, false)

/-- The `-eer` part of `er_and_or_endings`. -/
def eerEnding (s : Stem) : Option (Stem × Bool) :=
  if charAt s.word (s.stemlength - 1) = chr 'e' then do
    let s ← s.cut (s.stemlength - 1)
    if s.known d then return (s, true)
    let s ← s.put (s.stemlength - 1) (chr 'e')
    return (s, false)
  else some (s, false)

/-- What `er_and_or_endings` does with a word in `-er` or `-or`. -/
def erOrEnding (oldK : ℕ) (s : Stem) : Option Stem := do
  let wordChar := charAt s.word s.stemlength
  let (s, returned) ← undouble d s
  if returned then return s
  let (s, returned) ← ierEnding d s
  if returned then return s
  let (s, returned) ← eerEnding d s
  if returned then return s
  let s ← s.cut (s.stemlength + 1)
  if s.known d then return s
  let s ← s.cut s.stemlength
  if s.known d then return s
  let s ← s.put s.stemlength (chr 'e')
  let s ← s.cut (s.stemlength + 1)
  if s.known d then return s
  let s ← s.put s.stemlength wordChar
  let s ← s.put (s.stemlength + 1) (chr 'r')
  return { s with wordlength := oldK }

/-- `er_and_or_endings`. -/
def erAndOrEndings (s : Stem) : Option Stem :=
  let oldK := s.wordlength
  match s.ends (str "izer") with
  | (s, true) => s.cut (s.stemlength + 3)
  | (s, false) =>
    match s.ends (str "er") with
    | (s, true) => erOrEnding d oldK s
    | (s, false) =>
      match s.ends (str "or") with
      | (s, true) => erOrEnding d oldK s
      | (s, false) => some s

/-- The stem ends in these two characters. -/
def stemEnds (s : Stem) (a b : Char) : Bool :=
  s.stemlength > 1 && charAt s.word (s.stemlength - 2) = chr a
    && charAt s.word (s.stemlength - 1) = chr b

/-- `ly_endings`. -/
def lyEndings (s : Stem) : Option Stem :=
  let oldK := s.wordlength
  match s.ends (str "ly") with
  | (s, true) => do
    let s ← s.put (s.stemlength + 1) (chr 'e')
    if s.known d then return s
    let s ← s.put (s.stemlength + 1) (chr 'y')
    let s ← s.cut s.stemlength
    if s.known d then return s
    if stemEnds s 'a' 'l' then return s
    let s ← s.put s.stemlength (chr 'l')
    if stemEnds s 'a' 'b' then
      let s ← s.put (s.stemlength + 1) (chr 'e')
      return { s with wordlength := s.stemlength + 2 }
    if charAt s.word (s.stemlength - 1) = chr 'i' then
      let s ← s.put (s.stemlength - 1) (chr 'y')
      let s ← s.cut s.stemlength
      if s.known d then return s
      let s ← s.put (s.stemlength - 1) (chr 'i')
      let s ← s.put s.stemlength (chr 'l')
      { s with wordlength := oldK }.cut s.stemlength
    else s.cut s.stemlength
  | (s, false) => some s

/-- The `-ical` and `-ial` parts of `al_endings`. -/
def icalEnding (oldK : ℕ) (s : Stem) : Option Stem :=
  if stemEnds s 'i' 'c' then do
    let s ← s.cut (s.stemlength - 2)
    if s.known d then return s
    let s ← s.put (s.stemlength - 2) (chr 'y')
    let s ← s.cut (s.stemlength - 1)
    if s.known d then return s
    let s ← s.put (s.stemlength - 2) (chr 'i')
    let s ← s.put (s.stemlength - 1) (chr 'c')
    s.cut s.stemlength
  else if charAt s.word (s.stemlength - 1) = chr 'i' then do
    let s ← s.cut (s.stemlength - 1)
    if s.known d then return s
    let s ← s.put (s.stemlength - 1) (chr 'i')
    return { s with wordlength := oldK }
  else some s

/-- `al_endings`. -/
def alEndings (s : Stem) : Option Stem :=
  let oldK := s.wordlength
  match s.ends (str "al") with
  | (s, true) => do
    let s ← s.cut s.stemlength
    if s.known d then return s
    let (s, returned) ← undouble d s
    if returned then return s
    let s ← s.put s.stemlength (chr 'e')
    let s ← s.cut (s.stemlength + 1)
    if s.known d then return s
    let s ← s.put s.stemlength (chr 'u')
    let s ← s.put (s.stemlength + 1) (chr 'm')
    let s := { s with wordlength := s.stemlength + 2 }
    if s.known d then return s
    let s ← s.put s.stemlength (chr 'a')
    let s ← s.put (s.stemlength + 1) (chr 'l')
    let s ← s.put (s.stemlength + 2) 0
    icalEnding d oldK { s with wordlength := oldK }
  | (s, false) => some s

/-- The `-ative` part of `ive_endings`; `k` is not moved with the second cut. -/
def ativeEnding (oldK : ℕ) (s : Stem) : Option (Stem × Bool) :=
  if stemEnds s 'a' 't' then do
    let s ← s.put (s.stemlength - 2) (chr 'e')
    let s ← s.cut (s.stemlength - 1)
    if s.known d then return (s, true)
    let s ← s.put (s.stemlength - 2) 0
    if s.known d then return (s, true)
    let s ← s.put (s.stemlength - 2) (chr 'a')
    let s ← s.put (s.stemlength - 1) (chr 't')
    return ({ s with wordlength := oldK }, false)
  else some (s, false)

/-- `ive_endings`. -/
def iveEndings (s : Stem) : Option Stem :=
  let oldK := s.wordlength
  match s.ends (str "ive") with
  | (s, true) => do
    let s ← s.cut s.stemlength
    if s.known d then return s
    let s ← s.put s.stemlength (chr 'e')
    let s ← s.cut (s.stemlength + 1)
    if s.known d then return s
    let s ← s.put s.stemlength (chr 'i')
    let s ← s.put (s.stemlength + 1) (chr 'v')
    let (s, returned) ← ativeEnding d oldK s
    if returned then return s
    let s ← s.put (s.stemlength + 1) (chr 'o')
    let s ← s.put (s.stemlength + 2) (chr 'n')
    if s.known d then return s
    let s ← s.put (s.stemlength + 1) (chr 'v')
    let s ← s.put (s.stemlength + 2) (chr 'e')
    return { s with wordlength := oldK }
  | (s, false) => some s

/-- `ize_endings`. -/
def izeEndings (s : Stem) : Option Stem :=
  let oldK := s.wordlength
  match s.ends (str "ize") with
  | (s, true) => do
    let s ← s.cut s.stemlength
    if s.known d then return s
    let s ← s.put s.stemlength (chr 'i')
    let (s, returned) ← undouble d s
    if returned then return s
    let s ← s.put s.stemlength (chr 'e')
    let s ← s.cut (s.stemlength + 1)
    if s.known d then return s
    let s ← s.put s.stemlength (chr 'i')
    let s ← s.put (s.stemlength + 1) (chr 'z')
    return { s with wordlength := oldK }
  | (s, false) => some s

/-- `ment_endings`. -/
def mentEndings (s : Stem) : Option Stem :=
  let oldK := s.wordlength
  match s.ends (str "ment") with
  | (s, true) => do
    let s ← s.cut s.stemlength
    if s.known d then return s
    let s ← s.put s.stemlength (chr 'm')
    return { s with wordlength := oldK }
  | (s, false) => some s

/-- `ity_endings`. -/
def ityEndings (s : Stem) : Option Stem :=
  let oldK := s.wordlength
  match s.ends (str "ity") with
  | (s, true) => do
    let s ← s.cut s.stemlength
    if s.known d then return s
    let s ← s.put s.stemlength (chr 'e')
    let s ← s.cut (s.stemlength + 1)
    if s.known d then return s
    let s ← s.put s.stemlength (chr 'i')
    let s ← s.put (s.stemlength + 1) (chr 't')
    let s := { s with wordlength := oldK }
    if stemEnds s 'i' 'l' then
      let s ← s.put (s.stemlength - 2) (chr 'l')
      let s ← s.put (s.stemlength - 1) (chr 'e')
      s.cut s.stemlength
    else if stemEnds s 'i' 'v' then
      let s ← s.put s.stemlength (chr 'e')
      s.cut (s.stemlength + 1)
    else if stemEnds s 'a' 'l' then s.cut s.stemlength
    else if s.known d then return s
    else s.cut s.stemlength
  | (s, false) => some s

/-- The doubled consonant of `ble_endings`. -/
def bleUndouble (s : Stem) : Option (Stem × Bool) :=
  if doublec s.word (s.stemlength - 2) then do
    let s ← s.cut (s.stemlength - 2)
    if s.known d then return (s, true)
    let s ← s.put (s.stemlength - 2) (charAt s.word (s.stemlength - 3))
    return ({ s with wordlength := s.stemlength - 1 }, false)
  else some (s, false)

/-- `ble_endings`. -/
def bleEndings (s : Stem) : Option Stem :=
  let oldK := s.wordlength
  match s.ends (str "ble") with
  | (s, true) => do
    let wordChar := charAt s.word (s.stemlength - 1)
    if ¬ (wordChar = chr 'a' ∨ wordChar = chr 'i') then return s
    let s ← s.cut (s.stemlength - 1)
    if s.known d then return s
    let (s, returned) ← bleUndouble d s
    if returned then return s
    let s ← s.put (s.stemlength - 1) (chr 'e')
    let s ← s.cut s.stemlength
    if s.known d then return s
    let s ← s.put (s.stemlength - 1) (chr 'a')
    let s ← s.put s.stemlength (chr 't')
    let s ← s.put (s.stemlength + 1) (chr 'e')
    let s ← s.cut (s.stemlength + 2)
    if s.known d then return s
    let s ← s.put (s.stemlength - 1) wordChar
    let s ← s.put s.stemlength (chr 'b')
    let s ← s.put (s.stemlength + 1) (chr 'l')
    let s ← s.put (s.stemlength + 2) (chr 'e')
    return { s with wordlength := oldK }
  | (s, false) => some s

/-- `ness_endings`. -/
def nessEndings (s : Stem) : Option Stem :=
  match s.ends (str "ness") with
  | (s, true) => do
    let s ← s.cut s.stemlength
    if charAt s.word (s.stemlength - 1) = chr 'i' then s.put (s.stemlength - 1) (chr 'y')
    else return s
  | (s, false) => some s

/-- `ism_endings`. -/
def ismEndings (s : Stem) : Option Stem :=
  match s.ends (str "ism") with
  | (s, true) => s.cut s.stemlength
  | (s, false) => some s

/-- `ic_endings`: the only place that writes beyond the end of the word. -/
def icEndings (s : Stem) : Option Stem :=
  match s.ends (str "ic") with
  | (s, true) => do
    let s ← s.put (s.stemlength + 2) (chr 'a')
    let s ← s.put (s.stemlength + 3) (chr 'l')
    let s ← s.cut (s.stemlength + 4)
    if s.known d then return s
    let s ← s.put s.stemlength (chr 'y')
    let s ← s.cut (s.stemlength + 1)
    if s.known d then return s
    let s ← s.put s.stemlength (chr 'e')
    if s.known d then return s
    let s ← s.cut s.stemlength
    if s.known d then return s
    let s ← s.put s.stemlength (chr 'i')
    let s ← s.put (s.stemlength + 1) (chr 'c')
    s.cut (s.stemlength + 2)
  | (s, false) => some s

/-- `ncy_endings`. -/
def ncyEndings (s : Stem) : Option Stem :=
  match s.ends (str "ncy") with
  | (s, true) => do
    let c := charAt s.word (s.stemlength - 1)
    if ¬ (c = chr 'e' ∨ c = chr 'a') then return s
    let s ← s.put (s.stemlength + 1) (chr 't')
    let s ← s.cut (s.stemlength + 2)
    if s.known d then return s
    let s ← s.put (s.stemlength + 1) (chr 'c')
    let s ← s.put (s.stemlength + 2) (chr 'e')
    return { s with wordlength := s.stemlength + 3 }
  | (s, false) => some s

/-- `nce_endings`. -/
def nceEndings (s : Stem) : Option Stem :=
  let oldK := s.wordlength
  match s.ends (str "nce") with
  | (s, true) => do
    let wordChar := charAt s.word (s.stemlength - 1)
    if ¬ (wordChar = chr 'e' ∨ wordChar = chr 'a') then return s
    let s ← s.put (s.stemlength - 1) (chr 'e')
    let s ← s.cut s.stemlength
    if s.known d then return s
    let s ← s.cut (s.stemlength - 1)
    if s.known d then return s
    let s ← s.put (s.stemlength - 1) wordChar
    let s ← s.put s.stemlength (chr 'n')
    return { s with wordlength := oldK }
  | (s, false) => some s

/-! ## Stemming -/

/-- The endings, in the order of the source. -/
def endings : List (Stem → Option Stem) :=
  [plural d, pastTense d, aspect d, ityEndings d, nessEndings, ionEndings d, erAndOrEndings d,
    lyEndings d, alEndings d, iveEndings d, izeEndings d, mentEndings d, bleEndings d, ismEndings,
    icEndings d, ncyEndings d, nceEndings d]

/-- The loop that never repeats: the word is looked up before each ending. -/
def stages : List (Stem → Option Stem) → Stem → Option Stem
  | [], s => some s
  | ending :: rest, s => if s.known d then some s else (ending s).bind (stages rest)

/-- The work on a word that is not in the cache: the buffer with its stem. -/
def stemBuffer (buffer : List UInt8) (term : Bytes) : Option (List UInt8) := do
  let s ← Stem.strcpy ⟨buffer, term.length, 0⟩ 0 (term.map toLower)
  let s ← stages d (endings d) s
  match getdep d s.text with
  | none => return s.word
  | some dep =>
    if dep.root ≠ [] then
      let s ← s.strcpy 0 dep.root
      return s.word
    else return s.word

/-! ## The cache -/

/-- `cacheEntry`; the four arrays as C strings. -/
structure CacheEntry where
  flag : ℕ
  word1 : Bytes
  stem1 : Bytes
  word2 : Bytes
  stem2 : Bytes
  deriving DecidableEq, Repr

def stemhtsize : ℕ := 30013

/-- `stemhash`: the first twelve characters as six little-endian words. -/
def stemhash (term : Bytes) : ℕ :=
  let c := fun i => (term.getD i 0).toNat
  let ptr := fun i => c (2 * i) + 256 * c (2 * i + 1)
  ((ptr 0 <<< 4) ^^^ ptr 1 ^^^ ptr 2 ^^^ ptr 3 ^^^ ptr 4 ^^^ ptr 5) % stemhtsize

/-- `KrovetzStemmer`: the cache and the buffer that `kstem_stemmer` returns. -/
structure Stemmer where
  stemCache : ℕ → CacheEntry
  stem : List UInt8

/-- The constructor: the first slot is used first. -/
def Stemmer.new : Stemmer where
  stemCache := fun _ => ⟨2, [], [], [], []⟩
  stem := List.replicate maxWordLength 0

/-- The term is stemmed: three to 24 letters. -/
def stemIt (term : Bytes) : Bool :=
  decide (3 ≤ term.length) && decide (term.length < maxWordLength) && term.all isAlpha

/-- `strcpy` into an array of `MAX_WORD_LENGTH` characters. -/
def intoArray (w : Bytes) : Option Bytes := if w.length < maxWordLength then some w else none

/-- The new entry goes to the place that the last cache hit did not use. -/
def CacheEntry.store (e : CacheEntry) (term stem : Bytes) : Option CacheEntry := do
  let term ← intoArray term
  let stem ← intoArray stem
  if e.flag = 2 then return { e with word1 := term, stem1 := stem, flag := 1 }
  else return { e with word2 := term, stem2 := stem, flag := 2 }

/-- `kstem_stem_tobuffer` into the object's own buffer; with it, the string that `kstem_stemmer`
    returns, the buffer or the lowercased term. -/
def kstemStemmer (o : Stemmer) (term : Bytes) : Option (Stemmer × Bytes) :=
  if !stemIt term then some (o, term.map toLower)
  else
    let hval := stemhash term
    let e := o.stemCache hval
    if term = e.word1 then do
      let s ← Stem.strcpy ⟨o.stem, 0, 0⟩ 0 e.stem1
      return (⟨Function.update o.stemCache hval { e with flag := 1 }, s.word⟩, s.text)
    else if term = e.word2 then do
      let s ← Stem.strcpy ⟨o.stem, 0, 0⟩ 0 e.stem2
      return (⟨Function.update o.stemCache hval { e with flag := 2 }, s.word⟩, s.text)
    else do
      let buffer ← stemBuffer d o.stem term
      let e ← e.store term (cstr buffer)
      return (⟨Function.update o.stemCache hval e, buffer⟩, cstr buffer)

end

end Zapdos.Search.KrovetzStemmer
