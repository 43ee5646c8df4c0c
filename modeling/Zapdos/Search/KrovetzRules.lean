/-
  What the Krovetz stemmer computes — each ending as a list of candidates.

  An ending takes the word apart into a stem and a suffix and tries other suffixes: the first
  candidate in the dictionary wins, else a default.  The stemmer does this by overwriting the word in
  its buffer and restoring it when a candidate is not in the dictionary.

  THE CRUX.  After every write the buffer is a stem followed by a few known characters, so each
  routine can be followed write by write (`put_behind`, `cut_behind`); at its end the buffer holds the
  rule's word again, terminated, and `k` is its last index, unless the word is in the dictionary
  (`Refines`).
-/
import Zapdos.Search.KrovetzStemmer

namespace Zapdos.Search.KrovetzStemmer

open Zapdos.Lib Zapdos.Lib.CString Zapdos.Store

/-! ## Rules -/

/-- The stem before a suffix, when something stands before it. -/
def stemOf (suffix : Bytes) (w : Bytes) : Option Bytes :=
  if suffix.length < w.length ∧ suffix <:+ w then some (w.take (w.length - suffix.length)) else none

/-- A stem and a suffix are the word. -/
theorem stemOf_eq_some {suffix w st : Bytes} :
    stemOf suffix w = some st ↔ st ≠ [] ∧ w = st ++ suffix := by
  constructor
  · intro h
    unfold stemOf at h
    split_ifs at h with hsuf
    cases h
    obtain ⟨hlt, st, rfl⟩ := hsuf
    rw [List.length_append, Nat.add_sub_cancel, List.take_left]
    refine ⟨?_, rfl⟩
    rintro rfl
    simp at hlt
  · rintro ⟨hne, rfl⟩
    have hpos : 0 < st.length := List.length_pos_iff.mpr hne
    rw [stemOf, if_pos ⟨by rw [List.length_append]; omega, List.suffix_append _ _⟩,
      List.length_append, Nat.add_sub_cancel, List.take_left]

/-- There is no stem when the suffix is not the end of the word, or all of it. -/
theorem stemOf_eq_none {suffix w : Bytes} :
    stemOf suffix w = none ↔ ¬ (suffix.length < w.length ∧ suffix <:+ w) := by
  unfold stemOf
  split_ifs with h <;> simp [h]

section

variable (d : DictTable)

/-- The first of the candidates that is in the dictionary, else the default. -/
def firstKnown : List Bytes → Bytes → Bytes
  | [], default => default
  | c :: cs, default => if lookup d c then c else firstKnown cs default

/-- A stem that ends in a doubled consonant, with one of the two. -/
def singled (st : Bytes) : List Bytes :=
  if doublec st (st.length - 1) then [st.dropLast] else []

/-- `-ies`, `-es` and `-s`: `-ie` and `-y`, `-e` and nothing, and nothing. -/
def pluralRule (w : Bytes) : Bytes :=
  match stemOf (str "ies") w with
  | some st => firstKnown d [st ++ str "ie"] (st ++ str "y")
  | none =>
    match stemOf (str "es") w with
    | some st =>
      firstKnown d ((if 1 < st.length ∧ ¬ str "ss" <:+ st then [st ++ str "e"] else []) ++ [st])
        (st ++ str "e")
    | none =>
      if 3 < w.length ∧ str "s" <:+ w ∧ ¬ str "ss" <:+ w ∧ stemOf (str "ous") w = none then w.dropLast
      else w

/-- `-ied` and `-ed`, of words of more than four letters; `-ed` only when its stem has a vowel. -/
def pastTenseRule (w : Bytes) : Bytes :=
  if w.length ≤ 4 then w
  else
    match stemOf (str "ied") w with
    | some st => firstKnown d [st ++ str "ie"] (st ++ str "y")
    | none =>
      match stemOf (str "ed") w with
      | some st =>
        if !vowelinstem st st.length then w
        else if lookupRegular d (st ++ str "e") then st ++ str "e"
        else if lookup d st then st
        else if doublec st (st.length - 1) then firstKnown d [st.dropLast] st
        else if str "un" <+: st then w
        else st ++ str "e"
      | none => w

/-- `-ing`, of words of more than five letters whose stem has a vowel. -/
def aspectRule (w : Bytes) : Bytes :=
  if w.length ≤ 5 then w
  else
    match stemOf (str "ing") w with
    | some st =>
      if !vowelinstem st st.length then w
      else if lookupRegular d (st ++ str "e") then st ++ str "e"
      else if lookup d st then st
      else if doublec st (st.length - 1) then firstKnown d [st.dropLast] st
      else if 1 < st.length ∧ cons st (st.length - 1) ∧ cons st (st.length - 2) then st
      else st ++ str "e"
    | none => w

/-- The candidates that a suffix contributes. -/
def onSuffix (suffix w : Bytes) (candidates : Bytes → List Bytes) : List Bytes :=
  match stemOf suffix w with
  | some st => candidates st
  | none => []

/-- `-ization`, `-ition`, `-ation`, `-ication` and `-ion`. -/
def ionRule (w : Bytes) : Bytes :=
  match stemOf (str "ization") w with
  | some st => st ++ str "ize"
  | none =>
    firstKnown d
      (onSuffix (str "ition") w (fun st => [st ++ str "e"])
        ++ onSuffix (str "ation") w (fun st => [st ++ str "ate", st ++ str "e", st])
        ++ onSuffix (str "ication") w (fun st => [st ++ str "y"])
        ++ onSuffix (str "ion") w (fun st => [st ++ str "e", st])) w

/-- What a word in `-er` or `-or` becomes; `c` is the vowel of its ending. -/
def erOrRule (st : Bytes) (c : UInt8) (w : Bytes) : Bytes :=
  let ier := st.getLast? = some (chr 'i')
  firstKnown d
    (singled st
      ++ (if ier then [st.dropLast ++ str "y"] else [])
      ++ (if st.getLast? = some (chr 'e') then [st.dropLast] else [])
      ++ [st ++ [if ier then chr 'e' else c], st, st ++ str "e"]) w

/-- `-izer`, `-er` and `-or`. -/
def erAndOrRule (w : Bytes) : Bytes :=
  match stemOf (str "izer") w with
  | some st => st ++ str "ize"
  | none =>
    match stemOf (str "er") w with
    | some st => erOrRule d st (chr 'e') w
    | none =>
      match stemOf (str "or") w with
      | some st => erOrRule d st (chr 'o') w
      | none => w

/-- `-ly`: `-le`, and else the stem, with a look at its own ending. -/
def lyRule (w : Bytes) : Bytes :=
  match stemOf (str "ly") w with
  | some st =>
    firstKnown d [st ++ str "le", st]
      (if str "al" <:+ st then st
       else if str "ab" <:+ st then st ++ str "le"
       else if st.getLast? = some (chr 'i') then firstKnown d [st.dropLast ++ str "y"] st
       else st)
  | none => w

/-- `-al`: the stem, one letter less of it, `-e` and `-um`; then `-ical` and `-ial`. -/
def alRule (w : Bytes) : Bytes :=
  match stemOf (str "al") w with
  | some st =>
    firstKnown d ([st] ++ singled st ++ [st ++ str "e", st ++ str "um"])
      (if str "ic" <:+ st then
        firstKnown d [st.dropLast.dropLast, st.dropLast.dropLast ++ str "y"] st
       else if st.getLast? = some (chr 'i') then firstKnown d [st.dropLast] w
       else w)
  | none => w

/-- `-ive`: the stem, `-e`, for `-ative` also `-e` and nothing, and `-ion`. -/
def iveRule (w : Bytes) : Bytes :=
  match stemOf (str "ive") w with
  | some st =>
    firstKnown d
      ([st, st ++ str "e"]
        ++ (if str "at" <:+ st then [st.dropLast.dropLast ++ str "e", st.dropLast.dropLast] else [])
        ++ [st ++ str "ion"]) w
  | none => w

/-- `-ize`: the stem, one letter less of it, and `-e`. -/
def izeRule (w : Bytes) : Bytes :=
  match stemOf (str "ize") w with
  | some st => firstKnown d ([st] ++ singled st ++ [st ++ str "e"]) w
  | none => w

/-- `-ment`: the stem. -/
def mentRule (w : Bytes) : Bytes :=
  match stemOf (str "ment") w with
  | some st => firstKnown d [st] w
  | none => w

/-- `-ity`: the stem and `-e`; else by the ending of the stem. -/
def ityRule (w : Bytes) : Bytes :=
  match stemOf (str "ity") w with
  | some st =>
    firstKnown d [st, st ++ str "e"]
      (if str "il" <:+ st then st.dropLast.dropLast ++ str "le"
       else if str "iv" <:+ st then st ++ str "e"
       else if str "al" <:+ st then st
       else firstKnown d [w] st)
  | none => w

/-- `-able` and `-ible`: the stem, one letter less of it, `-e` and `-ate`. -/
def bleRule (w : Bytes) : Bytes :=
  match stemOf (str "ble") w with
  | some st =>
    if st.getLast? = some (chr 'a') ∨ st.getLast? = some (chr 'i') then
      firstKnown d ([st.dropLast] ++ singled st.dropLast
        ++ [st.dropLast ++ str "e", st.dropLast ++ str "ate"]) w
    else w
  | none => w

/-- `-ness`: the stem, with `-y` for `-i`. -/
def nessRule (w : Bytes) : Bytes :=
  match stemOf (str "ness") w with
  | some st => if st.getLast? = some (chr 'i') then st.dropLast ++ str "y" else st
  | none => w

/-- `-ism`: the stem, whether it is known or not. -/
def ismRule (w : Bytes) : Bytes :=
  match stemOf (str "ism") w with
  | some st => st
  | none => w

/-- `-ic`: `-ical`, `-y`, `-e` and the stem. -/
def icRule (w : Bytes) : Bytes :=
  match stemOf (str "ic") w with
  | some st => firstKnown d [st ++ str "ical", st ++ str "y", st ++ str "e", st] w
  | none => w

/-- `-ency` and `-ancy`: `-nt` and `-nce`. -/
def ncyRule (w : Bytes) : Bytes :=
  match stemOf (str "ncy") w with
  | some st =>
    if st.getLast? = some (chr 'e') ∨ st.getLast? = some (chr 'a') then
      firstKnown d [st ++ str "nt"] (st ++ str "nce")
    else w
  | none => w

/-- `-ence` and `-ance`: `-e` and the stem. -/
def nceRule (w : Bytes) : Bytes :=
  match stemOf (str "nce") w with
  | some st =>
    if st.getLast? = some (chr 'e') ∨ st.getLast? = some (chr 'a') then
      firstKnown d [st.dropLast ++ str "e", st.dropLast] w
    else w
  | none => w

end

/-! ## Words in the buffer -/

/-- Lower-case letters only. -/
def Letters (w : Bytes) : Prop := ∀ c ∈ w, isLower c = true

/-- The empty word has letters only. -/
@[simp] theorem letters_nil : Letters [] := fun _ h => absurd h List.not_mem_nil

/-- Both parts have letters only. -/
@[simp] theorem letters_append {u v : Bytes} : Letters (u ++ v) ↔ Letters u ∧ Letters v :=
  List.forall_mem_append

/-- The first letter, and the others. -/
@[simp] theorem letters_cons {c : UInt8} {u : Bytes} :
    Letters (c :: u) ↔ isLower c = true ∧ Letters u := List.forall_mem_cons

/-- A letter is no terminator. -/
theorem isLower_ne_zero {c : UInt8} (h : isLower c = true) : c ≠ 0 := by
  rintro rfl
  revert h
  decide

/-- No letter of a word is a terminator. -/
theorem Letters.ne_zero {w : Bytes} (h : Letters w) : ∀ c ∈ w, c ≠ 0 :=
  fun c hc => isLower_ne_zero (h c hc)

/-- The characters from `a` to `z` are lower case. -/
@[simp] theorem isLower_chr {c : Char} (h : 97 ≤ c.toNat ∧ c.toNat ≤ 122) : isLower (chr c) = true := by
  have hnat : (chr c).toNat = c.toNat := by
    show c.toNat % 256 = _
    omega
  simp [isLower, hnat, h]

/-- Characters of one byte are told apart by their bytes. -/
@[simp] theorem chr_inj {a b : Char} (ha : a.toNat < 256) (hb : b.toNat < 256) :
    chr a = chr b ↔ a = b := by
  constructor
  · intro h
    have hnat : a.toNat % 256 = b.toNat % 256 := congrArg UInt8.toNat h
    rw [Nat.mod_eq_of_lt ha, Nat.mod_eq_of_lt hb] at hnat
    exact Char.toNat_inj.mp hnat
  · exact fun h => h ▸ rfl

/-- A literal, letter by letter. -/
theorem str_eq (s : String) : str s = s.toList.map chr := rfl

/-- The buffer holds a word. -/
structure Holds (s : Stem) (w : Bytes) : Prop where
  letters : Letters w
  short : w.length < maxWordLength
  fits : s.word.length = maxWordLength
  text : s.text = w

/-- And `k` is its last index. -/
structure Ready (s : Stem) (w : Bytes) : Prop extends Holds s w where
  wordlength : s.wordlength = w.length

/-- The routine leaves the word of the rule; `k` may be wrong if it is in the dictionary. -/
def Refines (d : DictTable) (o : Option Stem) (w : Bytes) : Prop :=
  ∃ s, o = some s ∧ Holds s w ∧ (lookup d w = false → s.wordlength = w.length)

/-- What it means for a routine that has a result. -/
theorem refines_some {d : DictTable} {s : Stem} {w : Bytes} :
    Refines d (some s) w ↔ Holds s w ∧ (lookup d w = false → s.wordlength = w.length) := by
  constructor
  · rintro ⟨s', hs, h⟩
    cases hs
    exact h
  · exact fun h => ⟨s, rfl, h⟩

/-- The four facts of `Holds`. -/
theorem holds_iff {s : Stem} {w : Bytes} :
    Holds s w ↔ Letters w ∧ w.length < maxWordLength ∧ s.word.length = maxWordLength ∧ s.text = w :=
  ⟨fun h => ⟨h.letters, h.short, h.fits, h.text⟩, fun ⟨h₁, h₂, h₃, h₄⟩ => ⟨h₁, h₂, h₃, h₄⟩⟩

/-- A routine may leave the buffer as it is. -/
theorem Ready.refines {d : DictTable} {s : Stem} {w : Bytes} (h : Ready s w) :
    Refines d (some s) w :=
  ⟨s, rfl, h.toHolds, fun _ => h.wordlength⟩

/-- The routine and the rule ask the same question. -/
theorem refines_ite {d : DictTable} {p : Prop} [Decidable p] {a b : Option Stem} {v w : Bytes}
    (ha : p → Refines d a v) (hb : ¬p → Refines d b w) :
    Refines d (if p then a else b) (if p then v else w) := by
  split_ifs with hp
  · exact ha hp
  · exact hb hp

/-- A choice before a bind. -/
theorem ite_bind {α β : Type} {p : Prop} [Decidable p] (a b : Option α) (f : α → Option β) :
    (if p then a else b).bind f = if p then a.bind f else b.bind f := apply_ite (Option.bind · f) p a b

/-! ### Reading and writing behind the stem -/

/-- **A write behind the stem** leaves the stem alone. -/
@[simp] theorem put_behind {u t : List UInt8} {l n i : ℕ} {x : UInt8} (h : i < t.length) :
    Stem.put ⟨u ++ t, l, n⟩ (u.length + i) x = some ⟨u ++ t.set i x, l, n⟩ := by
  rw [Stem.put, if_pos (by simpa using h), set_behind]

/-- A write right behind the stem. -/
@[simp] theorem put_at {u t : List UInt8} {l n : ℕ} {a x : UInt8} :
    Stem.put ⟨u ++ a :: t, l, n⟩ u.length x = some ⟨u ++ x :: t, l, n⟩ :=
  put_behind (i := 0) (by simp)

/-- Behind the stem the buffer reads as what stands there. -/
@[simp] theorem charAt_behind (u t : List UInt8) (i : ℕ) : charAt (u ++ t) (u.length + i) = charAt t i := by
  simp [charAt, List.getElem?_append_right]

/-- Right behind the stem stands the first character of the rest. -/
@[simp] theorem charAt_at (u t : List UInt8) : charAt (u ++ t) u.length = charAt t 0 := charAt_behind u t 0

/-- The first character. -/
@[simp] theorem charAt_cons_zero (a : UInt8) (t : List UInt8) : charAt (a :: t) 0 = a := rfl

/-- A later character. -/
@[simp] theorem charAt_cons_succ (a : UInt8) (t : List UInt8) (i : ℕ) :
    charAt (a :: t) (i + 1) = charAt t i := rfl

/-- The dictionary is asked for the text up to the terminator. -/
@[simp] theorem known_mk (d : DictTable) (t : List UInt8) (l n : ℕ) :
    Stem.known ⟨t, l, n⟩ d = lookup d (cstr t) := rfl

/-- The text of a buffer ends at the terminator. -/
@[simp] theorem text_mk (t : List UInt8) (l n : ℕ) : Stem.text ⟨t, l, n⟩ = cstr t := rfl

/-- Letters at the front are part of the text. -/
@[simp] theorem cstr_letters {u : Bytes} (hu : Letters u) (t : List UInt8) : cstr (u ++ t) = u ++ cstr t :=
  cstr_append hu.ne_zero t

/-- A letter at the front is part of the text. -/
@[simp] theorem cstr_letter {c : UInt8} (hc : isLower c = true) (t : List UInt8) :
    cstr (c :: t) = c :: cstr t := cstr_cons (isLower_ne_zero hc) t

/-- A word with its terminator fills the start of the buffer. -/
theorem Holds.word_eq {s : Stem} {w : Bytes} (h : Holds s w) :
    ∃ rest, s.word = w ++ 0 :: rest ∧ w.length + rest.length = 24 := by
  obtain ⟨t, ht⟩ : cstr s.word <+: s.word := List.takeWhile_prefix _
  have htext : cstr s.word = w := h.text
  rw [htext] at ht
  have hfits := h.fits
  have hshort := h.short
  cases t with
  | nil =>
    rw [← ht, List.append_nil] at hfits
    omega
  | cons c rest =>
    have hc : c = 0 := by
      by_contra hc
      have hlong : cstr s.word = w ++ c :: cstr rest := by
        rw [← ht, cstr_letters h.letters, cstr_cons hc]
      rw [htext] at hlong
      simpa using congrArg List.length hlong
    subst hc
    refine ⟨rest, ht.symm, ?_⟩
    rw [← ht] at hfits
    simp only [List.length_append, List.length_cons, maxWordLength] at hfits
    omega

/-- **What `ends` finds**: the suffix with a stem before it, which it marks; or nothing. -/
theorem Ready.ends {s : Stem} {w : Bytes} (h : Ready s w) (suf : Bytes) (hsuf : Letters suf) :
    (∃ st rest, st ≠ [] ∧ w = st ++ suf ∧ stemOf suf w = some st ∧ Letters st ∧
      st.length + suf.length + rest.length = 24 ∧
      s.ends suf = (⟨st ++ (suf ++ 0 :: rest), st.length + suf.length, st.length⟩, true)) ∨
    (stemOf suf w = none ∧ ∃ s', s.ends suf = (s', false) ∧ Ready s' w) := by
  obtain ⟨rest, hword, hlen⟩ := h.word_eq
  obtain ⟨word, l, n⟩ := s
  have hl : l = w.length := h.wordlength
  simp only at hword
  subst hword hl
  cases hst : stemOf suf w with
  | some st =>
    obtain ⟨hne, rfl⟩ := stemOf_eq_some.mp hst
    have hpos := List.length_pos_iff.mpr hne
    refine .inl ⟨st, rest, hne, rfl, rfl, (letters_append.mp h.letters).1, ?_, ?_⟩
    · rw [← hlen, List.length_append]
    · rw [Stem.ends, if_neg (by simp only [List.length_append]; omega)]
      simp only [List.length_append, Nat.add_sub_cancel, List.append_assoc]
      rw [List.drop_left, cstr_text hsuf.ne_zero, if_pos rfl]
  | none =>
    refine .inr ⟨rfl, ?_⟩
    rw [stemOf_eq_none] at hst
    have hready : ∀ n', Ready ⟨w ++ 0 :: rest, w.length, n'⟩ w := fun n' =>
      { letters := h.letters, short := h.short, fits := h.fits, text := h.text, wordlength := rfl }
    rw [Stem.ends]
    split_ifs with hshort
    · exact ⟨_, rfl, hready n⟩
    simp only
    split_ifs with hcut
    · refine absurd ⟨by simpa using hshort, ?_⟩ hst
      rw [List.drop_append_of_le_length (by omega), cstr_text] at hcut
      · rw [← hcut]
        exact List.drop_suffix _ _
      · exact fun c hc => h.letters.ne_zero c (List.mem_of_mem_drop hc)
    · exact ⟨_, rfl, hready _⟩

/-! ## Each routine and its rule -/

section

variable {d : DictTable} {s : Stem} {w : Bytes}

/-- `nessEndings` does `nessRule`. -/
theorem ness_refines (h : Ready s w) : Refines d (nessEndings s) (nessRule w) := by
  rw [nessEndings, nessRule]
  rcases h.ends (str "ness") (by simp [str_eq]) with
    ⟨st, rest, hne, rfl, hst, hl, hlen, hends⟩ | ⟨hst, s', hends, h'⟩
  · obtain ⟨u, x, rfl⟩ := (List.eq_nil_or_concat' st).resolve_left hne
    rw [hst, hends]
    simp [str_eq] at hl hlen
    simp [str_eq, Stem.cut]
    refine refines_ite (fun _ => ?_) (fun _ => ?_) <;>
      simp [refines_some, holds_iff, hl, maxWordLength] <;> omega
  · rw [hst, hends]
    exact h'.refines

/-- `ismEndings` does `ismRule`. -/
theorem ism_refines (h : Ready s w) : Refines d (ismEndings s) (ismRule w) := by
  rw [ismEndings, ismRule]
  rcases h.ends (str "ism") (by simp [str_eq]) with
    ⟨st, rest, hne, rfl, hst, hl, hlen, hends⟩ | ⟨hst, s', hends, h'⟩
  · rw [hst, hends]
    simp [str_eq] at hlen
    simp [str_eq, Stem.cut, refines_some, holds_iff, hl, maxWordLength]
    omega
  · rw [hst, hends]
    exact h'.refines

/-- `mentEndings` does `mentRule`. -/
theorem ment_refines (h : Ready s w) : Refines d (mentEndings d s) (mentRule d w) := by
  rw [mentEndings, mentRule]
  rcases h.ends (str "ment") (by simp [str_eq]) with
    ⟨st, rest, hne, rfl, hst, hl, hlen, hends⟩ | ⟨hst, s', hends, h'⟩
  · have hk := h.wordlength
    rw [hst, hends]
    simp [str_eq] at hlen hk
    simp [str_eq, Stem.cut, firstKnown, hl]
    refine refines_ite (fun _ => ?_) (fun _ => ?_) <;>
      simp [refines_some, holds_iff, maxWordLength, *] <;> omega
  · rw [hst, hends]
    exact h'.refines

/-- `ncyEndings` does `ncyRule`. -/
theorem ncy_refines (h : Ready s w) : Refines d (ncyEndings d s) (ncyRule d w) := by
  rw [ncyEndings, ncyRule]
  rcases h.ends (str "ncy") (by simp [str_eq]) with
    ⟨st, rest, hne, rfl, hst, hl, hlen, hends⟩ | ⟨hst, s', hends, h'⟩
  · obtain ⟨u, x, rfl⟩ := (List.eq_nil_or_concat' st).resolve_left hne
    rw [hst, hends]
    simp [str_eq] at hl hlen
    obtain ⟨hu, hx⟩ := hl
    by_cases hv : x = chr 'e' ∨ x = chr 'a'
    · simp [str_eq, hv, firstKnown, Stem.cut, hu, hx, Nat.add_assoc]
      refine refines_ite (fun _ => ?_) (fun _ => ?_) <;>
        simp [refines_some, holds_iff, maxWordLength, *] <;> omega
    · simp [str_eq, hv, refines_some, holds_iff, maxWordLength, hu, hx]
      omega
  · rw [hst, hends]
    exact h'.refines

/-- `nceEndings` does `nceRule`. -/
theorem nce_refines (h : Ready s w) : Refines d (nceEndings d s) (nceRule d w) := by
  rw [nceEndings, nceRule]
  rcases h.ends (str "nce") (by simp [str_eq]) with
    ⟨st, rest, hne, rfl, hst, hl, hlen, hends⟩ | ⟨hst, s', hends, h'⟩
  · obtain ⟨u, x, rfl⟩ := (List.eq_nil_or_concat' st).resolve_left hne
    have hk := h.wordlength
    rw [hst, hends]
    simp [str_eq] at hl hlen hk
    obtain ⟨hu, hx⟩ := hl
    by_cases hv : x = chr 'e' ∨ x = chr 'a'
    · simp [str_eq, hv, firstKnown, Stem.cut, hu]
      repeat' refine refines_ite (fun _ => ?_) (fun _ => ?_)
      all_goals
        simp [refines_some, holds_iff, maxWordLength, *]
        omega
    · simp [str_eq, hv, refines_some, holds_iff, maxWordLength, hu, hx]
      omega
  · rw [hst, hends]
    exact h'.refines

/-- `icEndings` does `icRule` when there is room for `-ical`: it is three letters longer than the
    word. -/
theorem ic_refines (h : Ready s w)
    (hshort : stemOf (str "ic") w ≠ none → w.length + 3 ≤ maxWordLength) :
    Refines d (icEndings d s) (icRule d w) := by
  rw [icEndings, icRule]
  rcases h.ends (str "ic") (by simp [str_eq]) with
    ⟨st, rest, hne, rfl, hst, hl, hlen, hends⟩ | ⟨hst, s', hends, h'⟩
  · have hroom := hshort (by rw [hst]; exact Option.some_ne_none _)
    rw [hst, hends]
    simp [str_eq, maxWordLength] at hlen hroom
    obtain ⟨a, b, rest, rfl⟩ : ∃ a b rest', rest = a :: b :: rest' := by
      match rest, hlen with
      | a :: b :: rest', _ => exact ⟨a, b, rest', rfl⟩
      | [a], hlen => simp at hlen; omega
      | [], hlen => simp at hlen; omega
    simp at hlen
    simp [str_eq, firstKnown, Stem.cut, hl]
    repeat' refine refines_ite (fun _ => ?_) (fun _ => ?_)
    all_goals simp [refines_some, holds_iff, maxWordLength, *]
    all_goals omega
  · rw [hst, hends]
    exact h'.refines

end

/-! ### Doubled consonants -/

/-- A letter of the stem, whatever stands behind it. -/
theorem charAt_append_left {u : List UInt8} {i : ℕ} (hi : i < u.length) (t : List UInt8) :
    charAt (u ++ t) i = charAt u i := by
  simp [charAt, List.getElem?_append_left hi]

/-- Only the letters up to `i` matter to `cons`. -/
theorem cons_append_left {u : List UInt8} {i : ℕ} (hi : i < u.length) (t : List UInt8) :
    cons (u ++ t) i = cons u i := by
  rw [cons, cons, charAt_append_left hi, charAt_append_left (by omega)]

/-- Nor does `doublec` look behind the letter it is asked about. -/
theorem doublec_append_left {u : List UInt8} {i : ℕ} (hi : i < u.length) (t : List UInt8) :
    doublec (u ++ t) i = doublec u i := by
  rw [doublec, doublec, charAt_append_left hi, charAt_append_left (by omega), cons_append_left hi]

/-- And `vowelinstem` looks at the stem only. -/
theorem vowelinstem_append_left {u : List UInt8} (t : List UInt8) :
    vowelinstem (u ++ t) u.length = vowelinstem u u.length := by
  rw [vowelinstem, vowelinstem]
  rw [Bool.eq_iff_iff, List.any_eq_true, List.any_eq_true]
  refine exists_congr fun i => and_congr_right fun hi => ?_
  rw [vowel, vowel, cons_append_left (List.mem_range.mp hi)]

/-- A doubled consonant stands twice. -/
theorem doublec_snoc {u : Bytes} {x : UInt8} (h : doublec (u ++ [x]) u.length = true) :
    ∃ v, u = v ++ [x] := by
  unfold doublec at h
  split_ifs at h with hlen hne
  obtain ⟨v, y, rfl⟩ := (List.eq_nil_or_concat' u).resolve_left (by rintro rfl; simp at hlen)
  simp at hne
  exact ⟨v, by rw [hne]⟩

/-- One of the two consonants goes. -/
theorem singled_of_doublec {u : Bytes} {x : UInt8} (h : doublec (u ++ [x]) u.length = true) :
    singled (u ++ [x]) = [u] := by
  rw [singled, List.length_append, List.length_singleton, Nat.add_sub_cancel, if_pos h,
    List.dropLast_concat]

/-- Without a doubled consonant there is no candidate. -/
theorem singled_of_not_doublec {u : Bytes} {x : UInt8} (h : ¬ doublec (u ++ [x]) u.length = true) :
    singled (u ++ [x]) = [] := by
  rw [singled, List.length_append, List.length_singleton, Nat.add_sub_cancel, if_neg h]

section

variable {d : DictTable} {s : Stem} {w : Bytes}

/-- **What `undouble` does**: it finds the stem with one consonant in the dictionary; or it leaves the
    buffer as it was. -/
theorem undouble_cases {u : Bytes} {x : UInt8} {t : List UInt8} {l : ℕ} (hu : Letters u) :
    ((lookup d u = true ∧ ∀ cs v, firstKnown d (singled (u ++ [x]) ++ cs) v = u) ∧
      undouble d ⟨u ++ x :: t, l, u.length + 1⟩ =
        some (⟨u ++ 0 :: t, u.length, u.length + 1⟩, true)) ∨
    ((∀ cs v, firstKnown d (singled (u ++ [x]) ++ cs) v = firstKnown d cs v) ∧
      ∃ l', undouble d ⟨u ++ x :: t, l, u.length + 1⟩ =
        some (⟨u ++ x :: t, l', u.length + 1⟩, false)) := by
  have hd : doublec (u ++ x :: t) u.length = doublec (u ++ [x]) u.length := by
    rw [← doublec_append_left (u := u ++ [x]) (by simp) t, List.append_assoc, List.singleton_append]
  rw [undouble]
  simp only [Nat.add_sub_cancel, hd]
  by_cases hdbl : doublec (u ++ [x]) u.length = true
  · rw [if_pos hdbl, singled_of_doublec hdbl]
    obtain ⟨v, rfl⟩ := doublec_snoc hdbl
    simp at hu
    by_cases hk : lookup d (v ++ [x]) = true
    · refine .inl ⟨⟨hk, fun cs _ => by simp [firstKnown, hk]⟩, ?_⟩
      simp [Stem.cut, hu, hk]
    · refine .inr ⟨fun cs _ => by simp [firstKnown, hk], (v ++ [x]).length, ?_⟩
      simp [Stem.cut, hu, hk]
  · rw [if_neg hdbl, singled_of_not_doublec hdbl]
    exact .inr ⟨fun _ _ => rfl, l, rfl⟩

/-- A suffix of two letters is the last two letters. -/
theorem suffix_two {a b x y : UInt8} {v : Bytes} : [a, b] <:+ v ++ [y, x] ↔ a = y ∧ b = x := by
  rw [← List.reverse_prefix]
  simp [and_comm]

/-- The first two characters of the word, in the buffer. -/
theorem prefix_two {a b : UInt8} {w t : List UInt8} (ha : a ≠ 0) (hb : b ≠ 0) :
    (charAt (w ++ 0 :: t) 0 = a ∧ charAt (w ++ 0 :: t) 1 = b) ↔ [a, b] <+: w := by
  rcases w with _ | ⟨y, _ | ⟨z, w⟩⟩
  · simp [ha.symm]
  · simp [hb.symm]
  · simp [List.cons_prefix_cons, eq_comm]

/-- A word that ends in two letters, taken apart. -/
theorem snoc_of_suffix {a b x : UInt8} {u : Bytes} (h : [a, b] <:+ u ++ [x]) :
    ∃ v, u = v ++ [a] ∧ x = b := by
  obtain ⟨v, hv⟩ := h
  obtain ⟨hu, hx⟩ : u = v ++ [a] ∧ [x] = [b] :=
    List.append_inj' (hv.symm.trans (List.append_cons v _ _)) rfl
  exact ⟨v, hu, List.cons.inj hx |>.1⟩

/-- The two characters at the end of the stem. -/
theorem stemEnds_eq {u : Bytes} {x : UInt8} {t : List UInt8} {l : ℕ} (a b : Char) :
    stemEnds ⟨u ++ x :: t, l, u.length + 1⟩ a b = decide ([chr a, chr b] <:+ u ++ [x]) := by
  rw [Bool.eq_iff_iff, decide_eq_true_eq, stemEnds]
  rcases List.eq_nil_or_concat' u with rfl | ⟨v, y, rfl⟩
  · simp [List.suffix_cons_iff]
  · rw [List.append_assoc, List.append_assoc, List.singleton_append, List.singleton_append, suffix_two,
      eq_comm (a := chr a), eq_comm (a := chr b)]
    simp

/-- `izeEndings` does `izeRule`. -/
theorem ize_refines (h : Ready s w) : Refines d (izeEndings d s) (izeRule d w) := by
  rw [izeEndings, izeRule]
  rcases h.ends (str "ize") (by simp [str_eq]) with
    ⟨st, rest, hne, rfl, hst, hl, hlen, hends⟩ | ⟨hst, s', hends, h'⟩
  · obtain ⟨u, x, rfl⟩ := (List.eq_nil_or_concat' st).resolve_left hne
    have hk := h.wordlength
    rw [hst, hends]
    simp [str_eq] at hl hlen hk
    obtain ⟨hu, hx⟩ := hl
    simp [str_eq, firstKnown, Stem.cut, hu, hx, Nat.add_assoc]
    -- `-ize` is cut off, before a doubled letter is looked at
    refine refines_ite (fun _ => ?_) (fun _ => ?_)
    · simp [refines_some, holds_iff, maxWordLength, *]
      omega
    -- the last letter may be doubled
    rcases undouble_cases (d := d) (x := x) (t := chr 'i' :: chr 'z' :: chr 'e' :: 0 :: rest)
      (l := u.length + 1) hu with ⟨⟨hku, hfirst⟩, hund⟩ | ⟨hfirst, l', hund⟩
    · rw [hund, hfirst]
      simp [refines_some, holds_iff, maxWordLength, *]
      omega
    · rw [hund, hfirst]
      simp [firstKnown, hu, hx, Nat.add_assoc]
      refine refines_ite (fun _ => ?_) (fun _ => ?_) <;>
        simp [refines_some, holds_iff, maxWordLength, *] <;> omega
  · rw [hst, hends]
    exact h'.refines

/-- `lyEndings` does `lyRule`. -/
theorem ly_refines (h : Ready s w) : Refines d (lyEndings d s) (lyRule d w) := by
  rw [lyEndings, lyRule]
  rcases h.ends (str "ly") (by simp [str_eq]) with
    ⟨st, rest, hne, rfl, hst, hl, hlen, hends⟩ | ⟨hst, s', hends, h'⟩
  · obtain ⟨u, x, rfl⟩ := (List.eq_nil_or_concat' st).resolve_left hne
    rw [hst, hends]
    simp [str_eq] at hl hlen
    obtain ⟨hu, hx⟩ := hl
    simp [str_eq, firstKnown, Stem.cut, hu, hx, Nat.add_assoc, stemEnds_eq]
    repeat' refine refines_ite (fun _ => ?_) (fun _ => ?_)
    all_goals
      simp [refines_some, holds_iff, maxWordLength, *]
      omega
  · rw [hst, hends]
    exact h'.refines

/-- `alEndings` does `alRule`. -/
theorem al_refines (h : Ready s w) : Refines d (alEndings d s) (alRule d w) := by
  rw [alEndings, alRule]
  rcases h.ends (str "al") (by simp [str_eq]) with
    ⟨st, rest, hne, rfl, hst, hl, hlen, hends⟩ | ⟨hst, s', hends, h'⟩
  · obtain ⟨u, x, rfl⟩ := (List.eq_nil_or_concat' st).resolve_left hne
    have hk := h.wordlength
    rw [hst, hends]
    simp [str_eq] at hl hlen hk
    obtain ⟨hu, hx⟩ := hl
    simp [str_eq, firstKnown, Stem.cut, hu, hx, Nat.add_assoc]
    -- `-al` is cut off
    refine refines_ite (fun _ => ?_) (fun _ => ?_)
    · simp [refines_some, holds_iff, maxWordLength, *]
      omega
    -- the last letter may be doubled
    rcases undouble_cases (d := d) (x := x) (t := 0 :: chr 'l' :: 0 :: rest)
      (l := u.length + 1) hu with ⟨⟨hku, hfirst⟩, hund⟩ | ⟨hfirst, l', hund⟩
    · rw [hund, hfirst]
      simp [refines_some, holds_iff, maxWordLength, *]
      omega
    rw [hund, hfirst]
    simp [firstKnown, hu, hx, Nat.add_assoc, icalEnding, stemEnds_eq]
    -- `-e` and `-um` are tried
    refine refines_ite (fun _ => ?_) (fun _ => refines_ite (fun _ => ?_) (fun _ => ?_))
    · simp [refines_some, holds_iff, maxWordLength, *]
      omega
    · simp [refines_some, holds_iff, maxWordLength, *]
      omega
    refine refines_ite (fun hic => ?_) (fun _ => ?_)
    · -- `-ical`
      obtain ⟨v, rfl, rfl⟩ := snoc_of_suffix hic
      simp at hu hlen hk
      simp [Stem.cut, Nat.add_assoc, hu]
      repeat' refine refines_ite (fun _ => ?_) (fun _ => ?_)
      all_goals
        simp [refines_some, holds_iff, maxWordLength, *]
        omega
    · refine refines_ite (fun hi => ?_) (fun _ => ?_)
      · -- `-ial`
        simp [hi, Stem.cut, hu]
        refine refines_ite (fun _ => ?_) (fun _ => ?_)
        all_goals
          simp [refines_some, holds_iff, maxWordLength, *]
          omega
      · simp [refines_some, holds_iff, maxWordLength, *]
        omega
  · rw [hst, hends]
    exact h'.refines

/-- `iveEndings` does `iveRule`. -/
theorem ive_refines (h : Ready s w) : Refines d (iveEndings d s) (iveRule d w) := by
  rw [iveEndings, iveRule]
  rcases h.ends (str "ive") (by simp [str_eq]) with
    ⟨st, rest, hne, rfl, hst, hl, hlen, hends⟩ | ⟨hst, s', hends, h'⟩
  · obtain ⟨u, x, rfl⟩ := (List.eq_nil_or_concat' st).resolve_left hne
    have hk := h.wordlength
    rw [hst, hends]
    simp [str_eq] at hl hlen hk
    obtain ⟨hu, hx⟩ := hl
    simp [str_eq, firstKnown, Stem.cut, hu, hx, Nat.add_assoc, ativeEnding, stemEnds_eq]
    -- `-ive` is cut off, then `-e` is tried
    refine refines_ite (fun _ => ?_) (fun _ => refines_ite (fun _ => ?_) (fun _ => ?_))
    · simp [refines_some, holds_iff, maxWordLength, *]
      omega
    · simp [refines_some, holds_iff, maxWordLength, *]
      omega
    -- a stem in `-at` may lose that too: `-e`, then nothing, is tried
    by_cases hat : [chr 'a', chr 't'] <:+ u ++ [x]
    · obtain ⟨v, rfl, rfl⟩ := snoc_of_suffix hat
      simp at hu hlen hk
      simp [firstKnown, Nat.add_assoc, hu]
      by_cases hve : lookup d (v ++ [chr 'e']) = true
      · simp [refines_some, holds_iff, maxWordLength, *]
        omega
      by_cases hv : lookup d v = true
      · simp [refines_some, holds_iff, maxWordLength, *]
        omega
      simp [hve, hv, hu, Nat.add_assoc]
      refine refines_ite (fun _ => ?_) (fun _ => ?_)
      all_goals
        simp [refines_some, holds_iff, maxWordLength, *]
        omega
    · simp [hat, firstKnown, hu, hx, Nat.add_assoc]
      refine refines_ite (fun _ => ?_) (fun _ => ?_) <;>
        simp [refines_some, holds_iff, maxWordLength, *] <;> omega
  · rw [hst, hends]
    exact h'.refines

/-- `ityEndings` does `ityRule`. -/
theorem ity_refines (h : Ready s w) : Refines d (ityEndings d s) (ityRule d w) := by
  rw [ityEndings, ityRule]
  rcases h.ends (str "ity") (by simp [str_eq]) with
    ⟨st, rest, hne, rfl, hst, hl, hlen, hends⟩ | ⟨hst, s', hends, h'⟩
  · obtain ⟨u, x, rfl⟩ := (List.eq_nil_or_concat' st).resolve_left hne
    have hk := h.wordlength
    rw [hst, hends]
    simp [str_eq] at hl hlen hk
    obtain ⟨hu, hx⟩ := hl
    simp [str_eq, firstKnown, Stem.cut, hu, hx, Nat.add_assoc, stemEnds_eq]
    -- `-ity` is cut off, then `-e` is tried
    refine refines_ite (fun _ => ?_) (fun _ => refines_ite (fun _ => ?_) (fun _ => ?_))
    · simp [refines_some, holds_iff, maxWordLength, *]
      omega
    · simp [refines_some, holds_iff, maxWordLength, *]
      omega
    -- `-ility` becomes `-le`
    refine refines_ite (fun hil => ?_) (fun _ => ?_)
    · obtain ⟨v, rfl, rfl⟩ := snoc_of_suffix hil
      simp at hu hlen
      simp [refines_some, holds_iff, maxWordLength, Nat.add_assoc, *]
      omega
    refine refines_ite (fun _ => ?_) (fun _ => refines_ite (fun _ => ?_) (fun _ => ?_))
    · simp [refines_some, holds_iff, maxWordLength, *]
      omega
    · simp [refines_some, holds_iff, maxWordLength, *]
      omega
    refine refines_ite (fun _ => ?_) (fun _ => ?_)
    all_goals
      simp [refines_some, holds_iff, maxWordLength, *]
      omega
  · rw [hst, hends]
    exact h'.refines

/-- What `bleUndouble` does with the stem before its vowel, which is cut off already. -/
theorem bleUndouble_cases {u : Bytes} {t : List UInt8} {l : ℕ} (hu : Letters u) :
    (∃ v, (lookup d v = true ∧ ∀ cs z, firstKnown d (singled u ++ cs) z = v) ∧ Letters v ∧
      u.length = v.length + 1 ∧
      bleUndouble d ⟨u ++ 0 :: t, l, u.length + 1⟩ =
        some (⟨v ++ 0 :: 0 :: t, v.length, u.length + 1⟩, true)) ∨
    ((∀ cs z, firstKnown d (singled u ++ cs) z = firstKnown d cs z) ∧
      ∃ l', bleUndouble d ⟨u ++ 0 :: t, l, u.length + 1⟩ =
        some (⟨u ++ 0 :: t, l', u.length + 1⟩, false)) := by
  rcases List.eq_nil_or_concat' u with rfl | ⟨v, y, rfl⟩
  · exact .inr ⟨fun _ _ => rfl, l, rfl⟩
  have hd : doublec (v ++ [y] ++ 0 :: t) v.length = doublec (v ++ [y]) v.length :=
    doublec_append_left (by simp) _
  rw [bleUndouble]
  simp only [List.length_append, List.length_singleton, show v.length + 1 + 1 - 2 = v.length by omega, hd]
  by_cases hdbl : doublec (v ++ [y]) v.length = true
  · rw [if_pos hdbl, singled_of_doublec hdbl]
    obtain ⟨v, rfl⟩ := doublec_snoc hdbl
    simp at hu
    by_cases hk : lookup d (v ++ [y]) = true
    · refine .inl ⟨v ++ [y], ⟨hk, fun cs _ => by simp [firstKnown, hk]⟩, by simp [hu], by simp, ?_⟩
      simp [Stem.cut, hu, hk]
    · refine .inr ⟨fun cs _ => by simp [firstKnown, hk], v.length + 2, ?_⟩
      simp [Stem.cut, hu, hk, Nat.add_assoc]
  · rw [if_neg hdbl, singled_of_not_doublec hdbl]
    exact .inr ⟨fun _ _ => rfl, l, rfl⟩

/-- `bleEndings` does `bleRule`. -/
theorem ble_refines (h : Ready s w) : Refines d (bleEndings d s) (bleRule d w) := by
  rw [bleEndings, bleRule]
  rcases h.ends (str "ble") (by simp [str_eq]) with
    ⟨st, rest, hne, rfl, hst, hl, hlen, hends⟩ | ⟨hst, s', hends, h'⟩
  · obtain ⟨u, x, rfl⟩ := (List.eq_nil_or_concat' st).resolve_left hne
    have hk := h.wordlength
    rw [hst, hends]
    simp [str_eq] at hl hlen hk
    obtain ⟨hu, hx⟩ := hl
    -- only `-able` and `-ible` are cut off
    by_cases hv : x = chr 'a' ∨ x = chr 'i'
    · simp [str_eq, hv, firstKnown, Stem.cut, hu, Nat.add_assoc]
      refine refines_ite (fun _ => ?_) (fun _ => ?_)
      · simp [refines_some, holds_iff, maxWordLength, *]
        omega
      -- the letter before the vowel may be doubled
      rcases bleUndouble_cases (d := d) (t := chr 'b' :: chr 'l' :: chr 'e' :: 0 :: rest)
        (l := u.length) hu with ⟨v, ⟨hkv, hfirst⟩, hv', hvl, hund⟩ | ⟨hfirst, l', hund⟩
      · rw [hund, hfirst]
        simp [refines_some, holds_iff, maxWordLength, *]
        omega
      rw [hund, hfirst]
      simp [firstKnown, hu, Nat.add_assoc]
      repeat' refine refines_ite (fun _ => ?_) (fun _ => ?_)
      all_goals
        simp [refines_some, holds_iff, maxWordLength, *]
        omega
    · simp [str_eq, hv, refines_some, holds_iff, maxWordLength, hu, hx]
      omega
  · rw [hst, hends]
    exact h'.refines

/-- What `erAndOrEndings` does behind a stem, for either vowel. -/
theorem erOr_refines {u rest : Bytes} {x : UInt8} (c : UInt8) {oldK : ℕ} (l : ℕ) (hu : Letters u)
    (hx : isLower x = true) (hc : isLower c = true) (hlen : u.length + rest.length = 21)
    (hk : oldK = u.length + 3) :
    Refines d (erOrEnding d oldK ⟨u ++ x :: c :: chr 'r' :: 0 :: rest, l, u.length + 1⟩)
      (erOrRule d (u ++ [x]) c (u ++ [x, c, chr 'r'])) := by
  rw [erOrEnding, erOrRule]
  simp only [List.append_assoc]
  -- the last letter may be doubled
  rcases undouble_cases (d := d) (x := x) (t := c :: chr 'r' :: 0 :: rest) (l := l) hu with
    ⟨⟨hku, hfirst⟩, hund⟩ | ⟨hfirst, l', hund⟩
  · rw [hund, hfirst]
    simp [refines_some, holds_iff, maxWordLength, *]
    omega
  rw [hund, hfirst]
  -- `-ier`, tried with `-y`
  by_cases hi : x = chr 'i'
  · subst hi
    simp [ierEnding, eerEnding, Stem.cut, firstKnown, str_eq, hu, Nat.add_assoc, ite_bind]
    repeat' refine refines_ite (fun _ => ?_) (fun _ => ?_)
    all_goals
      simp [refines_some, holds_iff, maxWordLength, *]
      omega
  -- `-eer`, tried with one `e`
  by_cases he : x = chr 'e'
  · subst he
    simp [ierEnding, eerEnding, Stem.cut, firstKnown, str_eq, hu, hc, Nat.add_assoc, ite_bind]
    repeat' refine refines_ite (fun _ => ?_) (fun _ => ?_)
    all_goals
      simp [refines_some, holds_iff, maxWordLength, *]
      omega
  simp [ierEnding, eerEnding, Stem.cut, firstKnown, str_eq, hu, hx, hc, hi, he, Nat.add_assoc]
  repeat' refine refines_ite (fun _ => ?_) (fun _ => ?_)
  all_goals
    simp [refines_some, holds_iff, maxWordLength, *]
    omega

/-- `erAndOrEndings` does `erAndOrRule`. -/
theorem erAndOr_refines (h : Ready s w) : Refines d (erAndOrEndings d s) (erAndOrRule d w) := by
  rw [erAndOrEndings, erAndOrRule]
  have hk := h.wordlength
  -- `-izer` comes first, and is cut without a look into the lists
  rcases h.ends (str "izer") (by simp [str_eq]) with
    ⟨st, rest, hne, rfl, hst, hl, hlen, hends⟩ | ⟨hst, s₁, hends, h₁⟩
  · rw [hst, hends]
    simp [str_eq] at hlen
    simp [str_eq, Stem.cut, refines_some, holds_iff, hl, maxWordLength]
    omega
  simp only [hst, hends]
  rcases h₁.ends (str "er") (by simp [str_eq]) with
    ⟨st, rest, hne, rfl, hst, hl, hlen, hends⟩ | ⟨hst, s₂, hends, h₂⟩
  · obtain ⟨u, x, rfl⟩ := (List.eq_nil_or_concat' st).resolve_left hne
    simp [str_eq] at hl hlen hk
    rw [hst, hends]
    simpa [str_eq] using
      @erOr_refines d u rest x (chr 'e') _ (u.length + 3) hl.1 hl.2 (by simp) (by omega) hk
  simp only [hst, hends]
  rcases h₂.ends (str "or") (by simp [str_eq]) with
    ⟨st, rest, hne, rfl, hst, hl, hlen, hends⟩ | ⟨hst, s₂, hends, h₃⟩
  · obtain ⟨u, x, rfl⟩ := (List.eq_nil_or_concat' st).resolve_left hne
    simp [str_eq] at hl hlen hk
    rw [hst, hends]
    simpa [str_eq] using
      @erOr_refines d u rest x (chr 'o') _ (u.length + 3) hl.1 hl.2 (by simp) (by omega) hk
  · rw [hst, hends]
    exact h₃.refines

/-- A part of a routine: it finds one of its candidates in the dictionary; or it leaves the word. -/
def Tries (d : DictTable) (o : Option (Stem × Bool)) (cs : List Bytes) (w : Bytes) : Prop :=
  (∃ s v, o = some (s, true) ∧ Holds s v ∧ lookup d v = true ∧ ∀ cs' z, firstKnown d (cs ++ cs') z = v) ∨
  ∃ s, o = some (s, false) ∧ Ready s w ∧ ∀ cs' z, firstKnown d (cs ++ cs') z = firstKnown d cs' z

/-- A part that finds a candidate ends the routine; else the next part goes on with the word. -/
theorem Tries.refines {o : Option (Stem × Bool)} {cs cs' : List Bytes} {f : Stem × Bool → Option Stem}
    (ho : Tries d o cs w) (htrue : ∀ s, f (s, true) = some s)
    (hfalse : ∀ s, Ready s w → Refines d (f (s, false)) (firstKnown d cs' w)) :
    Refines d (o.bind f) (firstKnown d (cs ++ cs') w) := by
  rcases ho with ⟨s, v, rfl, hs, hv, hfirst⟩ | ⟨s, rfl, hs, hfirst⟩
  · rw [hfirst, Option.bind_some, htrue, refines_some]
    exact ⟨hs, fun h => absurd hv (by simp [h])⟩
  · rw [hfirst, Option.bind_some]
    exact hfalse s hs

/-- A part without candidates. -/
theorem tries_none (h : Ready s w) : Tries d (some (s, false)) [] w :=
  .inr ⟨s, rfl, h, fun _ _ => rfl⟩

/-- A part tries one more candidate, before all others. -/
theorem tries_cons {v : Bytes} {cs : List Bytes} {o : Option (Stem × Bool)} (hs : Holds s v)
    (ho : Tries d o cs w) :
    Tries d (if lookup d v = true then some (s, true) else o) (v :: cs) w := by
  by_cases hv : lookup d v = true
  · rw [if_pos hv]
    exact .inl ⟨s, v, rfl, hs, hv, fun _ _ => if_pos hv⟩
  · have hskip : ∀ cs' z, firstKnown d (v :: cs ++ cs') z = firstKnown d (cs ++ cs') z :=
      fun _ _ => if_neg hv
    rw [if_neg hv]
    unfold Tries
    simp only [hskip]
    exact ho

/-- `Ready` is `Holds` and the last index. -/
theorem ready_iff : Ready s w ↔ Holds s w ∧ s.wordlength = w.length :=
  ⟨fun h => ⟨h.toHolds, h.wordlength⟩, fun ⟨h, hk⟩ => { h with wordlength := hk }⟩

/-- The part for `-ition`. -/
theorem ition_tries (h : Ready s w) :
    Tries d (itionEnding d w.length s) (onSuffix (str "ition") w (fun st => [st ++ str "e"])) w := by
  rw [itionEnding, onSuffix]
  rcases h.ends (str "ition") (by simp [str_eq]) with
    ⟨st, rest, hne, rfl, hst, hl, hlen, hends⟩ | ⟨hst, s', hends, h'⟩
  · rw [hst, hends]
    simp [str_eq] at hlen
    simp [str_eq, Stem.cut, hl]
    refine tries_cons ?_ (tries_none ?_)
    all_goals
      simp [ready_iff, holds_iff, maxWordLength, *]
      omega
  · rw [hst, hends]
    exact tries_none h'

/-- The part for `-ation`. -/
theorem ation_tries (h : Ready s w) :
    Tries d (ationEnding d w.length s)
      (onSuffix (str "ation") w (fun st => [st ++ str "ate", st ++ str "e", st])) w := by
  rw [ationEnding, onSuffix]
  rcases h.ends (str "ation") (by simp [str_eq]) with
    ⟨st, rest, hne, rfl, hst, hl, hlen, hends⟩ | ⟨hst, s', hends, h'⟩
  · rw [hst, hends]
    simp [str_eq] at hlen
    simp [str_eq, Stem.cut, hl]
    refine tries_cons ?_ (tries_cons ?_ (tries_cons ?_ (tries_none ?_)))
    all_goals
      simp [ready_iff, holds_iff, maxWordLength, *]
      omega
  · rw [hst, hends]
    exact tries_none h'

/-- The part for `-ication`. -/
theorem ication_tries (h : Ready s w) :
    Tries d (icationEnding d w.length s) (onSuffix (str "ication") w (fun st => [st ++ str "y"])) w := by
  rw [icationEnding, onSuffix]
  rcases h.ends (str "ication") (by simp [str_eq]) with
    ⟨st, rest, hne, rfl, hst, hl, hlen, hends⟩ | ⟨hst, s', hends, h'⟩
  · rw [hst, hends]
    simp [str_eq] at hlen
    simp [str_eq, Stem.cut, hl]
    refine tries_cons ?_ (tries_none ?_)
    all_goals
      simp [ready_iff, holds_iff, maxWordLength, *]
      omega
  · rw [hst, hends]
    exact tries_none h'

/-- The last part, for `-ion`. -/
theorem ionEnding_refines (h : Ready s w) :
    Refines d (ionEnding d w.length s)
      (firstKnown d (onSuffix (str "ion") w (fun st => [st ++ str "e", st])) w) := by
  rw [ionEnding, onSuffix]
  rcases h.ends (str "ion") (by simp [str_eq]) with
    ⟨st, rest, hne, rfl, hst, hl, hlen, hends⟩ | ⟨hst, s', hends, h'⟩
  · rw [hst, hends]
    simp [str_eq] at hlen
    simp [str_eq, Stem.cut, firstKnown, hl]
    repeat' refine refines_ite (fun _ => ?_) (fun _ => ?_)
    all_goals
      simp [refines_some, holds_iff, maxWordLength, *]
      omega
  · rw [hst, hends]
    exact h'.refines

/-- `ionEndings` does `ionRule`. -/
theorem ion_refines (h : Ready s w) : Refines d (ionEndings d s) (ionRule d w) := by
  rw [ionEndings, ionRule, h.wordlength]
  rcases h.ends (str "ization") (by simp [str_eq]) with
    ⟨st, rest, hne, rfl, hst, hl, hlen, hends⟩ | ⟨hst, s', hends, h'⟩
  · rw [hst, hends]
    simp [str_eq] at hlen
    simp [str_eq, Stem.cut, refines_some, holds_iff, maxWordLength, hl]
    omega
  · rw [hst, hends]
    simp only [List.append_assoc]
    -- the four endings in turn, each with what the one before left
    refine (ition_tries h').refines (fun _ => rfl) (fun s₁ h₁ => ?_)
    refine (ation_tries h₁).refines (fun _ => rfl) (fun s₂ h₂ => ?_)
    refine (ication_tries h₂).refines (fun _ => rfl) (fun s₃ h₃ => ?_)
    exact ionEnding_refines h₃

/-- A word with another last letter has no such suffix. -/
theorem stemOf_none_of_last {w : Bytes} {c : UInt8} (suf : Bytes) (hc : [c] <:+ suf) (h : ¬ [c] <:+ w) :
    stemOf suf w = none :=
  stemOf_eq_none.mpr fun hw => h (hc.trans hw.2)

/-- A word with another last letter is no plural. -/
theorem pluralRule_of_last (h : ¬ [chr 's'] <:+ w) : pluralRule d w = w := by
  rw [pluralRule, stemOf_none_of_last (str "ies") (by decide) h]
  simp only
  rw [stemOf_none_of_last (str "es") (by decide) h]
  simp only
  rw [if_neg]
  exact fun hw => h hw.2.1

/-- The letters of the word are those of the buffer. -/
theorem Ready.charAt {v : Bytes} {x : UInt8} {t : Bytes} (h : Ready s (v ++ x :: t)) :
    charAt s.word v.length = x := by
  obtain ⟨rest, hword, -⟩ := h.word_eq
  rw [hword, List.append_assoc, List.cons_append, charAt_at, charAt_cons_zero]

/-- The last letter is cut off. -/
theorem Ready.cut_last {v : Bytes} {x : UInt8} (h : Ready s (v ++ [x])) :
    ∃ t, s.cut (s.wordlength - 1) = some t ∧ Ready t v := by
  obtain ⟨rest, hword, hlen⟩ := h.word_eq
  have hk := h.wordlength
  have hl := h.letters
  obtain ⟨word, l, n⟩ := s
  simp at hword hk hl hlen
  subst hword hk
  simp [Stem.cut, ready_iff, holds_iff, maxWordLength, hl]
  omega

/-- `plural` does `pluralRule`. -/
theorem plural_refines (h : Ready s w) : Refines d (plural d s) (pluralRule d w) := by
  rw [plural, h.wordlength]
  by_cases hs : [chr 's'] <:+ w
  · obtain ⟨v, rfl⟩ := hs
    rw [if_neg (by simp [h.charAt]), pluralRule]
    -- `-ies`
    rcases h.ends (str "ies") (by simp [str_eq]) with
      ⟨st, rest, hne, hw, hst, hl, hlen, hends⟩ | ⟨hst, s', hends, h'⟩
    · rw [hst, hends]
      simp [str_eq] at hlen
      simp [str_eq, Stem.cut, Stem.setsuff, Stem.strcpy, firstKnown, hl]
      refine refines_ite (fun _ => ?_) (fun _ => ?_)
      all_goals
        simp [refines_some, holds_iff, maxWordLength, *]
        omega
    simp only [hst, hends]
    -- `-es`: with its `e` first, but not behind `ss`
    rcases h'.ends (str "es") (by simp [str_eq]) with
      ⟨st, rest, hne, hw, hst, hl, hlen, hends⟩ | ⟨hst, s', hends, h'⟩
    · obtain ⟨u, x, rfl⟩ := (List.eq_nil_or_concat' st).resolve_left hne
      rw [hst, hends]
      simp [str_eq] at hl hlen
      obtain ⟨hu, hx⟩ := hl
      rcases List.eq_nil_or_concat' u with rfl | ⟨u, y, rfl⟩
      · simp at hlen
        simp [str_eq, Stem.cut, Stem.put, firstKnown, hx]
        refine refines_ite (fun _ => ?_) (fun _ => ?_)
        all_goals
          simp [refines_some, holds_iff, maxWordLength, *]
          omega
      · simp at hu hlen
        simp [str_eq, Stem.cut, hu, hx, Nat.add_assoc, suffix_two]
        -- the code asks for the letters, the rule for the suffix
        by_cases hss : x = chr 's' ∧ y = chr 's'
        · simp [hss, firstKnown]
          refine refines_ite (fun _ => ?_) (fun _ => ?_)
          all_goals
            simp [refines_some, holds_iff, maxWordLength, *]
            omega
        · have hcode : x = chr 's' → ¬ y = chr 's' := fun hx hy => hss ⟨hx, hy⟩
          have hrule : chr 's' = y → ¬ chr 's' = x := fun hy hx => hss ⟨hx.symm, hy.symm⟩
          rw [if_pos hrule]
          simp [eq_true hcode, firstKnown]
          repeat' refine refines_ite (fun _ => ?_) (fun _ => ?_)
          all_goals
            simp [refines_some, holds_iff, maxWordLength, *]
            omega
    simp only [hst, hends]
    -- `-s`, after another letter than `s`
    rcases List.eq_nil_or_concat' v with rfl | ⟨v, y, rfl⟩
    · rw [if_neg (by simp [h'.wordlength]), if_neg (by simp)]
      exact h'.refines
    have hy : charAt s'.word v.length = y := by
      rw [List.append_assoc] at h'
      exact h'.charAt
    have hk : s'.wordlength = v.length + 2 := by
      rw [h'.wordlength]
      simp
    have hlen : (v ++ [y] ++ [chr 's']).length = v.length + 2 := by simp
    have hss : str "ss" <:+ v ++ [y] ++ [chr 's'] ↔ y = chr 's' := by
      simp [str_eq, suffix_two, eq_comm]
    rw [hk, Nat.add_sub_cancel, hy]
    simp only [hss, hlen]
    by_cases hb : v.length + 2 > 3 ∧ y ≠ chr 's'
    · rw [if_pos hb]
      -- `-ous` stays, and else the `s` goes
      rcases h'.ends (str "ous") (by simp [str_eq]) with
        ⟨st, rest, hne, hw, hst, hl, hlen, hends⟩ | ⟨hst, s'', hends, h''⟩
      · rw [hst, hends, if_neg (by simp), hw]
        simp [str_eq] at hlen
        simp [str_eq, refines_some, holds_iff, maxWordLength, hl]
        omega
      · obtain ⟨t, hcut, ht⟩ := h''.cut_last
        rw [hst, hends, if_pos ⟨hb.1, List.suffix_append _ _, hb.2, rfl⟩, List.dropLast_concat]
        simp only [hcut]
        exact ht.refines
    · rw [if_neg hb, if_neg (fun hr => hb ⟨hr.1, hr.2.2.1⟩)]
      exact h'.refines
  · -- the last letter is no `s`: the routine returns at once
    rw [pluralRule_of_last hs, if_pos]
    · exact h.refines
    rcases List.eq_nil_or_concat' w with rfl | ⟨v, x, rfl⟩
    · obtain ⟨rest, hword, -⟩ := h.word_eq
      rw [hword]
      show (0 : UInt8) ≠ chr 's'
      decide
    · rw [List.length_append, List.length_singleton, Nat.add_sub_cancel, h.charAt]
      rintro rfl
      exact hs (List.suffix_append _ _)

/-- `pastTense` does `pastTenseRule`. -/
theorem pastTense_refines (h : Ready s w) : Refines d (pastTense d s) (pastTenseRule d w) := by
  rw [pastTense, pastTenseRule, h.wordlength]
  refine refines_ite (fun _ => h.refines) (fun _ => ?_)
  -- `-ied`
  rcases h.ends (str "ied") (by simp [str_eq]) with
    ⟨st, rest, hne, rfl, hst, hl, hlen, hends⟩ | ⟨hst, s', hends, h'⟩
  · rw [hst, hends]
    simp [str_eq] at hlen
    simp [str_eq, Stem.cut, Stem.setsuff, Stem.strcpy, firstKnown, hl]
    refine refines_ite (fun _ => ?_) (fun _ => ?_)
    all_goals
      simp [refines_some, holds_iff, maxWordLength, *]
      omega
  simp only [hst, hends]
  -- `-ed`; what it looks at lies before the cut
  rcases h'.ends (str "ed") (by simp [str_eq]) with
    ⟨st, rest, hne, rfl, hst, hl, hlen, hends⟩ | ⟨hst, s', hends, h'⟩
  · obtain ⟨u, x, rfl⟩ := (List.eq_nil_or_concat' st).resolve_left hne
    have hk := h.wordlength
    rw [hst, hends]
    have hvow := vowelinstem_append_left (u := u ++ [x]) (str "ed" ++ 0 :: rest)
    have hdbl : doublec (u ++ x :: 0 :: 0 :: 0 :: rest) u.length = doublec (u ++ [x]) u.length := by
      rw [List.append_cons, doublec_append_left (by simp)]
    have hun : (charAt (u ++ x :: 0 :: 0 :: 0 :: rest) 0 = chr 'u' ∧
        charAt (u ++ x :: 0 :: 0 :: 0 :: rest) 1 = chr 'n') ↔ [chr 'u', chr 'n'] <+: u ++ [x] := by
      rw [List.append_cons u x]
      exact prefix_two (by decide) (by decide)
    simp [str_eq] at hl hlen hk hvow
    obtain ⟨hu, hx⟩ := hl
    simp [str_eq, firstKnown, Stem.cut, hu, hx, Nat.add_assoc, hvow, hdbl, hun]
    -- the answers of the routine, in its order
    refine refines_ite (fun _ => ?_) (fun _ => refines_ite (fun _ => ?_) (fun _ => refines_ite (fun _ => ?_)
      (fun _ => refines_ite (fun hd => ?_) (fun _ => ?_))))
    · simp [refines_some, holds_iff, maxWordLength, *]
      omega
    · simp [refines_some, holds_iff, maxWordLength, *]
      omega
    · simp [refines_some, holds_iff, maxWordLength, *]
      omega
    · -- a doubled letter
      obtain ⟨v, rfl⟩ := doublec_snoc hd
      simp at hu hlen
      simp
      refine refines_ite (fun _ => ?_) (fun _ => ?_)
      all_goals
        simp [refines_some, holds_iff, maxWordLength, *]
        omega
    · refine refines_ite (fun _ => ?_) (fun _ => ?_)
      all_goals
        simp [refines_some, holds_iff, maxWordLength, *]
        omega
  · rw [hst, hends]
    exact h'.refines

/-- `aspect` does `aspectRule`. -/
theorem aspect_refines (h : Ready s w) : Refines d (aspect d s) (aspectRule d w) := by
  rw [aspect, aspectRule, h.wordlength]
  refine refines_ite (fun _ => h.refines) (fun _ => ?_)
  rcases h.ends (str "ing") (by simp [str_eq]) with
    ⟨st, rest, hne, rfl, hst, hl, hlen, hends⟩ | ⟨hst, s', hends, h'⟩
  · obtain ⟨u, x, rfl⟩ := (List.eq_nil_or_concat' st).resolve_left hne
    have hk := h.wordlength
    rw [hst, hends]
    -- what the routine looks at lies before the cut
    have hvow := vowelinstem_append_left (u := u ++ [x]) (str "ing" ++ 0 :: rest)
    have hdbl : doublec (u ++ x :: 0 :: 0 :: chr 'g' :: 0 :: rest) u.length =
        doublec (u ++ [x]) u.length := by
      rw [List.append_cons, doublec_append_left (by simp)]
    have hcons : cons (u ++ x :: 0 :: 0 :: chr 'g' :: 0 :: rest) u.length = cons (u ++ [x]) u.length := by
      rw [List.append_cons, cons_append_left (by simp)]
    have hcons' : cons (u ++ x :: 0 :: 0 :: chr 'g' :: 0 :: rest) (u.length - 1) =
        cons (u ++ [x]) (u.length - 1) := by
      rw [List.append_cons, cons_append_left (by rw [List.length_append, List.length_singleton]; omega)]
    simp [str_eq] at hl hlen hk hvow
    obtain ⟨hu, hx⟩ := hl
    simp [str_eq, firstKnown, Stem.cut, hu, hx, Nat.add_assoc, hvow, hdbl, hcons, hcons']
    -- the answers of the routine, in its order
    refine refines_ite (fun _ => ?_) (fun _ => refines_ite (fun _ => ?_) (fun _ => refines_ite (fun _ => ?_)
      (fun _ => refines_ite (fun hd => ?_) (fun _ => ?_))))
    · simp [refines_some, holds_iff, maxWordLength, *]
      omega
    · simp [refines_some, holds_iff, maxWordLength, *]
      omega
    · simp [refines_some, holds_iff, maxWordLength, *]
      omega
    · -- a doubled letter
      obtain ⟨v, rfl⟩ := doublec_snoc hd
      simp at hu hlen
      simp
      refine refines_ite (fun _ => ?_) (fun _ => ?_)
      all_goals
        simp [refines_some, holds_iff, maxWordLength, *]
        omega
    · refine refines_ite (fun _ => ?_) (fun _ => ?_)
      all_goals
        simp [refines_some, holds_iff, maxWordLength, *]
        omega
  · rw [hst, hends]
    exact h'.refines

end

end Zapdos.Search.KrovetzStemmer
