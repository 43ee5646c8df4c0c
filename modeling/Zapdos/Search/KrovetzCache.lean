/-
  The stemmer and its cache.

  A word is looked up before each ending; the first form in the dictionary is kept and replaced by its
  root, if it has one.  The endings write into a buffer of 25 characters: `-ic` is the one that may
  make the word longer, and it does not look whether there is room.

  Stems are kept in a table of two places a slot, under the word as it came.

  THE CRUX.  A place that is in use holds the stem of its word, whatever words came before; so the
  table is invisible, and what a stemmer answers depends on the word alone.
-/
import Zapdos.Lib.Memo
import Zapdos.Search.KrovetzRules

namespace Zapdos.Search.KrovetzStemmer

open Zapdos.Lib Zapdos.Lib.CString Zapdos.Store

/-! ## The stem of a word -/

section

variable (d : DictTable)

/-- The word is looked up before each rule. -/
def applyRules : List (Bytes → Bytes) → Bytes → Bytes
  | [], w => w
  | r :: rs, w => if lookup d w then w else applyRules rs (r w)

/-- The rules before that for `-ic`, the one that may write beyond the buffer. -/
def rulesBeforeIc : List (Bytes → Bytes) :=
  [pluralRule d, pastTenseRule d, aspectRule d, ityRule d, nessRule, ionRule d, erAndOrRule d,
    lyRule d, alRule d, iveRule d, izeRule d, mentRule d, bleRule d, ismRule]

/-- The rules after it. -/
def rulesAfterIc : List (Bytes → Bytes) := [ncyRule d, nceRule d]

/-- What the rules make of a word. -/
def ruleWord (w : Bytes) : Bytes := applyRules d (rulesBeforeIc d ++ icRule d :: rulesAfterIc d) w

/-- The root of a word in the dictionary; any other word is its own root. -/
def rootOf (w : Bytes) : Bytes :=
  match getdep d w with
  | none => w
  | some dep => if dep.root ≠ [] then dep.root else w

/-- **The stem of a word in lower case.** -/
def stemOfWord (w : Bytes) : Bytes := rootOf d (ruleWord d w)

/-- The word comes to the rule for `-ic` with less than two characters of room. -/
def Overruns (w : Bytes) : Prop :=
  let v := applyRules d (rulesBeforeIc d) w
  lookup d v = false ∧ (stemOf (str "ic") v).isSome = true ∧ maxWordLength < v.length + 3

/-- Whether a word overruns the buffer can be computed. -/
instance decidableOverruns (w : Bytes) : Decidable (Overruns d w) :=
  inferInstanceAs (Decidable (_ ∧ _))

/-- What the stemmer answers: nothing when it writes beyond its buffer. -/
def stemSpec (term : Bytes) : Option Bytes :=
  if !stemIt term then some (term.map toLower)
  else if Overruns d (term.map toLower) then none
  else some (stemOfWord d (term.map toLower))

end

/-! ## The loop that never repeats -/

section

variable {d : DictTable} {s : Stem} {w : Bytes}

/-- The routine follows the rule, on words that are not in the dictionary. -/
def Follows (d : DictTable) (ending : Stem → Option Stem) (rule : Bytes → Bytes) : Prop :=
  ∀ s w, Ready s w → Refines d (ending s) (rule w)

/-- The routine and the rule ask for the same word. -/
theorem Holds.known (h : Holds s w) : s.known d = lookup d w := by rw [Stem.known, h.text]

/-- A word in the dictionary passes all routines. -/
theorem stages_of_known (h : s.known d = true) (es : List (Stem → Option Stem)) :
    stages d es s = some s := by
  cases es with
  | nil => rfl
  | cons e es => rw [stages, if_pos h]

/-- A word in the dictionary passes all rules. -/
theorem applyRules_of_lookup (h : lookup d w = true) (rs : List (Bytes → Bytes)) :
    applyRules d rs w = w := by
  cases rs with
  | nil => rfl
  | cons r rs => rw [applyRules, if_pos h]

/-- Routines in two groups. -/
theorem stages_append (es es' : List (Stem → Option Stem)) (s : Stem) :
    stages d (es ++ es') s = (stages d es s).bind (stages d es') := by
  induction es generalizing s with
  | nil => rfl
  | cons e es ih =>
    rw [List.cons_append, stages, stages]
    split_ifs with hk
    · rw [Option.bind_some, stages_of_known hk]
    · rw [Option.bind_assoc]
      exact congrArg _ (funext ih)

/-- Rules in two groups. -/
theorem applyRules_append (rs rs' : List (Bytes → Bytes)) (w : Bytes) :
    applyRules d (rs ++ rs') w = applyRules d rs' (applyRules d rs w) := by
  induction rs generalizing w with
  | nil => rfl
  | cons r rs ih =>
    rw [List.cons_append, applyRules, applyRules]
    split_ifs with hk
    · rw [applyRules_of_lookup hk]
    · exact ih _

/-- **The routines follow the rules**, as long as each one does. -/
theorem stages_refines {es : List (Stem → Option Stem)} {rs : List (Bytes → Bytes)}
    (hes : List.Forall₂ (Follows d) es rs) (hs : Holds s w)
    (hk : lookup d w = false → s.wordlength = w.length) :
    Refines d (stages d es s) (applyRules d rs w) := by
  induction hes generalizing s w with
  | nil => exact refines_some.mpr ⟨hs, hk⟩
  | cons he _ ih =>
    rw [stages, applyRules, hs.known]
    refine refines_ite (fun _ => refines_some.mpr ⟨hs, hk⟩) (fun hw => ?_)
    obtain ⟨s', hs', hholds, hk'⟩ := he s w { hs with wordlength := hk (by simpa using hw) }
    rw [hs', Option.bind_some]
    exact ih hholds hk'

/-- The routines before `icEndings` follow their rules. -/
theorem follows_beforeIc :
    List.Forall₂ (Follows d)
      [plural d, pastTense d, aspect d, ityEndings d, nessEndings, ionEndings d, erAndOrEndings d,
        lyEndings d, alEndings d, iveEndings d, izeEndings d, mentEndings d, bleEndings d, ismEndings]
      (rulesBeforeIc d) :=
  .cons (fun _ _ => plural_refines) <| .cons (fun _ _ => pastTense_refines) <|
  .cons (fun _ _ => aspect_refines) <| .cons (fun _ _ => ity_refines) <|
  .cons (fun _ _ => ness_refines) <| .cons (fun _ _ => ion_refines) <|
  .cons (fun _ _ => erAndOr_refines) <| .cons (fun _ _ => ly_refines) <|
  .cons (fun _ _ => al_refines) <| .cons (fun _ _ => ive_refines) <|
  .cons (fun _ _ => ize_refines) <| .cons (fun _ _ => ment_refines) <|
  .cons (fun _ _ => ble_refines) <| .cons (fun _ _ => ism_refines) .nil

/-- And so do those after it. -/
theorem follows_afterIc : List.Forall₂ (Follows d) [ncyEndings d, nceEndings d] (rulesAfterIc d) :=
  .cons (fun _ _ => ncy_refines) <| .cons (fun _ _ => nce_refines) .nil

/-- Without room, `ic_endings` writes beyond the buffer. -/
theorem ic_overruns (h : Ready s w) (hic : (stemOf (str "ic") w).isSome = true)
    (hroom : maxWordLength < w.length + 3) : icEndings d s = none := by
  rw [icEndings]
  rcases h.ends (str "ic") (by simp [str_eq]) with
    ⟨st, rest, hne, rfl, hst, hl, hlen, hends⟩ | ⟨hst, s', hends, h'⟩
  · rw [hends]
    simp [str_eq, maxWordLength] at hlen hroom
    rcases rest with _ | ⟨a, _ | ⟨b, rest⟩⟩
    · simp [str_eq, Stem.put]
    · simp [str_eq, Stem.put, Stem.cut]
    · simp at hlen
      omega
  · rw [hst] at hic
    exact absurd hic (by simp)

/-- **The routines, one after the other**: the word of the rules, or a write beyond the buffer. -/
theorem stages_endings (h : Ready s w) :
    if Overruns d w then stages d (endings d) s = none
    else Refines d (stages d (endings d) s) (ruleWord d w) := by
  have hsplit : endings d =
      [plural d, pastTense d, aspect d, ityEndings d, nessEndings, ionEndings d, erAndOrEndings d,
        lyEndings d, alEndings d, iveEndings d, izeEndings d, mentEndings d, bleEndings d, ismEndings]
      ++ icEndings d :: [ncyEndings d, nceEndings d] := rfl
  obtain ⟨s₁, hs₁, hholds, hk⟩ := stages_refines follows_beforeIc h.toHolds fun _ => h.wordlength
  rw [hsplit, stages_append, hs₁, Option.bind_some, ruleWord, applyRules_append]
  have hover : Overruns d w ↔ lookup d (applyRules d (rulesBeforeIc d) w) = false ∧
    (stemOf (str "ic") (applyRules d (rulesBeforeIc d) w)).isSome = true ∧
    maxWordLength < (applyRules d (rulesBeforeIc d) w).length + 3 := Iff.rfl
  simp only [hover]
  -- `v` is what the routines before `ic_endings` leave
  generalize applyRules d (rulesBeforeIc d) w = v at hholds hk
  -- a known word goes through the rest unchanged
  cases hv : lookup d v with
  | true =>
    rw [if_neg (by simp), stages_of_known (by rw [hholds.known, hv]), applyRules_of_lookup hv]
    exact refines_some.mpr ⟨hholds, hk⟩
  | false =>
    have hready : Ready s₁ v := { hholds with wordlength := hk hv }
    have hstep : stages d (icEndings d :: [ncyEndings d, nceEndings d]) s₁ =
        (icEndings d s₁).bind (stages d [ncyEndings d, nceEndings d]) := by
      rw [stages, hholds.known, hv, if_neg (by simp)]
    have hrule : applyRules d (icRule d :: rulesAfterIc d) v = applyRules d (rulesAfterIc d) (icRule d v) := by
      rw [applyRules, hv, if_neg (by simp)]
    rw [hstep, hrule]
    -- `ic_endings` writes three characters behind the stem
    split_ifs with hroom
    · rw [ic_overruns hready hroom.2.1 hroom.2.2, Option.bind_none]
    · have hroom' : stemOf (str "ic") v ≠ none → v.length + 3 ≤ maxWordLength := fun hic => by
        by_contra hlt
        exact hroom ⟨rfl, Option.isSome_iff_ne_none.mpr hic, by omega⟩
      obtain ⟨s₂, hs₂, hholds₂, hk₂⟩ := ic_refines hready hroom'
      rw [hs₂, Option.bind_some]
      exact stages_refines follows_afterIc hholds₂ hk₂

/-! ## The buffer -/

/-- `strcpy` behind a first part writes the word and its terminator. -/
theorem strcpy_behind (u : List UInt8) {t : List UInt8} {v : Bytes} {l n : ℕ} (h : v.length < t.length) :
    Stem.strcpy ⟨u ++ t, l, n⟩ u.length v = some ⟨u ++ (v ++ 0 :: t.drop (v.length + 1)), l, n⟩ := by
  induction v generalizing u t with
  | nil =>
    cases t with
    | nil => exact absurd h (Nat.not_lt_zero _)
    | cons a t => exact put_at
  | cons c v ih =>
    cases t with
    | nil => exact absurd h (Nat.not_lt_zero _)
    | cons a t =>
      rw [Stem.strcpy, put_at]
      show Stem.strcpy ⟨u ++ c :: t, l, n⟩ (u.length + 1) v = _
      have hlen : u.length + 1 = (u ++ [c]).length := by rw [List.length_append, List.length_singleton]
      rw [List.append_cons, hlen, ih (u ++ [c]) (by simpa using h)]
      simp

/-- A word is copied to the start of the buffer. -/
theorem strcpy_start {b : List UInt8} {v : Bytes} {l n : ℕ} (h : v.length < b.length) :
    Stem.strcpy ⟨b, l, n⟩ 0 v = some ⟨v ++ 0 :: b.drop (v.length + 1), l, n⟩ := strcpy_behind [] h

/-- The buffer keeps its size. -/
theorem length_strcpy {b : List UInt8} {v : Bytes} (h : v.length < b.length) :
    (v ++ 0 :: b.drop (v.length + 1)).length = b.length := by
  rw [List.length_append, List.length_cons, List.length_drop]
  omega

/-- A letter in lower case is a lower-case letter. -/
theorem isLower_toLower {c : UInt8} (h : isAlpha c = true) : isLower (toLower c) = true := by
  rw [isAlpha, Bool.or_eq_true, Bool.and_eq_true, Bool.and_eq_true] at h
  simp only [decide_eq_true_eq] at h
  rw [toLower, isLower, Bool.and_eq_true, decide_eq_true_eq, decide_eq_true_eq]
  split_ifs with hupper
  · rw [UInt8.toNat_add, show (32 : UInt8).toNat = 32 from rfl]
    omega
  · omega

/-- Which terms are stemmed: three letters at least, and less than the buffer holds. -/
theorem stemIt_iff {term : Bytes} : stemIt term = true ↔
    3 ≤ term.length ∧ term.length < maxWordLength ∧ ∀ c ∈ term, isAlpha c = true := by
  simp [stemIt, and_assoc]

/-- A term that is stemmed is a word of the lists once it is in lower case. -/
theorem listed_toLower {term : Bytes} (h : stemIt term = true) : Listed (term.map toLower) := by
  obtain ⟨-, hlen, halpha⟩ := stemIt_iff.mp h
  constructor
  · intro c hc
    obtain ⟨b, hb, rfl⟩ := List.mem_map.mp hc
    exact isLower_toLower (halpha b hb)
  · rw [List.length_map]
    exact hlen

/-- The roots are words. -/
def RootsListed (d : DictTable) : Prop := ∀ p ∈ d, Listed p.2.root

/-- A blank root may stand in the table. -/
theorem listed_nil : Listed [] := ⟨fun _ h => absurd h List.not_mem_nil, by decide⟩

/-- One more entry with a root that is a word. -/
theorem RootsListed.add (hd : RootsListed d) {variant word : Bytes} (hw : Listed word) (exc : Bool) :
    RootsListed (kstemAddTableEntry d variant word exc) := by
  unfold kstemAddTableEntry
  split
  · exact hd
  · exact List.forall_mem_cons.mpr ⟨hw, hd⟩

/-- Entries added one after the other. -/
theorem RootsListed.foldl {α : Type} {add : DictTable → α → DictTable} {as : List α} (hd : RootsListed d)
    (hadd : ∀ d a, a ∈ as → RootsListed d → RootsListed (add d a)) : RootsListed (as.foldl add d) :=
  List.foldlRecOn as add hd fun _ hd' a ha => hadd _ a ha hd'

/-- **The tables that are loaded** have words for roots. -/
theorem loadTables_rootsListed (l : WordLists) : RootsListed (loadTables l) := by
  refine RootsListed.foldl (RootsListed.foldl (RootsListed.foldl ?_ ?_) ?_) ?_
  · exact fun p hp => absurd hp List.not_mem_nil
  · exact fun d _ _ hd => hd.add listed_nil true
  · exact fun d _ _ hd => hd.add listed_nil false
  · exact fun d p hp hd => hd.add (l.stems_listed p hp) false

/-- What is found has a word for a root. -/
theorem RootsListed.getdep (hd : RootsListed d) {dep : DictEntry} (h : getdep d w = some dep) :
    Listed dep.root := by
  rw [KrovetzStemmer.getdep] at h
  split_ifs at h with hlen
  obtain ⟨l₁, l₂, rfl, -⟩ := List.lookup_eq_some_iff.mp h
  exact hd (w, dep) (List.mem_append_right _ List.mem_cons_self)

/-- The root of a word is a word. -/
theorem listed_rootOf (hd : RootsListed d) (hw : Listed w) : Listed (rootOf d w) := by
  unfold rootOf
  split
  · exact hw
  · rename_i dep hdep
    split_ifs
    · exact hd.getdep hdep
    · exact hw

/-- **Stemming in the buffer**: the stem, or a write beyond the buffer. -/
theorem stemBuffer_spec (hd : RootsListed d) {term : Bytes} (ht : stemIt term = true) {buffer : List UInt8}
    (hb : buffer.length = maxWordLength) :
    match stemSpec d term with
    | none => stemBuffer d buffer term = none
    | some stem => Listed stem ∧
        ∃ b, stemBuffer d buffer term = some b ∧ b.length = maxWordLength ∧ cstr b = stem := by
  have hlow := listed_toLower ht
  -- the buffer has the term in lower case, and whatever it held behind that
  have hcopy := strcpy_start (l := term.length) (n := 0) (hlow.2.trans_eq hb.symm)
  have hready : Ready ⟨term.map toLower ++ 0 :: buffer.drop ((term.map toLower).length + 1), term.length, 0⟩
      (term.map toLower) :=
    { letters := hlow.1
      short := hlow.2
      fits := (length_strcpy (hlow.2.trans_eq hb.symm)).trans hb
      text := cstr_text (Letters.ne_zero hlow.1) _
      wordlength := (List.length_map _).symm }
  have hstages := stages_endings (d := d) hready
  rw [stemSpec, ht]
  simp only [Bool.not_true, Bool.false_eq_true, if_false]
  rw [stemBuffer, hcopy]
  split_ifs at hstages ⊢ with hover
  · show (stages d (endings d) _).bind _ = none
    rw [hstages, Option.bind_none]
  · obtain ⟨s, hs, hholds, -⟩ := hstages
    have hlisted : Listed (ruleWord d (term.map toLower)) := ⟨hholds.letters, hholds.short⟩
    refine ⟨listed_rootOf hd hlisted, ?_⟩
    show ∃ b, (stages d (endings d) _).bind _ = some b ∧ _ ∧ _
    rw [hs, Option.bind_some, hholds.text, stemOfWord, rootOf]
    -- the root of the dictionary is copied over the word, if there is one
    cases hdep : getdep d (ruleWord d (term.map toLower)) with
    | none => exact ⟨s.word, rfl, hholds.fits, hholds.text⟩
    | some dep =>
      simp only
      split_ifs with hroot
      · have hlen := (hd.getdep hdep).2.trans_eq hholds.fits.symm
        obtain ⟨b, l, n⟩ := s
        rw [strcpy_start hlen]
        exact ⟨_, rfl, (length_strcpy hlen).trans hholds.fits, cstr_text (Letters.ne_zero (hd.getdep hdep).1) _⟩
      · exact ⟨s.word, rfl, hholds.fits, hholds.text⟩

/-- **The routines compute the rules**: with any word lists, and whatever the buffer holds before. -/
theorem stemBuffer_eq (l : WordLists) {term : Bytes} (ht : stemIt term = true) {buffer : List UInt8}
    (hb : buffer.length = maxWordLength) :
    (stemBuffer (loadTables l) buffer term).map cstr =
      if Overruns (loadTables l) (term.map toLower) then none
      else some (stemOfWord (loadTables l) (term.map toLower)) := by
  have hspec : stemSpec (loadTables l) term = if Overruns (loadTables l) (term.map toLower) then none
      else some (stemOfWord (loadTables l) (term.map toLower)) := by
    rw [stemSpec, if_neg (by simpa using ht)]
  rw [← hspec]
  have hbuf := stemBuffer_spec (loadTables_rootsListed l) ht hb
  cases hs : stemSpec (loadTables l) term with
  | none =>
    rw [hs] at hbuf
    rw [hbuf, Option.map_none]
  | some stem =>
    rw [hs] at hbuf
    obtain ⟨-, b, hb', -, hcstr⟩ := hbuf
    rw [hb', Option.map_some, hcstr]

/-- With no word lists, "Calories" loses its plural in a buffer that was used before. -/
theorem stemBuffer_calories :
    (stemBuffer (loadTables ⟨[], [], [], by decide⟩) (List.replicate 25 120) (str "Calories")).map cstr =
      some (str "calory") := by
  refine (stemBuffer_eq ⟨[], [], [], by decide⟩ ?_ (List.length_replicate (n := 25) (a := 120))).trans ?_
  · decide +kernel
  · decide +kernel

/-! ## The cache -/

/-- A place that is in use holds the stem of its word. -/
def Cached (d : DictTable) (word stem : Bytes) : Prop := stemIt word = true → stemSpec d word = some stem

/-- Every place of the table. -/
structure CacheEntry.Sound (d : DictTable) (e : CacheEntry) : Prop where
  first : Cached d e.word1 e.stem1
  second : Cached d e.word2 e.stem2

/-- **The invariant of the stemmer**: the buffer has its size, and the table holds stems. -/
structure Stemmer.Sound (d : DictTable) (o : Stemmer) : Prop where
  fits : o.stem.length = maxWordLength
  slots : ∀ h, (o.stemCache h).Sound d

/-- A new stemmer has no place in use. -/
theorem sound_new : Stemmer.new.Sound d where
  fits := List.length_replicate
  slots := fun _ => ⟨fun h => absurd h Bool.false_ne_true, fun h => absurd h Bool.false_ne_true⟩

/-- One entry and the buffer change. -/
theorem Stemmer.Sound.update {o : Stemmer} (h : o.Sound d) {hval : ℕ} {e : CacheEntry} (he : e.Sound d)
    {b : List UInt8} (hb : b.length = maxWordLength) :
    Stemmer.Sound d ⟨Function.update o.stemCache hval e, b⟩ where
  fits := hb
  slots := fun i => by
    show (Function.update o.stemCache hval e i).Sound d
    rw [Function.update_apply]
    split_ifs
    · exact he
    · exact h.slots i

/-- The flag only tells which place is taken next. -/
theorem CacheEntry.Sound.flag {e : CacheEntry} (h : e.Sound d) (n : ℕ) :
    CacheEntry.Sound d { e with flag := n } := ⟨h.first, h.second⟩

/-- A stem is a word. -/
theorem listed_of_stemSpec (hd : RootsListed d) {term stem : Bytes} (ht : stemIt term = true)
    (h : stemSpec d term = some stem) : Listed stem := by
  have hlen : (List.replicate maxWordLength (0 : UInt8)).length = maxWordLength := List.length_replicate
  have hspec := stemBuffer_spec hd ht hlen
  rw [h] at hspec
  exact hspec.1

/-- A new entry takes one of the two places. -/
theorem CacheEntry.Sound.store {e : CacheEntry} (he : e.Sound d) {term stem : Bytes}
    (hterm : term.length < maxWordLength) (hstem : stem.length < maxWordLength) (h : Cached d term stem) :
    ∃ e', e.store term stem = some e' ∧ e'.Sound d := by
  rw [CacheEntry.store, intoArray, if_pos hterm, intoArray, if_pos hstem]
  by_cases hflag : e.flag = 2
  · exact ⟨_, if_pos hflag, ⟨h, he.second⟩⟩
  · exact ⟨_, if_neg hflag, ⟨he.first, h⟩⟩

/-- A word fits into the buffer. -/
theorem strcpy_listed {b : List UInt8} (hb : b.length = maxWordLength) {v : Bytes} (hv : Listed v) :
    ∃ s, Stem.strcpy ⟨b, 0, 0⟩ 0 v = some s ∧ s.word.length = maxWordLength ∧ s.text = v :=
  ⟨_, strcpy_start (hv.2.trans_eq hb.symm), (length_strcpy (hv.2.trans_eq hb.symm)).trans hb,
    cstr_text (Letters.ne_zero hv.1) _⟩

/-- **The table is invisible**: the stemmer answers the stem of its word. -/
theorem kstemStemmer_computes (hd : RootsListed d) :
    Memo.Computes (Stemmer.Sound d) (kstemStemmer d) (stemSpec d) := by
  intro o term ho
  -- a term that is not stemmed is answered in lower case, past the cache
  cases ht : stemIt term with
  | false =>
    have hspec : stemSpec d term = some (term.map toLower) := by rw [stemSpec, ht]; rfl
    rw [hspec]
    exact ⟨o, by rw [kstemStemmer, ht]; rfl, ho⟩
  | true =>
    have he := ho.slots (stemhash term)
    rw [kstemStemmer, ht]
    simp only [Bool.not_true, Bool.false_eq_true, if_false]
    -- the first word of the entry
    by_cases h₁ : term = (o.stemCache (stemhash term)).word1
    · have hspec := he.first (h₁ ▸ ht)
      rw [← h₁] at hspec
      obtain ⟨s, hs, hfits, htext⟩ := strcpy_listed ho.fits (listed_of_stemSpec hd ht hspec)
      rw [if_pos h₁, hspec, hs, Option.bind_eq_bind, Option.bind_some, htext]
      exact ⟨_, rfl, ho.update (he.flag 1) hfits⟩
    -- the second word of the entry
    by_cases h₂ : term = (o.stemCache (stemhash term)).word2
    · have hspec := he.second (h₂ ▸ ht)
      rw [← h₂] at hspec
      obtain ⟨s, hs, hfits, htext⟩ := strcpy_listed ho.fits (listed_of_stemSpec hd ht hspec)
      rw [if_neg h₁, if_pos h₂, hspec, hs, Option.bind_eq_bind, Option.bind_some, htext]
      exact ⟨_, rfl, ho.update (he.flag 2) hfits⟩
    -- neither: the routines run, and the entry takes the term in
    have hbuf := stemBuffer_spec hd ht ho.fits
    rw [if_neg h₁, if_neg h₂]
    cases hspec : stemSpec d term with
    | none =>
      rw [hspec] at hbuf
      show (stemBuffer d o.stem term).bind _ = none
      rw [hbuf, Option.bind_none]
    | some stem =>
      rw [hspec] at hbuf
      obtain ⟨hlisted, b, hb, hfits, hcstr⟩ := hbuf
      obtain ⟨e', hstore, he'⟩ := he.store (stemIt_iff.mp ht).2.1 hlisted.2 fun _ => hspec
      refine ⟨⟨Function.update o.stemCache (stemhash term) e', b⟩, ?_, ho.update he' hfits⟩
      rw [hb, Option.bind_eq_bind, Option.bind_some, hcstr, hstore]
      rfl

end

end Zapdos.Search.KrovetzStemmer
