/-
  `TLangModel` — the words of a text and how often they, their pairs and their triples occur.

  A word is a number in the order of first occurrence.  The counts are kept in the slots of a perfect
  hash of the n-grams' bytes, each with sixteen bits of another hash to tell n-grams that were never
  seen.

  THE CRUX.  The hash is perfect on the n-grams of the text, so no slot is written twice
  (`initializeBuckets_slot`), and n-grams of different order differ in length: every n-gram of the text
  reads back the count it was given.

  `PackInt32` and `UnpackInt32` round by floating point and are parameters: a count comes back as
  `UnpackInt32(PackInt32(count))`.  So are the decoder of UTF-8, the locale, the clock and the order in
  which the hash maps are walked.
-/
import Zapdos.Jamspell.City
import Zapdos.Jamspell.Phf
import Zapdos.Jamspell.Tokenizer
import Zapdos.Lib.AssocList

namespace Zapdos.Jamspell

open Zapdos.Lib Zapdos.Store

/-! ## Words and their numbers -/

/-- `WordToId` and `LastWordID`. -/
structure Vocab where
  wordToId : List (WString × UInt32)
  lastWordID : UInt32
  deriving DecidableEq, Repr

/-- `GetWordId`. -/
def getWordId (v : Vocab) (w : WString) : Vocab × UInt32 :=
  match v.wordToId.lookup w with
  | some wid => (v, wid)
  | none => (⟨v.wordToId ++ [(w, v.lastWordID)], v.lastWordID + 1⟩, v.lastWordID)

/-- The words of one sentence. -/
def convertWords (v : Vocab) : List WString → Vocab × List UInt32
  | [] => (v, [])
  | w :: ws =>
    let (v, wid) := getWordId v w
    let (v, wids) := convertWords v ws
    (v, wid :: wids)

/-- `ConvertToIds`. -/
def convertToIds (v : Vocab) : List (List WString) → Vocab × List (List UInt32)
  | [] => (v, [])
  | s :: ss =>
    let (v, wids) := convertWords v s
    let (v, rest) := convertToIds v ss
    (v, wids :: rest)

/-! ## N-grams -/

section

variable {α : Type}

/-- `(ssize_t)size`: here `ssize_t` is `int`. -/
def ssize (n : ℕ) : ℤ := Int.bmod n (2 ^ 32)

/-- Words next to each other. -/
def pairs (ws : List α) : List (α × α) := ws.zip ws.tail

/-- Three words in a row. -/
def triples (ws : List α) : List (α × α × α) := ws.zip (ws.tail.zip ws.tail.tail)

/-- `(words[j], words[j+1])` for `j < (ssize_t)words.size() - 1`. -/
def grams2 (ws : List α) : List (α × α) := (pairs ws).take (ssize ws.length - 1).toNat

/-- `(words[j], words[j+1], words[j+2])` for `j < (ssize_t)words.size() - 2`. -/
def grams3 (ws : List α) : List (α × α × α) := (triples ws).take (ssize ws.length - 2).toNat

variable [DecidableEq α]

/-- `grams[key] += 1`. -/
def addGram (m : List (α × UInt32)) (k : α) : List (α × UInt32) :=
  match m.lookup k with
  | some _ => m.map (fun p => if p.1 = k then (p.1, p.2 + 1) else p)
  | none => m ++ [(k, 1)]

/-- The counts of a list of n-grams. -/
def countGrams (ks : List α) : List (α × UInt32) := ks.foldl addGram []

end

/-- `DumpKey`. -/
def dumpKey1 (w : UInt32) : Bytes := packUint32.dump w
def dumpKey2 (p : UInt32 × UInt32) : Bytes := (packPair packUint32 packUint32).dump p

/-- The tuple is written from its last element. -/
def dumpKey3 (t : UInt32 × UInt32 × UInt32) : Bytes :=
  packUint32.dump t.2.2 ++ packUint32.dump t.2.1 ++ packUint32.dump t.1

/-! ## Training -/

/-- What training calls and is not modelled. -/
structure TrainEnv where
  locale : Locale
  utf8ToWide : Bytes → WString
  qsort : QSort
  fuel : ℕ
  trainStarTime : UInt64
  packInt32 : UInt32 → UInt16
  unpackInt32 : UInt16 → UInt32
  walk : List (Bytes × UInt32) → List (Bytes × UInt32)
  walk_perm : ∀ l, (walk l).Perm l

section

variable (env : TrainEnv)

/-- `InitializeBuckets`. -/
def initializeBuckets (ph : Phf) (grams : List (Bytes × UInt32)) (buckets : List (UInt16 × UInt16)) :
    List (UInt16 × UInt16) :=
  grams.foldl (fun buckets it => buckets.set (phfHash ph it.1) (cityHash16 it.1, env.packInt32 it.2)) buckets

/-- `TLangModel`. -/
structure LangModel where
  vocab : Vocab
  totalWords : UInt32
  vocabSize : UInt32
  perfectHash : Phf
  buckets : List (UInt16 × UInt16)
  alphabet : List UInt32
  checkSum : UInt64
  deriving DecidableEq, Repr

/-- The three tables of counts, with the keys they are stored under. -/
def gramTable (ids : List (List UInt32)) : List (Bytes × UInt32) :=
  env.walk ((countGrams ids.flatten).map (fun p => (dumpKey1 p.1, p.2)))
    ++ env.walk ((countGrams (ids.flatMap grams2)).map (fun p => (dumpKey2 p.1, p.2)))
    ++ env.walk ((countGrams (ids.flatMap grams3)).map (fun p => (dumpKey3 p.1, p.2)))

/-- The check sum; the text and the sentences are swapped away by then. -/
def trainCheckSum (ids : List (List UInt32)) (buckets : ℕ) : UInt64 :=
  cityHash64 (packUint64.dump env.trainStarTime
    ++ packSize.dump (countGrams ids.flatten).length ++ packSize.dump (countGrams (ids.flatMap grams2)).length
    ++ packSize.dump (countGrams (ids.flatMap grams3)).length ++ packSize.dump buckets
    ++ packSize.dump 0 ++ packSize.dump 0)

/-- `Train`, from the sentences on. -/
def trainSentences (alphabet : List UInt32) (sentences : List (List WString)) : Option LangModel := do
  let (vocab, ids) := convertToIds ⟨[], 0⟩ sentences
  let table := gramTable env ids
  let ph ← perfectHashInit env.qsort env.fuel (table.map Prod.fst)
  return { vocab := vocab
           totalWords := UInt32.ofNat ids.flatten.length
           vocabSize := UInt32.ofNat (countGrams ids.flatten).length
           perfectHash := ph
           buckets := initializeBuckets env ph table (List.replicate ph.m (0, 0))
           alphabet := alphabet
           checkSum := trainCheckSum env ids ph.m }

/-- The sentences of a text, in lower case. -/
def sentencesOf (loc : Locale) (alphabet : List UInt32) (trainText : WString) : List (List WString) :=
  let trainText := toLower loc trainText
  (process loc alphabet trainText).map (fun s => s.map (TWord.text trainText))

/-- `Train`, on the contents of the two files. -/
def train (file alphabetString : Bytes) : Option LangModel := do
  let alphabet ← loadAlphabet env.locale (env.utf8ToWide alphabetString)
  let sentences := sentencesOf env.locale alphabet (env.utf8ToWide file)
  if sentences = [] then none else trainSentences env alphabet sentences

def unknownWordId : UInt32 := 4294967295

/-- `GetWordIdNoCreate`. -/
def getWordIdNoCreate (v : Vocab) (w : WString) : UInt32 := (v.wordToId.lookup w).getD unknownWordId

/-- `GetGramHashCount`. -/
def getGramHashCount (m : LangModel) (key : Bytes) : UInt32 :=
  let data := m.buckets.getD (phfHash m.perfectHash key) (0, 0)
  if data.1 = cityHash16 key then env.unpackInt32 data.2 else 0

def getGram1HashCount (m : LangModel) (w : UInt32) : UInt32 :=
  if w = unknownWordId then 0 else getGramHashCount env m (dumpKey1 w)

def getGram2HashCount (m : LangModel) (w₁ w₂ : UInt32) : UInt32 :=
  if w₁ = unknownWordId ∨ w₂ = unknownWordId then 0 else getGramHashCount env m (dumpKey2 (w₁, w₂))

def getGram3HashCount (m : LangModel) (w₁ w₂ w₃ : UInt32) : UInt32 :=
  if w₁ = unknownWordId ∨ w₂ = unknownWordId ∨ w₃ = unknownWordId then 0
  else getGramHashCount env m (dumpKey3 (w₁, w₂, w₃))

end

/-! ## The numbers of the words -/

/-- The words met so far, in the order in which they were met. -/
def meet (ws s : List WString) : List WString := s.foldl insertSet ws

/-- A word's number. -/
def numberOf (ws : List WString) (w : WString) : UInt32 := UInt32.ofNat (ws.idxOf w)

/-- The vocabulary numbers these words. -/
structure Vocab.Numbers (v : Vocab) (ws : List WString) : Prop where
  nodup : ws.Nodup
  words : v.wordToId.map Prod.fst = ws
  last : v.lastWordID = UInt32.ofNat ws.length
  number : ∀ w, v.wordToId.lookup w = if w ∈ ws then some (numberOf ws w) else none

section

variable {v : Vocab} {ws s : List WString} {w : WString}

theorem meet_append (s t : List WString) : meet ws (s ++ t) = meet (meet ws s) t := List.foldl_append

theorem prefix_meet (ws s : List WString) : ws <+: meet ws s := by
  induction s generalizing ws with
  | nil => exact List.prefix_rfl
  | cons w s ih =>
    refine List.IsPrefix.trans ?_ (ih (insertSet ws w))
    rw [insertSet]
    split_ifs
    · exact List.prefix_rfl
    · exact List.prefix_append _ _

theorem mem_meet : w ∈ meet ws s ↔ w ∈ ws ∨ w ∈ s := mem_foldl_insertSet

/-- A word keeps its number. -/
theorem numberOf_meet (h : w ∈ ws) : numberOf (meet ws s) w = numberOf ws w := by
  obtain ⟨t, ht⟩ := prefix_meet ws s
  rw [numberOf, ← ht, List.idxOf_append_of_mem h, numberOf]

theorem numbers_empty : Vocab.Numbers ⟨[], 0⟩ [] :=
  { nodup := List.nodup_nil
    words := rfl
    last := rfl
    number := fun _ => rfl }

/-- **One word**: it has its number then, and is met. -/
theorem Vocab.Numbers.getWordId (h : v.Numbers ws) (w : WString) :
    (getWordId v w).1.Numbers (insertSet ws w) ∧ (getWordId v w).2 = numberOf (insertSet ws w) w := by
  rw [Jamspell.getWordId, h.number, insertSet]
  split_ifs with hw
  · exact ⟨h, rfl⟩
  · have hlen : (ws ++ [w]).idxOf w = ws.length := by
      rw [List.idxOf_append_of_notMem hw]
      simp
    have hnew : numberOf (ws ++ [w]) w = v.lastWordID := by rw [numberOf, hlen, h.last]
    refine ⟨⟨?_, ?_, ?_, fun x => ?_⟩, hnew.symm⟩
    · exact List.Nodup.append h.nodup (List.nodup_singleton w) (List.disjoint_singleton.mpr hw)
    · rw [List.map_append, h.words]
      rfl
    · rw [List.length_append, h.last]
      exact (UInt32.ofNat_add _ _).symm
    · rw [List.lookup_append, h.number]
      by_cases hx : x ∈ ws
      · rw [if_pos hx, if_pos (List.mem_append_left _ hx), numberOf, numberOf, List.idxOf_append_of_mem hx]
        rfl
      · rw [if_neg hx]
        by_cases hxw : x = w
        · subst hxw
          rw [if_pos (List.mem_append_right _ (List.mem_singleton_self x)), hnew]
          simp
        · rw [if_neg (by simp [hx, hxw])]
          rw [List.lookup_cons, beq_false_of_ne hxw]
          rfl

theorem convertWords_cons (v : Vocab) (w : WString) (s : List WString) :
    convertWords v (w :: s) = ((convertWords (getWordId v w).1 s).1,
      (getWordId v w).2 :: (convertWords (getWordId v w).1 s).2) := rfl

theorem convertToIds_cons (v : Vocab) (s : List WString) (ss : List (List WString)) :
    convertToIds v (s :: ss) = ((convertToIds (convertWords v s).1 ss).1,
      (convertWords v s).2 :: (convertToIds (convertWords v s).1 ss).2) := rfl

/-- **The words of a sentence** become their numbers. -/
theorem Vocab.Numbers.convertWords (h : v.Numbers ws) (s : List WString) :
    (convertWords v s).1.Numbers (meet ws s) ∧ (convertWords v s).2 = s.map (numberOf (meet ws s)) := by
  induction s generalizing v ws with
  | nil => exact ⟨h, rfl⟩
  | cons w s ih =>
    obtain ⟨hv, hwid⟩ := h.getWordId w
    obtain ⟨hrest, hids⟩ := ih hv
    have hw : w ∈ meet ws [w] := mem_meet.mpr (Or.inr List.mem_cons_self)
    rw [convertWords_cons]
    refine ⟨hrest, ?_⟩
    rw [hids, hwid, List.map_cons]
    change w ∈ insertSet ws w at hw
    exact congrArg₂ List.cons (numberOf_meet hw).symm rfl

/-- **The words of a text** become their numbers. -/
theorem Vocab.Numbers.convertToIds (h : v.Numbers ws) (ss : List (List WString)) :
    (convertToIds v ss).1.Numbers (meet ws ss.flatten) ∧
      (convertToIds v ss).2 = ss.map (fun s => s.map (numberOf (meet ws ss.flatten))) := by
  induction ss generalizing v ws with
  | nil => exact ⟨h, rfl⟩
  | cons s ss ih =>
    obtain ⟨hv, hwids⟩ := h.convertWords s
    obtain ⟨hrest, hids⟩ := ih hv
    rw [List.flatten_cons, meet_append, convertToIds_cons]
    refine ⟨hrest, ?_⟩
    rw [hids, hwids, List.map_cons]
    have hkeep : s.map (numberOf (meet ws s)) = s.map (numberOf (meet (meet ws s) ss.flatten)) :=
      List.map_congr_left fun w hw => (numberOf_meet (mem_meet.mpr (Or.inr hw))).symm
    exact congrArg₂ List.cons hkeep rfl

theorem toNat_numberOf (hlen : ws.length < 2 ^ 32) (hw : w ∈ ws) : (numberOf ws w).toNat = ws.idxOf w := by
  rw [numberOf, UInt32.toNat_ofNat']
  exact Nat.mod_eq_of_lt ((List.idxOf_lt_length_of_mem hw).trans hlen)

/-- Words that are met have numbers of their own, unless there are too many. -/
theorem numberOf_inj {x : WString} (hlen : ws.length < 2 ^ 32) (hw : w ∈ ws) (hx : x ∈ ws)
    (h : numberOf ws w = numberOf ws x) : w = x := by
  have hidx : ws.idxOf w = ws.idxOf x := by rw [← toNat_numberOf hlen hw, ← toNat_numberOf hlen hx, h]
  exact (List.idxOf_inj hw).mp hidx

theorem numberOf_ne_unknown (hlen : ws.length < 2 ^ 32) (hw : w ∈ ws) : numberOf ws w ≠ unknownWordId := by
  intro h
  have hidx := toNat_numberOf hlen hw
  have hlt := List.idxOf_lt_length_of_mem hw
  have hmax : unknownWordId.toNat = 2 ^ 32 - 1 := rfl
  rw [h] at hidx
  omega

end

/-! ## The counts -/

section

variable {α : Type} [DecidableEq α]

theorem countGrams_concat (ks : List α) (k : α) : countGrams (ks ++ [k]) = addGram (countGrams ks) k := by
  rw [countGrams, List.foldl_append, List.foldl_cons, List.foldl_nil, countGrams]

theorem keys_addGram (m : List (α × UInt32)) (k : α) :
    (addGram m k).map Prod.fst = if k ∈ m.map Prod.fst then m.map Prod.fst else m.map Prod.fst ++ [k] := by
  rw [addGram]
  cases h : m.lookup k with
  | none =>
    rw [if_neg (lookup_eq_none_iff_keys.mp h), List.map_append]
    rfl
  | some c =>
    have hk : k ∈ m.map Prod.fst := by
      by_contra hk
      rw [lookup_eq_none_iff_keys.mpr hk] at h
      cases h
    rw [if_pos hk]
    show (m.map _).map Prod.fst = _
    rw [List.map_map]
    refine List.map_congr_left fun p _ => ?_
    show (if p.1 = k then (p.1, p.2 + 1) else p).1 = p.1
    split_ifs <;> rfl

/-- Every n-gram is counted under one key. -/
theorem keys_countGrams (ks : List α) :
    ((countGrams ks).map Prod.fst).Nodup ∧ ∀ k, k ∈ (countGrams ks).map Prod.fst ↔ k ∈ ks := by
  induction ks using List.reverseRecOn with
  | nil => exact ⟨List.nodup_nil, fun k => Iff.rfl⟩
  | append_singleton ks k ih =>
    obtain ⟨hnodup, hmem⟩ := ih
    rw [countGrams_concat, keys_addGram]
    split_ifs with hk
    · refine ⟨hnodup, fun x => ?_⟩
      rw [hmem, List.mem_append, List.mem_singleton]
      exact ⟨Or.inl, fun h => h.elim id fun h => h ▸ (hmem k).mp hk⟩
    · refine ⟨List.Nodup.append hnodup (List.nodup_singleton k) (List.disjoint_singleton.mpr hk), fun x => ?_⟩
      rw [List.mem_append, List.mem_append, hmem]

/-- **The counts** are the numbers of occurrences, in 32 bits. -/
theorem mem_countGrams {ks : List α} {p : α × UInt32} :
    p ∈ countGrams ks ↔ p.1 ∈ ks ∧ p.2 = UInt32.ofNat (ks.count p.1) := by
  induction ks using List.reverseRecOn generalizing p with
  | nil => simp [countGrams]
  | append_singleton ks k ih =>
    rw [countGrams_concat, addGram, List.count_append, List.count_singleton]
    cases h : (countGrams ks).lookup k with
    | none =>
      -- met for the first time: a new entry at the end
      have hk : k ∉ ks := fun hk => lookup_eq_none_iff_keys.mp h (((keys_countGrams ks).2 k).mpr hk)
      show p ∈ countGrams ks ++ [(k, 1)] ↔ _
      rw [List.mem_append, ih, List.mem_append, List.mem_singleton, List.mem_singleton]
      by_cases hp : p.1 = k
      · rw [hp, List.count_eq_zero.mpr hk]
        simp [hk, Prod.ext_iff, hp]
      · simp [hp, Prod.ext_iff, Ne.symm hp]
    | some c =>
      -- met again: the entry it has is raised in place
      have hk : k ∈ ks := by
        by_contra hk
        rw [lookup_eq_none_iff_keys.mpr fun hmem => hk (((keys_countGrams ks).2 k).mp hmem)] at h
        cases h
      show p ∈ (countGrams ks).map _ ↔ _
      rw [List.mem_map, List.mem_append, List.mem_singleton]
      constructor
      · rintro ⟨q, hq, rfl⟩
        obtain ⟨hmem, hcount⟩ := ih.mp hq
        by_cases hqk : q.1 = k
        · rw [if_pos hqk]
          refine ⟨Or.inl hmem, ?_⟩
          rw [hcount, if_pos (beq_iff_eq.mpr hqk.symm), UInt32.ofNat_add]
          rfl
        · rw [if_neg hqk, if_neg fun h => hqk (beq_iff_eq.mp h).symm]
          exact ⟨Or.inl hmem, hcount⟩
      · rintro ⟨hmem, hcount⟩
        have hp : p.1 ∈ ks := hmem.elim id fun h => h ▸ hk
        refine ⟨(p.1, UInt32.ofNat (ks.count p.1)), ih.mpr ⟨hp, rfl⟩, ?_⟩
        by_cases hpk : p.1 = k
        · rw [if_pos hpk]
          refine Prod.ext rfl ?_
          rw [hcount, if_pos (beq_iff_eq.mpr hpk.symm), UInt32.ofNat_add]
          rfl
        · rw [if_neg hpk]
          refine Prod.ext rfl ?_
          rw [hcount, if_neg fun h => hpk (beq_iff_eq.mp h).symm, Nat.add_zero]

/-- The same with another test for equality. -/
theorem mk_mem_countGrams [BEq α] [LawfulBEq α] {ks : List α} {k : α} (h : k ∈ ks) :
    (k, UInt32.ofNat (ks.count k)) ∈ countGrams ks := by
  refine mem_countGrams.mpr ⟨h, ?_⟩
  show UInt32.ofNat (ks.count k) = _
  congr
  exact lawful_beq_subsingleton _ _

end

/-! ## N-grams of words and of numbers -/

section

variable {α β : Type} {ws : List α}

theorem count_map_of_inj [BEq α] [LawfulBEq α] [BEq β] [LawfulBEq β] {f : α → β} {l : List α} {a : α}
    (hf : ∀ x ∈ l, f x = f a → x = a) : (l.map f).count (f a) = l.count a := by
  rw [List.count, List.countP_map, List.count]
  refine List.countP_congr fun x hx => ?_
  show (f x == f a) = true ↔ (x == a) = true
  rw [beq_iff_eq, beq_iff_eq]
  exact ⟨hf x hx, fun h => h ▸ rfl⟩

theorem ssize_eq {n : ℕ} (h : n < 2 ^ 31) : ssize n = n := by
  show Int.bmod n 4294967296 = n
  exact Int.bmod_eq_of_le (by omega) (by omega)

theorem grams2_eq (h : ws.length < 2 ^ 31) : grams2 ws = pairs ws := by
  rw [grams2, ssize_eq h, List.take_of_length_le]
  rw [pairs, List.length_zip, List.length_tail]
  omega

theorem grams3_eq (h : ws.length < 2 ^ 31) : grams3 ws = triples ws := by
  rw [grams3, ssize_eq h, List.take_of_length_le]
  simp only [triples, List.length_zip, List.length_tail]
  omega

theorem pairs_map (f : α → β) (ws : List α) : pairs (ws.map f) = (pairs ws).map (Prod.map f f) := by
  rw [pairs, ← List.map_tail, List.zip_map, pairs]

theorem triples_map (f : α → β) (ws : List α) :
    triples (ws.map f) = (triples ws).map (Prod.map f (Prod.map f f)) := by
  rw [triples, ← List.map_tail, ← List.map_tail, List.zip_map, List.zip_map, triples]

theorem mem_of_mem_pairs {p : α × α} (h : p ∈ pairs ws) : p.1 ∈ ws ∧ p.2 ∈ ws := by
  obtain ⟨h₁, h₂⟩ := List.of_mem_zip (a := p.1) (b := p.2) h
  exact ⟨h₁, List.mem_of_mem_tail h₂⟩

theorem mem_of_mem_triples {t : α × α × α} (h : t ∈ triples ws) : t.1 ∈ ws ∧ t.2.1 ∈ ws ∧ t.2.2 ∈ ws := by
  obtain ⟨h₁, h₂⟩ := List.of_mem_zip (a := t.1) (b := t.2) h
  obtain ⟨h₂, h₃⟩ := List.of_mem_zip (a := t.2.1) (b := t.2.2) h₂
  exact ⟨h₁, List.mem_of_mem_tail h₂, List.mem_of_mem_tail (List.mem_of_mem_tail h₃)⟩

end

/-! ## The slots -/

/-- Entries written to slots of their own stay. -/
theorem getD_foldl_set {γ δ : Type} (slot : γ → ℕ) (data : γ → δ) (d : δ) {l : List γ} {bs : List δ}
    (hslots : (l.map slot).Nodup) (hlt : ∀ g ∈ l, slot g < bs.length) :
    (∀ g ∈ l, (l.foldl (fun bs g => bs.set (slot g) (data g)) bs).getD (slot g) d = data g) ∧
      ∀ i ∉ l.map slot, (l.foldl (fun bs g => bs.set (slot g) (data g)) bs).getD i d = bs.getD i d := by
  induction l generalizing bs with
  | nil => exact ⟨fun g hg => absurd hg List.not_mem_nil, fun _ _ => rfl⟩
  | cons a l ih =>
    rw [List.map_cons, List.nodup_cons] at hslots
    obtain ⟨hin, hout⟩ := @ih (bs.set (slot a) (data a)) hslots.2 fun g hg => by
      rw [List.length_set]
      exact hlt g (List.mem_cons_of_mem a hg)
    refine ⟨fun g hg => ?_, fun i hi => ?_⟩
    · rw [List.foldl_cons]
      rcases List.mem_cons.mp hg with rfl | hg
      · rw [hout _ hslots.1, List.getD_eq_getElem?_getD, List.getElem?_set_self (hlt g List.mem_cons_self)]
        rfl
      · exact hin g hg
    · rw [List.map_cons, List.mem_cons, not_or] at hi
      rw [List.foldl_cons, hout i hi.2, List.getD_eq_getElem?_getD, List.getElem?_set_ne (Ne.symm hi.1),
        List.getD_eq_getElem?_getD]

section

variable {env : TrainEnv}

/-- **No slot is written twice**: every key reads back its own entry. -/
theorem initializeBuckets_slot {fuel : ℕ} {table : List (Bytes × UInt32)} {ph : Phf}
    (h : perfectHashInit env.qsort fuel (table.map Prod.fst) = some ph) {p : Bytes × UInt32} (hp : p ∈ table) :
    (initializeBuckets env ph table (List.replicate ph.m (0, 0))).getD (phfHash ph p.1) (0, 0) =
      (cityHash16 p.1, env.packInt32 p.2) := by
  rw [perfectHashInit] at h
  have hsound := phfInit_sound h
  obtain ⟨disp, hhash, hperfect⟩ := hsound.perfect
  have hnodup : (table.map (fun it => phfHash ph it.1)).Nodup := by
    have hmap : table.map (fun it => phfHash ph it.1) = (table.map Prod.fst).map (phfHash ph) := by
      rw [List.map_map]
      rfl
    rw [hmap, List.map_congr_left fun k _ => hhash k]
    exact hperfect
  have hlt : ∀ it ∈ table, phfHash ph it.1 < (List.replicate ph.m ((0 : UInt16), (0 : UInt16))).length := by
    intro it _
    rw [List.length_replicate, hhash, HashDisplace.place]
    exact phfFModM_lt hsound.pos _ _ _
  rw [initializeBuckets]
  generalize List.replicate ph.m ((0 : UInt16), (0 : UInt16)) = bs at hlt ⊢
  generalize phfHash ph = slot at hlt hnodup ⊢
  exact (getD_foldl_set (fun it => slot it.1) _ _ hnodup hlt).1 p hp

theorem mem_gramTable (env : TrainEnv) (ids : List (List UInt32)) :
    (∀ p ∈ countGrams ids.flatten, (dumpKey1 p.1, p.2) ∈ gramTable env ids) ∧
      (∀ p ∈ countGrams (ids.flatMap grams2), (dumpKey2 p.1, p.2) ∈ gramTable env ids) ∧
      ∀ p ∈ countGrams (ids.flatMap grams3), (dumpKey3 p.1, p.2) ∈ gramTable env ids := by
  have hwalk : ∀ {l : List (Bytes × UInt32)} {x}, x ∈ l → x ∈ env.walk l := (env.walk_perm _).mem_iff.mpr
  rw [gramTable]
  refine ⟨fun p hp => ?_, fun p hp => ?_, fun p hp => ?_⟩
  · exact List.mem_append_left _ (List.mem_append_left _ (hwalk (List.mem_map_of_mem hp)))
  · exact List.mem_append_left _ (List.mem_append_right _ (hwalk (List.mem_map_of_mem hp)))
  · exact List.mem_append_right _ (hwalk (List.mem_map_of_mem hp))

theorem length_packUint32 (x : UInt32) : (packUint32.dump x).length = 4 := Wire.length_leBytes 4 _

/-- The keys of n-grams of different order differ in length. -/
theorem length_dumpKey : (∀ w, (dumpKey1 w).length = 4) ∧ (∀ p, (dumpKey2 p).length = 8) ∧
    ∀ t, (dumpKey3 t).length = 12 := by
  refine ⟨fun w => length_packUint32 w, fun p => ?_, fun t => ?_⟩
  · show (packUint32.dump p.1 ++ packUint32.dump p.2).length = 8
    rw [List.length_append, length_packUint32, length_packUint32]
  · rw [dumpKey3, List.length_append, List.length_append, length_packUint32, length_packUint32,
      length_packUint32]

/-- Different n-grams have different keys. -/
theorem dumpKey_injective : Function.Injective dumpKey1 ∧ Function.Injective dumpKey2 ∧
    Function.Injective dumpKey3 := by
  refine ⟨fun a b h => ?_, fun a b h => ?_, fun a b h => ?_⟩
  · exact (packUint32_carries a).dump_inj (packUint32_carries b) h
  · exact (Wire.Carries.pair (packUint32_carries a.1) (packUint32_carries a.2)).dump_inj
      (Wire.Carries.pair (packUint32_carries b.1) (packUint32_carries b.2)) h
  · rw [dumpKey3, dumpKey3, List.append_assoc, List.append_assoc] at h
    obtain ⟨h₃, h⟩ := (packUint32_carries _).append_inj (packUint32_carries _) h
    obtain ⟨h₂, h⟩ := (packUint32_carries _).append_inj (packUint32_carries _) h
    have h₁ := (packUint32_carries _).dump_inj (packUint32_carries _) h
    exact Prod.ext h₁ (Prod.ext h₂ h₃)

theorem keys_walk_nodup {α : Type} [DecidableEq α] {dumpKey : α → Bytes} (hinj : Function.Injective dumpKey)
    (ks : List α) : ((env.walk ((countGrams ks).map (fun p => (dumpKey p.1, p.2)))).map Prod.fst).Nodup := by
  rw [((env.walk_perm _).map Prod.fst).nodup_iff, List.map_map]
  have hcomp : (countGrams ks).map (Prod.fst ∘ fun p => (dumpKey p.1, p.2)) =
      ((countGrams ks).map Prod.fst).map dumpKey := by
    rw [List.map_map]
    rfl
  rw [hcomp]
  exact (keys_countGrams ks).1.map hinj

theorem length_of_mem_walk {α : Type} [DecidableEq α] {dumpKey : α → Bytes} {n : ℕ}
    (hlen : ∀ a, (dumpKey a).length = n) {ks : List α} {k : Bytes}
    (hk : k ∈ (env.walk ((countGrams ks).map (fun p => (dumpKey p.1, p.2)))).map Prod.fst) : k.length = n := by
  rw [((env.walk_perm _).map Prod.fst).mem_iff] at hk
  obtain ⟨q, hq, rfl⟩ := List.mem_map.mp hk
  obtain ⟨p, -, rfl⟩ := List.mem_map.mp hq
  exact hlen p.1

/-- **The keys of a text are all different**: `Init`, which would never place equal keys, gets none. -/
theorem gramTable_keys_nodup (env : TrainEnv) (ids : List (List UInt32)) :
    ((gramTable env ids).map Prod.fst).Nodup := by
  obtain ⟨hinj1, hinj2, hinj3⟩ := dumpKey_injective
  obtain ⟨hlen1, hlen2, hlen3⟩ := length_dumpKey
  rw [gramTable, List.map_append, List.map_append]
  refine List.Nodup.append (List.Nodup.append (keys_walk_nodup hinj1 _) (keys_walk_nodup hinj2 _) ?_)
    (keys_walk_nodup hinj3 _) ?_
  · intro k h₁ h₂
    have := length_of_mem_walk hlen1 h₁
    have := length_of_mem_walk hlen2 h₂
    omega
  · intro k h h₃
    have := length_of_mem_walk hlen3 h₃
    rcases List.mem_append.mp h with h | h
    · have := length_of_mem_walk hlen1 h
      omega
    · have := length_of_mem_walk hlen2 h
      omega

/-- What training leaves. -/
theorem trainSentences_eq_some {alphabet : List UInt32} {sentences : List (List WString)} {m : LangModel}
    (h : trainSentences env alphabet sentences = some m) :
    let ids := (convertToIds ⟨[], 0⟩ sentences).2
    m.vocab = (convertToIds ⟨[], 0⟩ sentences).1 ∧ m.alphabet = alphabet ∧
      perfectHashInit env.qsort env.fuel ((gramTable env ids).map Prod.fst) = some m.perfectHash ∧
      m.buckets = initializeBuckets env m.perfectHash (gramTable env ids) (List.replicate m.perfectHash.m (0, 0)) := by
  intro ids
  rw [trainSentences] at h
  change (perfectHashInit env.qsort env.fuel ((gramTable env ids).map Prod.fst) >>= _) = _ at h
  rw [Option.bind_eq_bind, Option.bind_eq_some_iff] at h
  obtain ⟨ph, hph, hm⟩ := h
  cases hm
  exact ⟨rfl, rfl, hph, rfl⟩

/-- The counts of the table are read back. -/
theorem getGramHashCount_table {alphabet : List UInt32} {sentences : List (List WString)} {m : LangModel}
    (h : trainSentences env alphabet sentences = some m) {p : Bytes × UInt32}
    (hp : p ∈ gramTable env (convertToIds ⟨[], 0⟩ sentences).2) :
    getGramHashCount env m p.1 = env.unpackInt32 (env.packInt32 p.2) := by
  obtain ⟨-, -, hph, hbuckets⟩ := trainSentences_eq_some h
  rw [getGramHashCount, hbuckets, initializeBuckets_slot hph hp, if_pos rfl]

/-- The words of a text and their numbers. -/
theorem numbers_train (sentences : List (List WString)) :
    (convertToIds ⟨[], 0⟩ sentences).1.Numbers (meet [] sentences.flatten) ∧
      (∀ w, w ∈ meet [] sentences.flatten ↔ w ∈ sentences.flatten) ∧
      (meet [] sentences.flatten).length ≤ sentences.flatten.length := by
  have hnum := (numbers_empty.convertToIds sentences).1
  have hmem : ∀ w, w ∈ meet [] sentences.flatten ↔ w ∈ sentences.flatten := fun w => by
    rw [mem_meet, or_iff_right List.not_mem_nil]
  exact ⟨hnum, hmem, (List.subperm_of_subset hnum.nodup fun w hw => (hmem w).mp hw).length_le⟩

/-- The text that a model was trained on. -/
theorem train_eq_some {env : TrainEnv} {file alphabetString : Bytes} {m : LangModel}
    (h : train env file alphabetString = some m) :
    loadAlphabet env.locale (env.utf8ToWide alphabetString) = some m.alphabet ∧
      trainSentences env m.alphabet (sentencesOf env.locale m.alphabet (env.utf8ToWide file)) = some m := by
  rw [train, Option.bind_eq_bind, Option.bind_eq_some_iff] at h
  obtain ⟨alphabet, halphabet, h⟩ := h
  simp only at h
  split_ifs at h
  rw [(trainSentences_eq_some h).2.1]
  exact ⟨halphabet, h⟩

/-- What a count comes back as. -/
def countBack (env : TrainEnv) (n : ℕ) : UInt32 := env.unpackInt32 (env.packInt32 (UInt32.ofNat n))

section

variable {sentences : List (List WString)}

/-- The n-grams of the numbers are the numbers of the n-grams. -/
theorem flatMap_grams (f : WString → UInt32) (hlen : sentences.flatten.length < 2 ^ 31) :
    (sentences.map (fun s => s.map f)).flatMap grams2 = (sentences.flatMap pairs).map (Prod.map f f) ∧
      (sentences.map (fun s => s.map f)).flatMap grams3 =
        (sentences.flatMap triples).map (Prod.map f (Prod.map f f)) := by
  have hs : ∀ s ∈ sentences, (s.map f).length < 2 ^ 31 := by
    intro s hs
    rw [List.length_map]
    exact (List.sublist_flatten_of_mem hs).length_le.trans_lt hlen
  rw [List.flatMap_map, List.flatMap_map, List.map_flatMap, List.map_flatMap]
  refine ⟨List.flatMap_congr fun s h => ?_, List.flatMap_congr fun s h => ?_⟩
  · rw [grams2_eq (hs s h), pairs_map]
  · rw [grams3_eq (hs s h), triples_map]

theorem mem_flatten_of_pairs {p : WString × WString} (h : p ∈ sentences.flatMap pairs) :
    p.1 ∈ sentences.flatten ∧ p.2 ∈ sentences.flatten := by
  obtain ⟨s, hs, hp⟩ := List.mem_flatMap.mp h
  obtain ⟨h₁, h₂⟩ := mem_of_mem_pairs hp
  exact ⟨List.mem_flatten_of_mem hs h₁, List.mem_flatten_of_mem hs h₂⟩

theorem mem_flatten_of_triples {t : WString × WString × WString} (h : t ∈ sentences.flatMap triples) :
    t.1 ∈ sentences.flatten ∧ t.2.1 ∈ sentences.flatten ∧ t.2.2 ∈ sentences.flatten := by
  obtain ⟨s, hs, ht⟩ := List.mem_flatMap.mp h
  obtain ⟨h₁, h₂, h₃⟩ := mem_of_mem_triples ht
  exact ⟨List.mem_flatten_of_mem hs h₁, List.mem_flatten_of_mem hs h₂, List.mem_flatten_of_mem hs h₃⟩

/-- There are no more words than letters, and none is longer than the text. -/
theorem length_sentencesOf (loc : Locale) (alphabet : List UInt32) (text : WString) :
    (sentencesOf loc alphabet text).flatten.length ≤ text.length ∧
      ∀ w ∈ (sentencesOf loc alphabet text).flatten, w.length ≤ text.length := by
  have hlower : (toLower loc text).length = text.length := List.length_map _
  rw [sentencesOf, ← List.map_flatten]
  constructor
  · rw [List.length_map, ← hlower]
    exact length_process_le _ _ _
  · intro w hw
    obtain ⟨t, -, rfl⟩ := List.mem_map.mp hw
    rw [← hlower, TWord.text, List.length_take, List.length_drop]
    omega

/-- The words of a text are written in the alphabet. -/
theorem mem_alphabet_of_mem_word {loc : Locale} {alphabet : List UInt32} {text w : WString}
    (hw : w ∈ (sentencesOf loc alphabet text).flatten) : w ≠ [] ∧ ∀ a ∈ w, a ∈ alphabet := by
  rw [sentencesOf, ← List.map_flatten, List.mem_map] at hw
  obtain ⟨t, ht, rfl⟩ := hw
  obtain ⟨ws, hprocess, hclosed, -⟩ := process_words loc alphabet (toLower loc text)
  rw [hprocess, List.flatten_splitBy, hclosed] at ht
  obtain ⟨hrun, hstop⟩ := ht
  have hlt := hrun.lt
  have hlen : ((toLower loc text).drop t.ptr).length = (toLower loc text).length - t.ptr := List.length_drop
  rw [TWord.stop] at hstop hlt
  constructor
  · intro hnil
    have := congrArg List.length hnil
    rw [TWord.text, List.length_take, hlen, List.length_nil] at this
    omega
  · intro a ha
    obtain ⟨k, hk, rfl⟩ := List.mem_iff_getElem.mp ha
    rw [TWord.text, List.length_take, hlen] at hk
    obtain ⟨c, hc, hletter⟩ := hrun.all (t.ptr + k) (Nat.le_add_right _ _) (by rw [TWord.stop]; omega)
    have hget : (t.text (toLower loc text))[k] = c := by
      simp only [TWord.text, List.getElem_take, List.getElem_drop]
      exact (List.getElem?_eq_some_iff.mp hc).2
    rw [hget]
    -- the letter is in lower case already
    obtain ⟨b, -, rfl⟩ := List.mem_map.mp (List.mem_of_getElem? hc)
    rwa [loc.tolower_tolower] at hletter

/-- Training gives every word of the sentences a number of its own, which reads back the count of each
    n-gram of numbers in the table. -/
theorem wordIds_train {env : TrainEnv} {alphabet : List UInt32} {sentences : List (List WString)} {m : LangModel}
    (h : trainSentences env alphabet sentences = some m) (hlen : sentences.flatten.length < 2 ^ 31) :
    ∃ f : WString → UInt32,
      (∀ w, getWordIdNoCreate m.vocab w = if w ∈ sentences.flatten then f w else unknownWordId) ∧
      (∀ w ∈ sentences.flatten, ∀ x ∈ sentences.flatten, f x = f w → x = w) ∧
      (∀ w ∈ sentences.flatten, f w ≠ unknownWordId) ∧
      ∀ p ∈ gramTable env (sentences.map (fun s => s.map f)),
        getGramHashCount env m p.1 = env.unpackInt32 (env.packInt32 p.2) := by
  have hvocab := (trainSentences_eq_some h).1
  obtain ⟨hnum, hmem, hle⟩ := numbers_train sentences
  have hsize : (meet [] sentences.flatten).length < 2 ^ 32 := by omega
  refine ⟨numberOf (meet [] sentences.flatten), ?_, ?_, ?_, ?_⟩
  · intro w
    rw [getWordIdNoCreate, hvocab, hnum.number]
    simp only [hmem]
    split_ifs <;> rfl
  · intro w hw x hx heq
    exact numberOf_inj hsize ((hmem x).mpr hx) ((hmem w).mpr hw) heq
  · intro w hw
    exact numberOf_ne_unknown hsize ((hmem w).mpr hw)
  · intro p hp
    rw [← (numbers_empty.convertToIds sentences).2] at hp
    exact getGramHashCount_table h hp

/-- **The trained model knows its text**: words, pairs and triples of the text read back the number of
    times they occur in it, as far as the rounding keeps it; other words are unknown. -/
theorem train_counts {file alphabetString : Bytes} {m : LangModel} (h : train env file alphabetString = some m)
    (hlen : (env.utf8ToWide file).length < 2 ^ 31) :
    let sentences := sentencesOf env.locale m.alphabet (env.utf8ToWide file)
    let wid := getWordIdNoCreate m.vocab
    (∀ w ∈ sentences.flatten, getGram1HashCount env m (wid w) = countBack env (sentences.flatten.count w)) ∧
      (∀ p ∈ sentences.flatMap pairs, getGram2HashCount env m (wid p.1) (wid p.2) =
        countBack env ((sentences.flatMap pairs).count p)) ∧
      (∀ t ∈ sentences.flatMap triples, getGram3HashCount env m (wid t.1) (wid t.2.1) (wid t.2.2) =
        countBack env ((sentences.flatMap triples).count t)) ∧
      ∀ w, wid w = unknownWordId ↔ w ∉ sentences.flatten := by
  have htrain := (train_eq_some h).2
  replace hlen := (length_sentencesOf env.locale m.alphabet (env.utf8ToWide file)).1.trans_lt hlen
  generalize sentencesOf env.locale m.alphabet (env.utf8ToWide file) = sentences at hlen htrain
  -- words that were met have different numbers, so a number is counted as often as its word
  obtain ⟨f, hwid, hinj, hknown, hread⟩ := wordIds_train htrain hlen
  obtain ⟨hgrams2, hgrams3⟩ := flatMap_grams f hlen
  -- the table has the counts of the numbers
  obtain ⟨htab1, htab2, htab3⟩ := mem_gramTable env (sentences.map (fun s => s.map f))
  rw [hgrams2] at htab2
  rw [hgrams3] at htab3
  rw [← List.map_flatten] at htab1
  intro sentences wid
  refine ⟨fun w hw => ?_, fun p hp => ?_, fun t ht => ?_, fun w => ?_⟩
  · show getGram1HashCount env m (getWordIdNoCreate m.vocab w) = _
    have hentry := htab1 _ (mk_mem_countGrams (List.mem_map_of_mem hw))
    rw [hwid, if_pos hw, getGram1HashCount, if_neg (hknown w hw)]
    refine (hread _ hentry).trans ?_
    rw [countBack, count_map_of_inj (hinj w hw)]
  · obtain ⟨h₁, h₂⟩ := mem_flatten_of_pairs hp
    show getGram2HashCount env m (getWordIdNoCreate m.vocab p.1) (getWordIdNoCreate m.vocab p.2) = _
    have hentry := htab2 _ (mk_mem_countGrams (List.mem_map_of_mem hp))
    have hpair : ∀ q ∈ sentences.flatMap pairs, Prod.map f f q = Prod.map f f p → q = p := by
      intro q hq heq
      obtain ⟨hq₁, hq₂⟩ := mem_flatten_of_pairs hq
      exact Prod.ext (hinj _ h₁ _ hq₁ (Prod.mk.inj heq).1) (hinj _ h₂ _ hq₂ (Prod.mk.inj heq).2)
    rw [hwid, hwid, if_pos h₁, if_pos h₂, getGram2HashCount, if_neg (not_or.mpr ⟨hknown _ h₁, hknown _ h₂⟩)]
    refine (hread _ hentry).trans ?_
    rw [countBack, count_map_of_inj hpair]
  · obtain ⟨h₁, h₂, h₃⟩ := mem_flatten_of_triples ht
    show getGram3HashCount env m (getWordIdNoCreate m.vocab t.1) (getWordIdNoCreate m.vocab t.2.1)
      (getWordIdNoCreate m.vocab t.2.2) = _
    have hentry := htab3 _ (mk_mem_countGrams (List.mem_map_of_mem ht))
    have htriple : ∀ q ∈ sentences.flatMap triples,
        Prod.map f (Prod.map f f) q = Prod.map f (Prod.map f f) t → q = t := by
      intro q hq heq
      obtain ⟨hq₁, hq₂, hq₃⟩ := mem_flatten_of_triples hq
      obtain ⟨heq₁, heq⟩ := Prod.mk.inj heq
      obtain ⟨heq₂, heq₃⟩ := Prod.mk.inj heq
      exact Prod.ext (hinj _ h₁ _ hq₁ heq₁) (Prod.ext (hinj _ h₂ _ hq₂ heq₂) (hinj _ h₃ _ hq₃ heq₃))
    rw [hwid, hwid, hwid, if_pos h₁, if_pos h₂, if_pos h₃, getGram3HashCount,
      if_neg (not_or.mpr ⟨hknown _ h₁, not_or.mpr ⟨hknown _ h₂, hknown _ h₃⟩⟩)]
    refine (hread _ hentry).trans ?_
    rw [countBack, count_map_of_inj htriple]
  · show getWordIdNoCreate m.vocab w = _ ↔ _
    rw [hwid]
    split_ifs with hw
    · exact iff_of_false (hknown w hw) (not_not.mpr hw)
    · exact iff_of_true rfl hw

end

end

/-! ## A text of four words -/

/-- The greatest number of so many bits above `k` with a fifth power of at most `x`. -/
def fifthRoot (x : ℕ) : ℕ → ℕ → ℕ
  | 0, k => k
  | bits + 1, k => fifthRoot x bits (if (k + 2 ^ bits) ^ 5 ≤ x then k + 2 ^ bits else k)

/-- The roundings of counts without errors of floating point. -/
def sampleEnv : TrainEnv where
  locale := asciiLocale
  utf8ToWide := fun s => s.map UInt8.toUInt32
  qsort := insertionQsort
  fuel := 200
  trainStarTime := 1600000000000
  packInt32 n := UInt16.ofNat (fifthRoot (n.toNat * 2 ^ 52) 16 0)
  unpackInt32 n := UInt32.ofNat ((n.toNat ^ 5 + (2 ^ 52 - 1)) / 2 ^ 52)
  walk l := l
  walk_perm _ := List.Perm.refl _

def sampleModel : LangModel where
  vocab := ⟨[([97], 0), ([98], 1)], 2⟩
  totalWords := 4
  vocabSize := 2
  perfectHash := ⟨false, 42, 2, 7, [10, 2], 10, 5⟩
  buckets := [(14739, 1351), (8464, 1552), (0, 0), (10662, 1351), (50024, 1351), (20167, 1552), (2881, 1552)]
  alphabet := [98, 97]
  checkSum := 4952353055674506166

/-- `A b a, B` over the letters `bA`: two words twice each. -/
def sampleText : Bytes := [65, 32, 98, 32, 97, 44, 32, 66]

theorem train_sampleText : train sampleEnv sampleText [98, 65] = some sampleModel := by decide +kernel

/-- Two words twice each, `ab` twice and `ba` once. -/
theorem train_counts_abab :
    getGram1HashCount sampleEnv sampleModel (getWordIdNoCreate sampleModel.vocab [97]) = 2 ∧
      getGram2HashCount sampleEnv sampleModel (getWordIdNoCreate sampleModel.vocab [98])
        (getWordIdNoCreate sampleModel.vocab [97]) = 1 := by
  obtain ⟨h₁, h₂, -⟩ := train_counts train_sampleText (by decide +kernel)
  exact ⟨(h₁ [97] (by decide +kernel)).trans (by decide +kernel),
    (h₂ ([98], [97]) (by decide +kernel)).trans (by decide +kernel)⟩

end Zapdos.Jamspell
