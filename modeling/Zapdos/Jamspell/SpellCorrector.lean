/-
  `TSpellCorrector` — words near a word, and the two files of a corrector.

  A known word is near when it and the word have a common part that lacks at most two letters of each.
  The corrector deletes up to two letters of the word and inserts up to two again, but only where a
  filter says that some known word leads there by deletions.

  THE CRUX.  The filters are filled with every deletion of every known word (`Cached`), and what they
  tell too much leads to no known word: `Edits` finds exactly the near words (`mem_edits`).

  The encoder to UTF-8 is a parameter.
-/
import Zapdos.Jamspell.BloomFilter
import Zapdos.Jamspell.ModelFile
import Zapdos.Lib.Edits

namespace Zapdos.Jamspell

open Zapdos.Lib Zapdos.Store

/-- What the corrector calls and is not modelled. -/
structure SpellEnv where
  train : TrainEnv
  walks : Walks
  bloom : BloomEnv
  wideToUTF8 : WString → Bytes
  /-- the bits of `0.001` -/
  falsePositiveProb : UInt64

/-- `TSpellCorrector`, as far as candidates go. -/
structure SpellCorrector where
  langModel : LangModel
  deletes1 : BloomFilter
  deletes2 : BloomFilter

/-- `GetDeletes1`. -/
def getDeletes1 (w : WString) : List WString := (erasures w).filter (fun nw => nw ≠ [])

/-- `GetDeletes2`: each word with one letter less comes behind those with two letters less. -/
def getDeletes2 (w : WString) : List (List WString) :=
  ((erasures w).filter (fun nw => nw ≠ [])).map (fun nw => getDeletes1 nw ++ [nw])

/-- `GetWord` finds a word, and it has letters. -/
def knownWord (m : LangModel) (w : WString) : Bool := (m.vocab.wordToId.lookup w).isSome && w ≠ []

section

variable (env : SpellEnv)

/-! ## Candidates -/

section

variable (sc : SpellCorrector)

/-- `Inserts`. -/
def inserts (w : WString) : List WString := (insertions sc.langModel.alphabet w).filter (knownWord sc.langModel)

/-- `Inserts2`. -/
def inserts2 (w : WString) : List WString :=
  (insertions sc.langModel.alphabet w).flatMap
    (fun s => if sc.deletes1.contains (env.wideToUTF8 s) then inserts sc s else [])

/-- The candidates behind one deletion. -/
def editsFrom (w : WString) : List WString :=
  (if knownWord sc.langModel w then [w] else [])
    ++ (if sc.deletes1.contains (env.wideToUTF8 w) then inserts sc w else [])
    ++ (if sc.deletes2.contains (env.wideToUTF8 w) then inserts2 env sc w else [])

/-- `Edits`. -/
def edits (w : WString) : List WString :=
  (getDeletes2 w ++ [[w]]).flatMap (fun w1 => w1.flatMap (editsFrom env sc))

end

/-- A word is pushed when it is known; below the last level its own edits follow. -/
def found (m : LangModel) (deeper : WString → List WString) (s : WString) : List WString :=
  (if knownWord m s then [s] else []) ++ deeper s

/-- The loop of `Edits2`: a deletion, a transposition, replacements and insertions at each position. -/
def edits2Loop (m : LangModel) (deeper : WString → List WString) (w : WString) : List WString :=
  (List.range (w.length + 1)).flatMap (fun i =>
    (if i < w.length then found m deeper (w.take i ++ w.drop (i + 1)) else [])
    ++ (if i + 1 < w.length then
          found m deeper (w.take i ++ (w.drop (i + 1)).take 1 ++ (w.drop i).take 1
            ++ if i + 2 < w.length then w.drop (i + 2) else [])
        else [])
    ++ (if i < w.length then m.alphabet.flatMap (fun ch => found m deeper (w.take i ++ ch :: w.drop (i + 1))) else [])
    ++ m.alphabet.flatMap (fun ch => found m deeper (w.take i ++ ch :: w.drop i)))

/-- `Edits2`; the candidates come from the last level. -/
def edits2 (m : LangModel) (lastLevel : Bool) (w : WString) : List WString :=
  if lastLevel then edits2Loop m (fun _ => []) w else edits2Loop m (edits2Loop m (fun _ => [])) w

/-! ## The cache -/

/-- `PrepareCache`; the average is taken over the first 3001 words. -/
def prepareCache (m : LangModel) : SpellCorrector :=
  let wordToId := env.walks.words m.vocab.wordToId
  let seen := wordToId.take 3001
  let s := (seen.map (fun it => it.1.length)).sum
  let avgWordLen := s / seen.length + 1
  let avgWordLenMinusOne := max 1 (avgWordLen - 1)
  let deletes1size := max 1000 (UInt64.ofNat (wordToId.length * avgWordLen))
  let deletes2size := UInt64.ofNat (wordToId.length * avgWordLen * avgWordLenMinusOne)
  let deletes := wordToId.flatMap (fun it => getDeletes2 it.1)
  { langModel := m
    deletes1 := (deletes.map (fun w1 => env.wideToUTF8 (w1.getLastD []))).foldl BloomFilter.insert
      (newBloomFilter env.bloom deletes1size env.falsePositiveProb)
    deletes2 := (deletes.flatMap (fun w1 => w1.dropLast.map env.wideToUTF8)).foldl BloomFilter.insert
      (newBloomFilter env.bloom deletes2size env.falsePositiveProb) }

def spellCheckerCacheMagicByte : UInt64 := 3811558393781437494
def spellCheckerCacheVersion : UInt16 := 1

/-- `SaveCache`. -/
def saveCache (sc : SpellCorrector) : Bytes :=
  packUint64.dump spellCheckerCacheMagicByte ++ packUint16.dump spellCheckerCacheVersion
    ++ packUint64.dump sc.langModel.checkSum ++ packBloomFilter.dump sc.deletes1
    ++ packBloomFilter.dump sc.deletes2 ++ packUint64.dump spellCheckerCacheMagicByte

/-- `LoadCache`. -/
def loadCache (m : LangModel) (file : Bytes) : Option SpellCorrector := do
  let (magicByte, file) ← packUint64.load file
  if magicByte ≠ spellCheckerCacheMagicByte then none
  else do
    let (version, file) ← packUint16.load file
    if version ≠ spellCheckerCacheVersion then none
    else do
      let (checkSum, file) ← packUint64.load file
      if checkSum ≠ m.checkSum then none
      else do
        let (deletes1, file) ← packBloomFilter.load file
        let (deletes2, file) ← packBloomFilter.load file
        let (magicByte, _) ← packUint64.load file
        if magicByte ≠ spellCheckerCacheMagicByte then none
        else return ⟨m, deletes1, deletes2⟩

/-- `TrainLangModel`: the corrector, the model file and the cache file. -/
def trainLangModel (textFile alphabetString : Bytes) : Option (SpellCorrector × Bytes × Bytes) := do
  let m ← train env.train textFile alphabetString
  let sc := prepareCache env m
  return (sc, dumpModel env.walks m, saveCache sc)

/-- `LoadLangModel`: a cache that is not there or not of this model is made again. -/
def loadLangModel (modelFile : Bytes) (cacheFile : Option Bytes) : Option SpellCorrector := do
  let l ← loadModel modelFile
  match cacheFile.bind (loadCache l.model) with
  | some sc => return sc
  | none => return prepareCache env l.model

end

/-! ## What the candidates are -/

section

variable {env : SpellEnv} {sc : SpellCorrector} {u v w : WString}

/-- The words have a common part that lacks at most two letters of each. -/
def Near (w v : WString) : Prop :=
  ∃ u : WString, u ≠ [] ∧ u.Sublist w ∧ u.Sublist v ∧ w.length ≤ u.length + 2 ∧ v.length ≤ u.length + 2

/-- The filters know the deletions of the known words. -/
structure Cached (env : SpellEnv) (sc : SpellCorrector) : Prop where
  one : ∀ v, knownWord sc.langModel v = true → ∀ u ∈ erasures v, u ≠ [] →
    sc.deletes1.contains (env.wideToUTF8 u) = true
  two : ∀ v, knownWord sc.langModel v = true → ∀ s ∈ erasures v, s ≠ [] → ∀ u ∈ erasures s, u ≠ [] →
    sc.deletes2.contains (env.wideToUTF8 u) = true

/-- Known words have letters of the alphabet only. -/
def Spelled (m : LangModel) : Prop := ∀ v, knownWord m v = true → ∀ a ∈ v, a ∈ m.alphabet

theorem mem_getDeletes1 : u ∈ getDeletes1 w ↔ u ≠ [] ∧ u.Sublist w ∧ w.length = u.length + 1 := by
  rw [getDeletes1, List.mem_filter, mem_erasures, decide_eq_true_eq, and_comm]

/-- The words with at most two letters less. -/
theorem mem_cands : (∃ w1 ∈ getDeletes2 w ++ [[w]], u ∈ w1) ↔
    u = w ∨ u ≠ [] ∧ u.Sublist w ∧ u.length < w.length ∧ w.length ≤ u.length + 2 := by
  rw [getDeletes2]
  constructor
  · rintro ⟨w1, hw1, hu⟩
    rcases List.mem_append.mp hw1 with hw1 | hw1
    · right
      obtain ⟨nw, hnw, rfl⟩ := List.mem_map.mp hw1
      obtain ⟨hne, hsub, hlen⟩ := mem_getDeletes1.mp hnw
      rcases List.mem_append.mp hu with hu | hu
      · obtain ⟨hne', hsub', hlen'⟩ := mem_getDeletes1.mp hu
        exact ⟨hne', hsub'.trans hsub, by omega, by omega⟩
      · rw [List.mem_singleton.mp hu]
        exact ⟨hne, hsub, by omega, by omega⟩
    · rw [List.mem_singleton.mp hw1] at hu
      exact Or.inl (List.mem_singleton.mp hu)
  · rintro (rfl | ⟨hne, hsub, hlt, hle⟩)
    · exact ⟨[u], List.mem_append_right _ (List.mem_singleton_self _), List.mem_singleton_self _⟩
    · -- one letter less than the word, and the candidate itself or one letter less again
      by_cases hone : w.length = u.length + 1
      · exact ⟨_, List.mem_append_left _ (List.mem_map_of_mem (mem_getDeletes1.mpr ⟨hne, hsub, hone⟩)),
          List.mem_append_right _ (List.mem_singleton_self _)⟩
      · obtain ⟨s, hus, hsw, hs⟩ := Sublist.exists_between hsub hlt
        have hsne : s ≠ [] := by
          rintro rfl
          cases hs
        exact ⟨_, List.mem_append_left _ (List.mem_map_of_mem (mem_getDeletes1.mpr ⟨hsne, hsw, by omega⟩)),
          List.mem_append_left _ (mem_getDeletes1.mpr ⟨hne, hus, hs⟩)⟩

/-- The known words with at most two letters more, whatever else the filters let through. -/
theorem mem_editsFrom (hc : Cached env sc) (hs : Spelled sc.langModel) (hu : u ≠ []) :
    v ∈ editsFrom env sc u ↔
      knownWord sc.langModel v = true ∧ u.Sublist v ∧ v.length ≤ u.length + 2 := by
  rw [editsFrom, List.mem_append, List.mem_append]
  constructor
  · rintro ((h | h) | h)
    · -- the word itself
      split_ifs at h with hknown
      · rw [List.mem_singleton.mp h]
        exact ⟨hknown, List.Sublist.refl u, Nat.le_add_right _ _⟩
      · cases h
    · -- one letter more, where a filter knows the word
      split_ifs at h
      · obtain ⟨hins, hknown⟩ := List.mem_filter.mp h
        obtain ⟨hsub, hlen⟩ := sublist_of_mem_insertions hins
        exact ⟨hknown, hsub, by omega⟩
      · cases h
    · -- two letters more
      split_ifs at h
      · obtain ⟨s, hins, hv⟩ := List.mem_flatMap.mp h
        split_ifs at hv
        · obtain ⟨hins', hknown⟩ := List.mem_filter.mp hv
          obtain ⟨hsub, hlen⟩ := sublist_of_mem_insertions hins
          obtain ⟨hsub', hlen'⟩ := sublist_of_mem_insertions hins'
          exact ⟨hknown, hsub.trans hsub', by omega⟩
        · cases hv
      · cases h
  · rintro ⟨hknown, hsub, hle⟩
    have hlen := hsub.length_le
    have hletters := hs v hknown
    rcases Nat.lt_or_ge u.length v.length with hlt | hge
    · rcases Nat.lt_or_ge (u.length + 1) v.length with hlt' | hge
      · -- two letters more: over a word that the first filter knows
        obtain ⟨s, hus, hsv, hslen⟩ := Sublist.exists_between hsub hlt
        have hsne : s ≠ [] := by
          rintro rfl
          cases hslen
        have hse : s ∈ erasures v := mem_erasures.mpr ⟨hsv, by omega⟩
        have hue : u ∈ erasures s := mem_erasures.mpr ⟨hus, hslen⟩
        right
        rw [if_pos (hc.two v hknown s hse hsne u hue hu), inserts2, List.mem_flatMap]
        refine ⟨s, (mem_insertions fun a ha => hletters a (hsv.mem ha)).mpr ⟨hus, hslen⟩, ?_⟩
        rw [if_pos (hc.one v hknown s hse hsne)]
        exact List.mem_filter.mpr ⟨(mem_insertions hletters).mpr ⟨hsv, by omega⟩, hknown⟩
      · left
        right
        have hlen1 : v.length = u.length + 1 := by omega
        rw [if_pos (hc.one v hknown u (mem_erasures.mpr ⟨hsub, hlen1⟩) hu)]
        exact List.mem_filter.mpr ⟨(mem_insertions hletters).mpr ⟨hsub, hlen1⟩, hknown⟩
    · left
      left
      have heq : u = v := hsub.eq_of_length (by omega)
      rw [heq, if_pos hknown]
      exact List.mem_singleton_self v

/-- **`Edits` finds the known words that are near**, and no others. -/
theorem mem_edits_iff (hc : Cached env sc) (hs : Spelled sc.langModel) (hw : w ≠ []) :
    v ∈ edits env sc w ↔ knownWord sc.langModel v = true ∧ Near w v := by
  rw [edits, List.mem_flatMap]
  constructor
  · rintro ⟨w1, hw1, hv⟩
    obtain ⟨u, hu, hv⟩ := List.mem_flatMap.mp hv
    have hcand := mem_cands.mp ⟨w1, hw1, hu⟩
    have hu' : u ≠ [] ∧ u.Sublist w ∧ w.length ≤ u.length + 2 := by
      rcases hcand with rfl | ⟨hne, hsub, -, hle⟩
      · exact ⟨hw, List.Sublist.refl u, Nat.le_add_right _ _⟩
      · exact ⟨hne, hsub, hle⟩
    obtain ⟨hknown, hsub, hle⟩ := (mem_editsFrom hc hs hu'.1).mp hv
    exact ⟨hknown, u, hu'.1, hu'.2.1, hsub, hu'.2.2, hle⟩
  · rintro ⟨hknown, u, hne, huw, huv, hlew, hlev⟩
    have hcand : ∃ w1 ∈ getDeletes2 w ++ [[w]], u ∈ w1 := by
      refine mem_cands.mpr ?_
      by_cases hlen : u.length < w.length
      · exact Or.inr ⟨hne, huw, hlen, hlew⟩
      · exact Or.inl (huw.eq_of_length (by have := huw.length_le; omega))
    obtain ⟨w1, hw1, hu⟩ := hcand
    exact ⟨w1, hw1, List.mem_flatMap.mpr ⟨u, hu, (mem_editsFrom hc hs hne).mpr ⟨hknown, huv, hlev⟩⟩⟩

theorem mem_found {m : LangModel} {x : WString} : v ∈ found m (fun _ => []) x ↔ knownWord m x = true ∧ v = x := by
  rw [found, List.append_nil]
  split_ifs with h
  · rw [List.mem_singleton]
    exact (and_iff_right h).symm
  · exact iff_of_false List.not_mem_nil fun hx => h hx.1

/-- The transposition, cut out of the word letter by letter. -/
theorem transposed (p s : WString) (a b : UInt32) :
    (p ++ a :: b :: s).take p.length ++ ((p ++ a :: b :: s).drop (p.length + 1)).take 1
      ++ ((p ++ a :: b :: s).drop p.length).take 1
      ++ (if p.length + 2 < (p ++ a :: b :: s).length then (p ++ a :: b :: s).drop (p.length + 2) else []) =
    p ++ b :: a :: s := by
  have hone : (p ++ a :: b :: s).drop (p.length + 1) = b :: s := by
    rw [List.drop_append]
    simp
  have htwo : (p ++ a :: b :: s).drop (p.length + 2) = s := by
    rw [List.drop_append]
    simp
  rw [List.take_left, List.drop_left, hone, htwo]
  cases s with
  | nil => simp
  | cons c s => simp

/-- **`Edits2` finds the known words one edit away**, and no others. -/
theorem mem_edits2_iff {m : LangModel} (hs : Spelled m) :
    v ∈ edits2 m true w ↔ knownWord m v = true ∧ OneEdit w v := by
  rw [edits2, if_pos rfl, edits2Loop, List.mem_flatMap]
  constructor
  · rintro ⟨i, hi, h⟩
    rw [List.mem_append, List.mem_append, List.mem_append] at h
    rcases h with ((h | h) | h) | h
    · -- a letter left out
      split_ifs at h with hlt
      · obtain ⟨hknown, rfl⟩ := mem_found.mp h
        refine ⟨hknown, ?_⟩
        nth_rewrite 1 [eq_take_cons_drop hlt]
        exact OneEdit.delete _ _ _
      · cases h
    · -- two letters exchanged
      by_cases hlt : i + 1 < w.length
      · obtain ⟨p, s, a, b, rfl, rfl⟩ := exists_two hlt
        rw [if_pos hlt, transposed] at h
        obtain ⟨hknown, rfl⟩ := mem_found.mp h
        exact ⟨hknown, OneEdit.transpose _ _ _ _⟩
      · rw [if_neg hlt] at h
        cases h
    · -- a letter replaced
      split_ifs at h with hlt
      · obtain ⟨ch, -, h⟩ := List.mem_flatMap.mp h
        obtain ⟨hknown, rfl⟩ := mem_found.mp h
        refine ⟨hknown, ?_⟩
        nth_rewrite 1 [eq_take_cons_drop hlt]
        exact OneEdit.replace _ _ _ _
      · cases h
    · -- a letter put in
      obtain ⟨ch, -, h⟩ := List.mem_flatMap.mp h
      obtain ⟨hknown, rfl⟩ := mem_found.mp h
      refine ⟨hknown, ?_⟩
      nth_rewrite 1 [← List.take_append_drop i w]
      exact OneEdit.insert _ _ _
  · rintro ⟨hknown, hedit⟩
    have hletters := hs v hknown
    have hrange : ∀ p t : WString, p.length ∈ List.range ((p ++ t).length + 1) := fun p t => by
      rw [List.mem_range, List.length_append]
      omega
    cases hedit with
    | delete p s a =>
      refine ⟨p.length, hrange _ _, ?_⟩
      simp [mem_found, hknown]
    | insert p s a =>
      have ha : a ∈ m.alphabet := hletters a (by simp)
      refine ⟨p.length, hrange _ _, List.mem_append_right _ (List.mem_flatMap.mpr ⟨a, ha, mem_found.mpr ?_⟩)⟩
      rw [List.take_left, List.drop_left]
      exact ⟨hknown, rfl⟩
    | replace p s a b =>
      have hb : b ∈ m.alphabet := hletters b (by simp)
      refine ⟨p.length, hrange _ _, ?_⟩
      simp [mem_found, hknown, hb]
    | transpose p s a b =>
      refine ⟨p.length, hrange _ _, List.mem_append_left _ (List.mem_append_left _ (List.mem_append_right _ ?_))⟩
      rw [if_pos (by simp), transposed]
      exact mem_found.mpr ⟨hknown, rfl⟩

/-! ## Correctors that were trained or loaded -/

theorem knownWord_iff {m : LangModel} :
    knownWord m v = true ↔ v ∈ m.vocab.wordToId.map Prod.fst ∧ v ≠ [] := by
  rw [knownWord, Bool.and_eq_true, decide_eq_true_eq, Option.isSome_iff_ne_none, ne_eq,
    lookup_eq_none_iff_keys, not_not]

/-- **The cache is filled** with all deletions. -/
theorem cached_prepareCache (env : SpellEnv) (m : LangModel) : Cached env (prepareCache env m) := by
  have hwalk : ∀ v, knownWord m v = true → ∀ w1 ∈ getDeletes2 v,
      w1 ∈ (env.walks.words m.vocab.wordToId).flatMap (fun it => getDeletes2 it.1) := by
    intro v hv w1 hw1
    obtain ⟨it, hit, rfl⟩ := List.mem_map.mp (knownWord_iff.mp hv).1
    exact List.mem_flatMap.mpr ⟨it, (env.walks.words_perm _).mem_iff.mpr hit, hw1⟩
  have hlevel : ∀ v, ∀ s ∈ erasures v, s ≠ [] → getDeletes1 s ++ [s] ∈ getDeletes2 v := fun v s hs hne =>
    List.mem_map_of_mem (List.mem_filter.mpr ⟨hs, decide_eq_true hne⟩)
  constructor
  · intro v hv u hu hne
    refine ((sized_new env.bloom _ _).foldl_insert _).2.2 _ (List.mem_map.mpr ⟨_, hwalk v hv _ (hlevel v u hu hne), ?_⟩)
    rw [List.getLastD_concat]
  · intro v hv s hs hsne u hu hne
    refine ((sized_new env.bloom _ _).foldl_insert _).2.2 _
      (List.mem_flatMap.mpr ⟨_, hwalk v hv _ (hlevel v s hs hsne), ?_⟩)
    rw [List.dropLast_concat]
    exact List.mem_map_of_mem (List.mem_filter.mpr ⟨hu, decide_eq_true hne⟩)

theorem salts_prepareCache (env : SpellEnv) (m : LangModel) :
    (prepareCache env m).deletes1.salt.length < 2 ^ 32 ∧ (prepareCache env m).deletes2.salt.length < 2 ^ 32 :=
  ⟨((sized_new env.bloom _ _).foldl_insert _).1.salts, ((sized_new env.bloom _ _).foldl_insert _).1.salts⟩

/-- **The cache file comes back**, for a model with the same check sum. -/
theorem loadCache_saveCache {m : LangModel} (hsum : m.checkSum = sc.langModel.checkSum)
    (h1 : packBloomFilter.Carries sc.deletes1) (h2 : packBloomFilter.Carries sc.deletes2) :
    loadCache m (saveCache sc) = some ⟨m, sc.deletes1, sc.deletes2⟩ := by
  rw [loadCache, saveCache]
  simp only [List.append_assoc]
  rw [packUint64_carries]
  simp only [Option.bind_eq_bind, Option.bind_some, ne_eq, not_true_eq_false, if_false]
  rw [packUint16_carries]
  simp only [Option.bind_some, not_true_eq_false, if_false]
  rw [packUint64_carries]
  simp only [Option.bind_some, hsum, not_true_eq_false, if_false]
  rw [h1]
  simp only [Option.bind_some]
  rw [h2]
  simp only [Option.bind_some]
  have hlast := packUint64_carries spellCheckerCacheMagicByte []
  rw [List.append_nil] at hlast
  rw [hlast]
  rfl

/-- A trained model knows the words of its text. -/
theorem known_train {env : TrainEnv} {file alphabetString : Bytes} {m : LangModel}
    (h : train env file alphabetString = some m) :
    (∀ v, knownWord m v = true ↔ v ∈ (sentencesOf env.locale m.alphabet (env.utf8ToWide file)).flatten) ∧
      Spelled m := by
  have hwords : ∀ w ∈ (sentencesOf env.locale m.alphabet (env.utf8ToWide file)).flatten,
      w ≠ [] ∧ ∀ a ∈ w, a ∈ m.alphabet := fun w hw => mem_alphabet_of_mem_word hw
  have htrain := (train_eq_some h).2
  generalize sentencesOf env.locale m.alphabet (env.utf8ToWide file) = sentences at htrain hwords
  obtain ⟨hnum, hmem, -⟩ := numbers_train sentences
  rw [← (trainSentences_eq_some htrain).1] at hnum
  have hknown : ∀ v, knownWord m v = true ↔ v ∈ sentences.flatten := fun v => by
    rw [knownWord_iff, hnum.words, hmem]
    exact and_iff_left_of_imp fun hv => (hwords v hv).1
  exact ⟨hknown, fun v hv => (hwords v ((hknown v).mp hv)).2⟩

/-- The order of the containers does not matter. -/
theorem knownWord_walked (m : LangModel) (walks : Walks) (v : WString) :
    knownWord (m.walked walks) v = true ↔ knownWord m v = true := by
  rw [knownWord_iff, knownWord_iff]
  exact and_congr_left' ((walks.words_perm m.vocab.wordToId).map Prod.fst).mem_iff

theorem Spelled.walked {m : LangModel} (h : Spelled m) (walks : Walks) : Spelled (m.walked walks) :=
  fun v hv a ha => (walks.letters_perm m.alphabet).mem_iff.mpr (h v ((knownWord_walked m walks v).mp hv) a ha)

/-- **A corrector finds the words of its text that are near**: the one that was trained, and the one
    that is loaded from its files, with the cache or without. -/
theorem mem_edits {textFile alphabetString modelFile cacheFile : Bytes}
    (h : trainLangModel env textFile alphabetString = some (sc, modelFile, cacheFile))
    (hfile : (env.train.utf8ToWide textFile).length < 2 ^ 31)
    (halphabet : (env.train.utf8ToWide alphabetString).length < 2 ^ 32)
    (htable : sc.deletes1.bitTable.length < 2 ^ 32 ∧ sc.deletes2.bitTable.length < 2 ^ 32)
    {cache : Option Bytes} (hcache : cache = none ∨ cache = some cacheFile) :
    let words := (sentencesOf env.train.locale sc.langModel.alphabet (env.train.utf8ToWide textFile)).flatten
    ∃ sc', loadLangModel env modelFile cache = some sc' ∧
      ∀ w ≠ [], ∀ v, (v ∈ edits env sc w ↔ v ∈ words ∧ Near w v) ∧ (v ∈ edits env sc' w ↔ v ∈ words ∧ Near w v) := by
  rw [trainLangModel, Option.bind_eq_bind, Option.bind_eq_some_iff] at h
  obtain ⟨m, htrain, h⟩ := h
  cases h
  intro words
  obtain ⟨hknown, hspelled⟩ := known_train htrain
  obtain ⟨hstorable, -⟩ := storable_train htrain hfile halphabet
  obtain ⟨hsalt1, hsalt2⟩ := salts_prepareCache env m
  have hedits : ∀ sc' : SpellCorrector, Cached env sc' → Spelled sc'.langModel →
      (∀ v, knownWord sc'.langModel v = true ↔ knownWord m v = true) →
      ∀ w ≠ [], ∀ v, v ∈ edits env sc' w ↔ v ∈ words ∧ Near w v := by
    intro sc' hc hs hiff w hw v
    rw [mem_edits_iff hc hs hw, hiff, hknown]
    rfl
  have hwalked : ∀ sc' : SpellCorrector, sc'.langModel = m.walked env.walks → Cached env sc' →
      ∀ w ≠ [], ∀ v, v ∈ edits env sc' w ↔ v ∈ words ∧ Near w v := by
    intro sc' hm hc
    exact hedits sc' hc (hm ▸ hspelled.walked env.walks) fun v => by rw [hm]; exact knownWord_walked m env.walks v
  have htrained := hedits (prepareCache env m) (cached_prepareCache env m) hspelled fun v => Iff.rfl
  rw [loadLangModel, loadModel_dumpModel hstorable env.walks]
  rcases hcache with rfl | rfl
  · refine ⟨_, rfl, fun w hw v => ⟨htrained w hw v, ?_⟩⟩
    exact hwalked _ rfl (cached_prepareCache env (m.walked env.walks)) w hw v
  · have hload : loadCache (m.walked env.walks) (saveCache (prepareCache env m)) =
        some ⟨m.walked env.walks, (prepareCache env m).deletes1, (prepareCache env m).deletes2⟩ :=
      loadCache_saveCache rfl (packBloomFilter_carries hsalt1 htable.1) (packBloomFilter_carries hsalt2 htable.2)
    refine ⟨⟨m.walked env.walks, (prepareCache env m).deletes1, (prepareCache env m).deletes2⟩, ?_,
      fun w hw v => ⟨htrained w hw v, hwalked _ rfl ⟨fun v hv => ?_, fun v hv => ?_⟩ w hw v⟩⟩
    · simp only [Option.bind_eq_bind, Option.bind_some, hload]
      rfl
    · exact (cached_prepareCache env m).one v ((knownWord_walked m env.walks v).mp hv)
    · exact (cached_prepareCache env m).two v ((knownWord_walked m env.walks v).mp hv)

end

/-- The parameters for 1000 strings and for 4, one false positive in 1000, and the salts of the seed 42. -/
def sampleBloomEnv : BloomEnv where
  optimal n := if n = 1000 then (10, 14384) else (10, 64)
  salts n := List.take n.toNat [0xA4A4A48B, 0x0B0B0AF1, 0x74DB418E, 0xCF02354F, 0x0F0F0EF5, 0xC6F9C6E0, 0x01C47922,
    0x93571ACC, 0xD920D918, 0x76E9625D]
  table_pos n _ := by split <;> decide
  table_bytes n _ := by split <;> decide
  salts_zero := rfl
  salts_length n := by
    rw [List.length_take]
    exact (Nat.min_le_right _ _).trans_lt (by decide)

def sampleSpellEnv : SpellEnv where
  train := sampleEnv
  walks := backWalks
  bloom := sampleBloomEnv
  wideToUTF8 w := w.map UInt32.toUInt8
  falsePositiveProb := 0x3F50624DD2F1A9FC

theorem trainLangModel_sampleText : trainLangModel sampleSpellEnv sampleText [98, 65] =
    some (prepareCache sampleSpellEnv sampleModel, dumpModel backWalks sampleModel,
      saveCache (prepareCache sampleSpellEnv sampleModel)) := by
  have htrain : train sampleSpellEnv.train sampleText [98, 65] = some sampleModel := train_sampleText
  rw [trainLangModel, htrain]
  rfl

/-- Of the words of the text `a` is near `ac`, and `b` is not. -/
theorem mem_edits_ac : ∃ sc, loadLangModel sampleSpellEnv (dumpModel backWalks sampleModel)
      (some (saveCache (prepareCache sampleSpellEnv sampleModel))) = some sc ∧
    [97] ∈ edits sampleSpellEnv sc [97, 99] ∧ [98] ∉ edits sampleSpellEnv sc [97, 99] := by
  obtain ⟨sc, hload, hedits⟩ := mem_edits trainLangModel_sampleText (by decide +kernel) (by decide +kernel)
    (by decide +kernel) (Or.inr rfl)
  refine ⟨sc, hload, (hedits [97, 99] (by decide) [97]).2.mpr ⟨by decide +kernel, [97], by decide⟩, fun h => ?_⟩
  obtain ⟨-, u, hne, hac, hb, -⟩ := (hedits [97, 99] (by decide) [98]).2.mp h
  obtain ⟨x, hx⟩ := List.exists_mem_of_ne_nil u hne
  have hxb : x = 98 := List.mem_singleton.mp (hb.mem hx)
  rw [hxb] at hx
  exact absurd (hac.mem hx) (by decide)

end Zapdos.Jamspell
