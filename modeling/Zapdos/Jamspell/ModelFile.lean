/-
  The model file — what `TLangModel::Dump` writes, `TLangModel::Load` reads.

  Two magic numbers and a version stand around the fields.  The words by their numbers are not in the
  file; they are put together again from the numbers by the words.

  THE CRUX.  The hash maps are written in whatever order they are walked (`Walks`), and come back in
  that order: the model that is loaded is another permutation of the model that was written, and what
  it answers does not depend on that (`lookup_perm`).  Sizes are written in 32 bits; a model that was
  trained keeps to them (`storable_train`).
-/
import Zapdos.Jamspell.LangModel

namespace Zapdos.Jamspell

open Zapdos.Lib Zapdos.Store

/-! ## The format -/

def langModelMagicByte : UInt64 := 8559322735408079685
def langModelVersion : UInt16 := 9

/-- `TPerfectHash::Dump` and `Load`: the displacement map has no size of its own. -/
def packPhf : Wire Phf :=
  ((packSize.pair (packUint32.pair (packSize.pair (packSize.pair (packUint32.pair packBool))))).dep
      (fun head => Wire.many head.2.2.2.1 packUint32)).via
    (fun p => ((p.dMax, p.gOp, p.m, p.r, p.seed, p.nodiv), p.g))
    (fun f => let (dMax, gOp, m, r, seed, nodiv) := f.1
      ⟨nodiv, seed, r, m, f.2, dMax, gOp⟩)

/-- `HANDYPACK(WordToId, LastWordID, TotalWords, VocabSize, PerfectHash, Buckets, Tokenizer, CheckSum)`. -/
def packModel : Wire LangModel :=
  ((packMap packWString packUint32).pair (packUint32.pair (packUint32.pair (packUint32.pair (packPhf.pair
      ((packVector (packPair packUint16 packUint16)).pair ((packSet packUint32).pair packUint64))))))).via
    (fun m => (m.vocab.wordToId, m.vocab.lastWordID, m.totalWords, m.vocabSize, m.perfectHash, m.buckets,
      m.alphabet, m.checkSum))
    (fun f => let (wordToId, lastWordID, totalWords, vocabSize, perfectHash, buckets, alphabet, checkSum) := f
      ⟨⟨wordToId, lastWordID⟩, totalWords, vocabSize, perfectHash, buckets, alphabet, checkSum⟩)

/-- The orders in which the hash containers are walked. -/
structure Walks where
  words : List (WString × UInt32) → List (WString × UInt32)
  letters : List UInt32 → List UInt32
  words_perm : ∀ l, (words l).Perm l
  letters_perm : ∀ l, (letters l).Perm l

/-- The model in the order in which it is walked. -/
def LangModel.walked (m : LangModel) (walks : Walks) : LangModel :=
  { m with vocab := { m.vocab with wordToId := walks.words m.vocab.wordToId }
           alphabet := walks.letters m.alphabet }

/-- `Dump`. -/
def dumpModel (walks : Walks) (m : LangModel) : Bytes :=
  packUint64.dump langModelMagicByte ++ packUint16.dump langModelVersion ++ packModel.dump (m.walked walks)
    ++ packUint64.dump langModelMagicByte

/-- A model that was loaded, with `IdToWord`. -/
structure Loaded where
  model : LangModel
  idToWord : List (Option WString)

/-- `IdToWord[it.second] = &it.first`. -/
def idToWordOf (v : Vocab) : List (Option WString) :=
  v.wordToId.foldl (fun idToWord it => idToWord.set it.2.toNat (some it.1))
    (List.replicate (v.wordToId.length + 1) none)

/-- `Load`. -/
def loadModel (file : Bytes) : Option Loaded := do
  let (magicByte, file) ← packUint64.load file
  if magicByte ≠ langModelMagicByte then none
  else do
    let (version, file) ← packUint16.load file
    if version ≠ langModelVersion then none
    else do
      let (m, file) ← packModel.load file
      let (magicByte, _) ← packUint64.load file
      if magicByte ≠ langModelMagicByte then none
      else return ⟨m, idToWordOf m.vocab⟩

/-- `GetWordById`. -/
def getWordById (l : Loaded) (wid : UInt32) : Option WString := l.idToWord.getD wid.toNat none

/-! ## What the format carries -/

/-- The sizes of the hash fit their fields. -/
structure Phf.Storable (p : Phf) : Prop where
  dMax : p.dMax < 2 ^ 64
  m : p.m < 2 ^ 64
  r : p.r < 2 ^ 64
  g : p.g.length = p.r

/-- The sizes of the model fit their fields, and a word has one number. -/
structure LangModel.Storable (m : LangModel) : Prop where
  words : m.vocab.wordToId.length < 2 ^ 32
  nodup : (m.vocab.wordToId.map Prod.fst).Nodup
  lengths : ∀ p ∈ m.vocab.wordToId, p.1.length < 2 ^ 32
  hash : m.perfectHash.Storable
  buckets : m.buckets.length < 2 ^ 32
  letters : m.alphabet.length < 2 ^ 32
  alphabet : m.alphabet.Nodup

theorem packPhf_carries {p : Phf} (h : p.Storable) : packPhf.Carries p := by
  refine Wire.Carries.via (Wire.Carries.dep ?_ (Wire.Carries.many h.g fun d _ => packUint32_carries d)) rfl
  exact (packSize_carries h.dMax).pair ((packUint32_carries _).pair ((packSize_carries h.m).pair
    ((packSize_carries h.r).pair ((packUint32_carries _).pair (packBool_carries _)))))

theorem packModel_carries {m : LangModel} (h : m.Storable) : packModel.Carries m := by
  have hwords : (packMap packWString packUint32).Carries m.vocab.wordToId :=
    packMap_carries h.words h.nodup fun p hp => ⟨packWString_carries (h.lengths p hp), packUint32_carries _⟩
  have hbuckets : (packVector (packPair packUint16 packUint16)).Carries m.buckets :=
    packVector_carries h.buckets fun p _ => (packUint16_carries p.1).pair (packUint16_carries p.2)
  have halphabet : (packSet packUint32).Carries m.alphabet :=
    packSet_carries h.letters h.alphabet fun c _ => packUint32_carries c
  refine Wire.Carries.via ?_ rfl
  exact hwords.pair ((packUint32_carries _).pair ((packUint32_carries _).pair ((packUint32_carries _).pair
    ((packPhf_carries h.hash).pair (hbuckets.pair (halphabet.pair (packUint64_carries _)))))))

/-- The order of the containers does not matter. -/
theorem LangModel.Storable.walked {m : LangModel} (h : m.Storable) (walks : Walks) : (m.walked walks).Storable :=
  { words := (walks.words_perm _).length_eq.trans_lt h.words
    nodup := ((walks.words_perm _).map Prod.fst).nodup_iff.mpr h.nodup
    lengths := fun p hp => h.lengths p ((walks.words_perm _).mem_iff.mp hp)
    hash := h.hash
    buckets := h.buckets
    letters := (walks.letters_perm _).length_eq.trans_lt h.letters
    alphabet := (walks.letters_perm _).nodup_iff.mpr h.alphabet }

/-- **The file comes back**, in the order in which it was written. -/
theorem loadModel_dumpModel {m : LangModel} (h : m.Storable) (walks : Walks) :
    loadModel (dumpModel walks m) = some ⟨m.walked walks, idToWordOf (m.walked walks).vocab⟩ := by
  rw [loadModel, dumpModel, List.append_assoc, List.append_assoc, packUint64_carries]
  simp only [Option.bind_eq_bind, Option.bind_some, ne_eq, not_true_eq_false, if_false]
  rw [packUint16_carries]
  simp only [Option.bind_some, not_true_eq_false, if_false]
  rw [packModel_carries (h.walked walks)]
  simp only [Option.bind_some]
  have hlast := packUint64_carries langModelMagicByte []
  rw [List.append_nil] at hlast
  rw [hlast]
  rfl

/-! ## What a loaded model answers -/

section

variable {v : Vocab} {ws : List WString}

/-- Every word has a number of its own, below the number of words. -/
structure Vocab.Dense (v : Vocab) : Prop where
  nodup : (v.wordToId.map (fun it => it.2.toNat)).Nodup
  lt : ∀ it ∈ v.wordToId, it.2.toNat < v.wordToId.length

theorem Vocab.Numbers.entries (h : v.Numbers ws) : v.wordToId = ws.map (fun w => (w, numberOf ws w)) := by
  have hkeys : (v.wordToId.map Prod.fst).Nodup := h.words ▸ h.nodup
  have hentry : ∀ it ∈ v.wordToId, (it.1, numberOf ws it.1) = it := by
    intro it hit
    have hmem : it.1 ∈ ws := h.words ▸ List.mem_map_of_mem hit
    have hlookup := (mem_iff_lookup hkeys).mp (show (it.1, it.2) ∈ v.wordToId from hit)
    rw [h.number, if_pos hmem] at hlookup
    exact Prod.ext rfl (Option.some.inj hlookup)
  rw [← h.words, List.map_map]
  conv_lhs => rw [← List.map_id v.wordToId]
  refine List.map_congr_left fun it hit => ?_
  rw [h.words]
  exact (hentry it hit).symm

theorem Vocab.Numbers.dense (h : v.Numbers ws) (hlen : ws.length < 2 ^ 32) : v.Dense := by
  refine ⟨?_, ?_⟩
  · rw [h.entries, List.map_map]
    refine h.nodup.map_on fun w hw x hx heq => ?_
    exact numberOf_inj hlen hw hx (UInt32.toNat_inj.mp heq)
  · rw [h.entries, List.length_map]
    intro it hit
    obtain ⟨w, hw, rfl⟩ := List.mem_map.mp hit
    rw [toNat_numberOf hlen hw]
    exact List.idxOf_lt_length_of_mem hw

theorem Vocab.Dense.perm (h : v.Dense) {wordToId : List (WString × UInt32)} (hp : wordToId.Perm v.wordToId) :
    Vocab.Dense ⟨wordToId, v.lastWordID⟩ :=
  { nodup := (hp.map _).nodup_iff.mpr h.nodup
    lt := fun it hit => (h.lt it (hp.mem_iff.mp hit)).trans_eq hp.length_eq.symm }

/-- Every word is found by its number. -/
theorem Vocab.Dense.getD_idToWordOf (h : v.Dense) {it : WString × UInt32} (hit : it ∈ v.wordToId) :
    (idToWordOf v).getD it.2.toNat none = some it.1 := by
  have hlt : ∀ it ∈ v.wordToId,
      it.2.toNat < (List.replicate (v.wordToId.length + 1) (none : Option WString)).length := by
    intro it hit
    rw [List.length_replicate]
    exact Nat.lt_succ_of_lt (h.lt it hit)
  exact (getD_foldl_set (fun it : WString × UInt32 => it.2.toNat) (fun it => some it.1) none h.nodup hlt).1 it hit

end

section

variable {env : TrainEnv} {file alphabetString : Bytes} {m : LangModel}

theorem loadAlphabet_nodup {loc : Locale} {wdata : WString} {alphabet : List UInt32}
    (h : loadAlphabet loc wdata = some alphabet) : alphabet.Nodup ∧ alphabet.length ≤ wdata.length := by
  rw [loadAlphabet] at h
  split_ifs at h with hempty
  simp only at h
  split_ifs at h
  cases h
  obtain ⟨hnodup, hlen⟩ := foldl_insertSet_nodup List.nodup_nil
    ((toLower loc wdata).filter (fun c => c ≠ 10 ∧ c ≠ 13))
  have hfilter := List.length_filter_le (fun c : UInt32 => decide (c ≠ 10 ∧ c ≠ 13)) (toLower loc wdata)
  rw [toLower, List.length_map] at hfilter
  rw [List.length_nil, Nat.zero_add] at hlen
  exact ⟨hnodup, hlen.trans hfilter⟩

theorem length_initializeBuckets (ph : Phf) (table : List (Bytes × UInt32)) (buckets : List (UInt16 × UInt16)) :
    (initializeBuckets env ph table buckets).length = buckets.length := by
  rw [initializeBuckets]
  induction table generalizing buckets with
  | nil => rfl
  | cons it table ih => rw [List.foldl_cons, ih, List.length_set]

/-- **A trained model can be stored**, and numbers its words densely. -/
theorem storable_train (h : train env file alphabetString = some m)
    (hfile : (env.utf8ToWide file).length < 2 ^ 31)
    (halphabet : (env.utf8ToWide alphabetString).length < 2 ^ 32) : m.Storable ∧ m.vocab.Dense := by
  obtain ⟨hload, htrain⟩ := train_eq_some h
  obtain ⟨hcount, hword⟩ := length_sentencesOf env.locale m.alphabet (env.utf8ToWide file)
  generalize sentencesOf env.locale m.alphabet (env.utf8ToWide file) = sentences at htrain hcount hword
  obtain ⟨hvocab, -, hph, hbuckets⟩ := trainSentences_eq_some htrain
  obtain ⟨hnum, hmem, hle⟩ := numbers_train sentences
  rw [← hvocab] at hnum
  have hwords : m.vocab.wordToId.length < 2 ^ 32 := by
    rw [← List.length_map (f := Prod.fst), hnum.words]
    omega
  have hlengths : ∀ p ∈ m.vocab.wordToId, p.1.length < 2 ^ 32 := by
    intro p hp
    have hp' : p.1 ∈ sentences.flatten := (hmem p.1).mp (hnum.words ▸ List.mem_map_of_mem hp)
    have := hword p.1 hp'
    omega
  rw [perfectHashInit] at hph
  have hsound := phfInit_sound hph
  have hr := hsound.r_le
  have hm := hsound.m_le
  have hdMax := hsound.dMax_lt
  have hslots : m.buckets.length < 2 ^ 32 := by
    rw [hbuckets, length_initializeBuckets, List.length_replicate]
    omega
  obtain ⟨hnodup, hletters⟩ := loadAlphabet_nodup hload
  exact ⟨{ words := hwords
           nodup := hnum.words ▸ hnum.nodup
           lengths := hlengths
           hash := ⟨by omega, by omega, by omega, hsound.size⟩
           buckets := hslots
           letters := hletters.trans_lt halphabet
           alphabet := hnodup }, hnum.dense (by omega)⟩

/-- **What was trained is what is loaded**: the file of a trained model is read, whatever order its
    containers were written in, and the model that comes back answers as the one before; every word
    is found by its number. -/
theorem load_dump_train (walks : Walks) (h : train env file alphabetString = some m)
    (hfile : (env.utf8ToWide file).length < 2 ^ 31)
    (halphabet : (env.utf8ToWide alphabetString).length < 2 ^ 32) :
    ∃ l, loadModel (dumpModel walks m) = some l ∧
      (∀ w, getWordIdNoCreate l.model.vocab w = getWordIdNoCreate m.vocab w) ∧
      (∀ w ∈ m.vocab.wordToId.map Prod.fst, getWordById l (getWordIdNoCreate l.model.vocab w) = some w) ∧
      (∀ key, getGramHashCount env l.model key = getGramHashCount env m key) ∧
      (l.model.totalWords, l.model.vocabSize, l.model.checkSum) = (m.totalWords, m.vocabSize, m.checkSum) ∧
      ∀ c, c ∈ l.model.alphabet ↔ c ∈ m.alphabet := by
  obtain ⟨hstorable, hdense⟩ := storable_train h hfile halphabet
  have hperm := walks.words_perm m.vocab.wordToId
  have hlookup : ∀ w, getWordIdNoCreate (m.walked walks).vocab w = getWordIdNoCreate m.vocab w := by
    intro w
    rw [getWordIdNoCreate, getWordIdNoCreate]
    exact congrArg (fun wid => wid.getD unknownWordId) (lookup_perm hperm hstorable.nodup w)
  refine ⟨_, loadModel_dumpModel hstorable walks, hlookup, fun w hw => ?_, fun key => rfl, rfl,
    fun c => (walks.letters_perm m.alphabet).mem_iff⟩
  obtain ⟨it, hit, rfl⟩ := List.mem_map.mp hw
  have hfound : m.vocab.wordToId.lookup it.1 = some it.2 := (mem_iff_lookup hstorable.nodup).mp hit
  rw [hlookup, getWordIdNoCreate, hfound]
  have hit' : it ∈ walks.words m.vocab.wordToId := hperm.mem_iff.mpr hit
  exact (hdense.perm hperm).getD_idToWordOf hit'

end

/-- Containers that are walked from the last element to the first. -/
def backWalks : Walks where
  words := List.reverse
  letters := List.reverse
  words_perm := List.reverse_perm
  letters_perm := List.reverse_perm

/-- The second word of the sample text. -/
theorem load_dump_train_sample :
    ∃ l, loadModel (dumpModel backWalks sampleModel) = some l ∧ getWordById l 1 = some [98] := by
  obtain ⟨l, hload, hwid, hword, -⟩ :=
    load_dump_train backWalks train_sampleText (by decide +kernel) (by decide +kernel)
  have hb : getWordIdNoCreate l.model.vocab [98] = 1 := (hwid [98]).trans (by decide +kernel)
  refine ⟨l, hload, ?_⟩
  rw [← hb]
  exact hword [98] (by decide +kernel)

end Zapdos.Jamspell
