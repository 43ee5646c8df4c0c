/-
  `FixFragment` — a text with its misspelled words replaced.

  The text is cut into words twice, as it is and in lower case.  Word by word the best candidate is
  put in, in the capitals of the word it replaces; what stands between the words is copied.

  THE CRUX.  A letter in lower case stays as it is, so the two cuts agree (`process_toLower`) and the
  words of one are at the places of the other: the loop splices the new words into the text
  (`fixFragment_eq`).

  The scores are floating point: the order by scores is a parameter, and so is the order in which the
  sets are walked.
-/
import Zapdos.Jamspell.SpellCorrector

namespace Zapdos.Jamspell

open Zapdos.Lib Zapdos.Store

/-! ## Candidates in context -/

/-- `Score`, the penalties and `std::sort`; the order of an `unordered_set`. -/
structure RankEnv where
  walkSet : List WString → List WString
  rank : Bool → Bool → WString → List (WString × List WString) → List WString
  walkSet_perm : ∀ l, (walkSet l).Perm l
  rank_perm : ∀ firstLevel known w l, (rank firstLevel known w l).Perm (l.map Prod.fst)

section

variable (env : SpellEnv) (rk : RankEnv) (sc : SpellCorrector) (maxCandidatesToCheck : ℕ)

/-- `FilterCandidatesByFrequency`. -/
def filterCandidatesByFrequency (uniqueCandidates : List WString) (origWord : WString) : List WString :=
  if uniqueCandidates.length ≤ maxCandidatesToCheck then uniqueCandidates
  else
    let m := sc.langModel
    let candidateCounts := uniqueCandidates.map
      (fun c => (getGram1HashCount env.train m (getWordIdNoCreate m.vocab c), c))
    let candidateCounts := candidateCounts.mergeSort (fun a b => decide (b.1 ≤ a.1))
    insertSet ((candidateCounts.take maxCandidatesToCheck).map Prod.snd) origWord

/-- The sentence around a candidate: two words on each side. -/
def candSentence (sentence : List WString) (position : ℕ) (cand : WString) : List WString :=
  (List.range sentence.length).flatMap (fun i =>
    if i = position then [cand]
    else if (i < position ∧ i + 2 ≥ position) ∨ (i > position ∧ i ≤ position + 2) then [sentence.getD i []]
    else [])

/-- `GetCandidatesRaw`, from the first candidates on: the word itself is one more. -/
def rankCandidates (sentence : List WString) (position : ℕ) (firstLevel : Bool) (candidates : List WString) :
    List WString :=
  let w := sentence.getD position []
  let known := knownWord sc.langModel w
  let uniqueCandidates := rk.walkSet ((candidates ++ [w]).foldl insertSet [])
  let uniqueCandidates := rk.walkSet (filterCandidatesByFrequency env sc maxCandidatesToCheck uniqueCandidates w)
  rk.rank firstLevel known w (uniqueCandidates.map (fun cand => (cand, candSentence sentence position cand)))

/-- `GetCandidatesRaw`. -/
def getCandidatesRaw (sentence : List WString) (position : ℕ) : List WString :=
  if position ≥ sentence.length then []
  else
    let w := sentence.getD position []
    let candidates := edits2 sc.langModel true w
    if candidates = [] then
      let candidates := edits env sc w
      if candidates = [] then [] else rankCandidates env rk sc maxCandidatesToCheck sentence position false candidates
    else rankCandidates env rk sc maxCandidatesToCheck sentence position true candidates

end

/-! ## What the candidates in context are -/

section

variable {env : SpellEnv} {rk : RankEnv} {sc : SpellCorrector} {maxCandidatesToCheck : ℕ} {w v : WString}

theorem filterCandidates_spec {unique : List WString} (hnodup : unique.Nodup) (hw : w ∈ unique) :
    let kept := filterCandidatesByFrequency env sc maxCandidatesToCheck unique w
    kept.Nodup ∧ w ∈ kept ∧ kept.length ≤ maxCandidatesToCheck + 1 ∧ kept ⊆ unique := by
  intro kept
  by_cases hlen : unique.length ≤ maxCandidatesToCheck
  · have hkept : kept = unique := if_pos hlen
    rw [hkept]
    exact ⟨hnodup, hw, Nat.le_succ_of_le hlen, List.Subset.refl _⟩
  · -- the most frequent ones are a part of a permutation
    obtain ⟨top, hkept, htop, hsub⟩ : ∃ top : List WString, kept = insertSet top w ∧
        top.length ≤ maxCandidatesToCheck ∧ ∃ l, l.Perm unique ∧ top.Sublist l := by
      refine ⟨_, if_neg hlen, ?_, _, (((List.mergeSort_perm _ _).map Prod.snd)).trans (List.Perm.of_eq ?_),
        (List.take_sublist _ _).map _⟩
      · rw [List.length_map, List.length_take]
        exact Nat.min_le_left _ _
      · rw [List.map_map]
        exact List.map_id unique
    obtain ⟨l, hperm, hsub⟩ := hsub
    have htopnodup : top.Nodup := (hperm.nodup_iff.mpr hnodup).sublist hsub
    have htopsub : ∀ v ∈ top, v ∈ unique := fun v hv => hperm.mem_iff.mp (hsub.mem hv)
    obtain ⟨hn, hl⟩ := foldl_insertSet_nodup htopnodup [w]
    rw [hkept]
    refine ⟨hn, mem_insertSet.mpr (Or.inr rfl), ?_, fun v hv => ?_⟩
    · show ([w].foldl insertSet top).length ≤ _
      rw [List.length_singleton] at hl
      omega
    · rcases mem_insertSet.mp hv with hv | rfl
      · exact htopsub v hv
      · exact hw

/-- Filtering and ranking keep the word and lose the rest only when there are too many. -/
theorem rankCandidates_spec (env : SpellEnv) (rk : RankEnv) (sc : SpellCorrector) (maxCandidatesToCheck : ℕ)
    (sentence : List WString) (position : ℕ) (firstLevel : Bool)
    (candidates : List WString) :
    let w := sentence.getD position []
    let cs := rankCandidates env rk sc maxCandidatesToCheck sentence position firstLevel candidates
    w ∈ cs ∧ cs.Nodup ∧ cs.length ≤ maxCandidatesToCheck + 1 ∧ ∀ v ∈ cs, v = w ∨ v ∈ candidates := by
  intro w cs
  have hunique : ∀ v, v ∈ rk.walkSet ((candidates ++ [w]).foldl insertSet []) ↔ v ∈ candidates ∨ v = w := fun v => by
    rw [(rk.walkSet_perm _).mem_iff, mem_foldl_insertSet, or_iff_right List.not_mem_nil, List.mem_append,
      List.mem_singleton]
  have hnodup : (rk.walkSet ((candidates ++ [w]).foldl insertSet [])).Nodup :=
    (rk.walkSet_perm _).nodup_iff.mpr (foldl_insertSet_nodup List.nodup_nil _).1
  have hcs : cs.Perm (filterCandidatesByFrequency env sc maxCandidatesToCheck
      (rk.walkSet ((candidates ++ [w]).foldl insertSet [])) w) := by
    refine (rk.rank_perm _ _ _ _).trans ?_
    rw [List.map_map]
    exact (List.Perm.of_eq (List.map_id _)).trans (rk.walkSet_perm _)
  obtain ⟨hn, hw, hlen, hsub⟩ := filterCandidates_spec hnodup ((hunique w).mpr (Or.inr rfl))
  exact ⟨hcs.mem_iff.mpr hw, hcs.nodup_iff.mpr hn, hcs.length_eq.trans_le hlen,
    fun v hv => ((hunique v).mp (hsub (hcs.mem_iff.mp hv))).symm⟩

/-- **Candidates in context**: there are none exactly when no known word is one edit away or near; else
    the word itself is one of them, and the others are known words, near ones only where none is one
    edit away. -/
theorem getCandidatesRaw_spec (rk : RankEnv) (maxCandidatesToCheck : ℕ) (hc : Cached env sc)
    (hs : Spelled sc.langModel) {sentence : List WString} {position : ℕ} (hpos : position < sentence.length)
    (hw : sentence.getD position [] ≠ []) :
    let w := sentence.getD position []
    let first := fun v => knownWord sc.langModel v = true ∧ OneEdit w v
    let second := fun v => knownWord sc.langModel v = true ∧ Near w v
    let cs := getCandidatesRaw env rk sc maxCandidatesToCheck sentence position
    (cs = [] ↔ ∀ v, ¬ first v ∧ ¬ second v) ∧ (cs ≠ [] → w ∈ cs) ∧ cs.Nodup ∧
      cs.length ≤ maxCandidatesToCheck + 1 ∧
      ∀ v ∈ cs, v = w ∨ first v ∨ (second v ∧ ∀ v', ¬ first v') := by
  intro w first second cs
  have hfirst : ∀ v, v ∈ edits2 sc.langModel true w ↔ first v := fun v => mem_edits2_iff hs
  have hsecond : ∀ v, v ∈ edits env sc w ↔ second v := fun v => mem_edits_iff hc hs hw
  have hcs : cs = getCandidatesRaw env rk sc maxCandidatesToCheck sentence position := rfl
  rw [getCandidatesRaw, if_neg (Nat.not_le.mpr hpos)] at hcs
  -- a list that is ranked is not empty
  have hranked : ∀ firstLevel candidates,
      cs = rankCandidates env rk sc maxCandidatesToCheck sentence position firstLevel candidates →
      (∃ v, v ∈ candidates) → (∀ v ∈ candidates, first v ∨ (second v ∧ ∀ v', ¬ first v')) →
      (cs = [] ↔ ∀ v, ¬ first v ∧ ¬ second v) ∧ (cs ≠ [] → w ∈ cs) ∧ cs.Nodup ∧
        cs.length ≤ maxCandidatesToCheck + 1 ∧ ∀ v ∈ cs, v = w ∨ first v ∨ (second v ∧ ∀ v', ¬ first v') := by
    intro firstLevel candidates heq ⟨v₀, hv₀⟩ hcand
    obtain ⟨hin, hnodup, hlen, hmem⟩ :=
      rankCandidates_spec env rk sc maxCandidatesToCheck sentence position firstLevel candidates
    rw [← heq] at hin hnodup hlen hmem
    refine ⟨iff_of_false (List.ne_nil_of_mem hin) fun hnone => ?_, fun _ => hin, hnodup, hlen,
      fun v hv => (hmem v hv).imp_right (hcand v)⟩
    rcases hcand v₀ hv₀ with h | h
    · exact (hnone v₀).1 h
    · exact (hnone v₀).2 h.1
  by_cases h₁ : edits2 sc.langModel true w = []
  · have hnone : ∀ v, ¬ first v := fun v hv => by
      rw [← hfirst, h₁] at hv
      cases hv
    rw [if_pos h₁] at hcs
    by_cases h₂ : edits env sc w = []
    · rw [if_pos h₂] at hcs
      rw [hcs]
      refine ⟨iff_of_true rfl fun v => ⟨hnone v, fun hv => ?_⟩, fun h => absurd rfl h, List.nodup_nil, Nat.zero_le _,
        fun v hv => absurd hv List.not_mem_nil⟩
      rw [← hsecond, h₂] at hv
      cases hv
    · rw [if_neg h₂] at hcs
      exact hranked _ _ hcs (List.exists_mem_of_ne_nil _ h₂) fun v hv => Or.inr ⟨(hsecond v).mp hv, hnone⟩
  · rw [if_neg h₁] at hcs
    exact hranked _ _ hcs (List.exists_mem_of_ne_nil _ h₁) fun v hv => Or.inl ((hfirst v).mp hv)

end

def sampleRankEnv : RankEnv where
  walkSet l := l
  rank _ _ _ l := l.map Prod.fst
  walkSet_perm _ := List.Perm.refl _
  rank_perm _ _ _ _ := List.Perm.refl _

/-- The word `ac` is a candidate for itself where `a` is known. -/
theorem getCandidatesRaw_ac : [97, 99] ∈ getCandidatesRaw sampleSpellEnv sampleRankEnv
    (prepareCache sampleSpellEnv sampleModel) 14 [[97, 99], [98]] 0 := by
  obtain ⟨hnone, hself, -⟩ := getCandidatesRaw_spec sampleRankEnv 14
    (cached_prepareCache sampleSpellEnv sampleModel) (known_train train_sampleText).2
    (show 0 < ([[97, 99], [98]] : List WString).length by decide) (by decide)
  exact hself fun h => (hnone.mp h [97]).1 ⟨by decide +kernel, OneEdit.delete [97] [] 99⟩

/-! ## The text -/

section

variable (loc : Locale) (alphabet : List UInt32) (candidates : List WString → ℕ → List WString)

/-- The new word in the capitals of the old one; the last letter counts for all that follow. -/
def fixWord (origWord origLowered newWord : WString) : WString :=
  if newWord ≠ origLowered then
    newWord.zipIdx.map (fun (newChar, k) =>
      let n := if k < origWord.length then k else origWord.length - 1
      makeUpperIfRequired loc newChar (origWord.getD n 0))
  else origWord

/-- `words[j] = candidates[0]`. -/
def fixAt (words : List WString) (j : ℕ) : List WString :=
  match candidates words j with
  | [] => words
  | c :: _ => words.set j c

/-- The loop over the words of a sentence; `none` when the sentences do not agree. -/
def fixWords (text lowered : WString) (origWords : List TWord) :
    ℕ → List TWord → List WString → WString × ℕ → Option (WString × ℕ)
  | _, [], _, s => some s
  | j, w :: rest, words, (result, origPos) => do
    let orig ← origWords[j]?
    let words := fixAt candidates words j
    let result := result ++ (text.drop origPos).take (orig.ptr - origPos)
    let origPos := max origPos orig.ptr
    let result := result ++ fixWord loc (orig.text text) (w.text lowered) (words.getD j [])
    fixWords text lowered origWords (j + 1) rest words (result, origPos + orig.len)

/-- The loop over the sentences. -/
def fixSentences (text lowered : WString) (origSentences : List (List TWord)) :
    ℕ → List (List TWord) → WString × ℕ → Option (WString × ℕ)
  | _, [], s => some s
  | i, sentence :: rest, s => do
    let origWords ← origSentences[i]?
    let s ← fixWords loc candidates text lowered origWords 0 sentence (sentence.map (TWord.text lowered)) s
    fixSentences text lowered origSentences (i + 1) rest s

/-- `FixFragment`. -/
def fixFragment (text : WString) : Option WString := do
  let lowered := toLower loc text
  let (result, origPos) ← fixSentences loc candidates text lowered (process loc alphabet text) 0
    (process loc alphabet lowered) ([], 0)
  return result ++ text.drop origPos

/-! ## What it is for -/

/-- The words of a sentence, corrected from left to right: a word sees the ones before it corrected. -/
def respell : ℕ → ℕ → List WString → List WString
  | 0, _, _ => []
  | n + 1, j, words =>
    let words := fixAt candidates words j
    words.getD j [] :: respell n (j + 1) words

/-- The words of a sentence and what they are replaced by. -/
def replacements (text : WString) (sentence : List TWord) : List (TWord × WString) :=
  let lowered := toLower loc text
  (sentence.zip (respell candidates sentence.length 0 (sentence.map (TWord.text lowered)))).map
    (fun p => (p.1, fixWord loc (p.1.text text) (p.1.text lowered) p.2))

end

/-- A replacement goes behind what is copied up to its place. -/
def spliceStep (text : WString) (s : WString × ℕ) (p : TWord × WString) : WString × ℕ :=
  (s.1 ++ (text.drop s.2).take (p.1.ptr - s.2) ++ p.2, p.1.stop)

/-- The text with some of its words replaced. -/
def splice (text : WString) (ps : List (TWord × WString)) : WString :=
  let s := ps.foldl (spliceStep text) ([], 0)
  s.1 ++ text.drop s.2

/-! ## The two cuts agree -/

theorem loop_toLower (loc : Locale) (alphabet : List UInt32) (text : WString) (i : ℕ) (s : Scan) :
    Scan.loop loc alphabet i (toLower loc text) s = Scan.loop loc alphabet i text s := by
  induction text generalizing i s with
  | nil => rfl
  | cons c text ih =>
    have hstep : s.step loc alphabet i (loc.tolower c) = s.step loc alphabet i c := by
      rw [Scan.step, Scan.step, loc.tolower_tolower]
    show Scan.loop loc alphabet (i + 1) (toLower loc text) (s.step loc alphabet i (loc.tolower c)) = _
    rw [ih, hstep]
    rfl

theorem process_toLower (loc : Locale) (alphabet : List UInt32) (text : WString) :
    process loc alphabet (toLower loc text) = process loc alphabet text := by
  have hnil : toLower loc text = [] ↔ text = [] := List.map_eq_nil_iff
  rw [process, process, loop_toLower]
  simp only [hnil]

/-! ## Words in their places -/

section

variable {text : WString} {start pos : ℕ} {ws vs : List TWord}

/-- The words stand one behind the other. -/
def Placed : ℕ → List TWord → Prop
  | _, [] => True
  | start, w :: ws => start ≤ w.ptr ∧ Placed w.stop ws

/-- Where the last word stops. -/
def lastStop (start : ℕ) (ws : List TWord) : ℕ := ws.foldl (fun _ w => w.stop) start

theorem placed_append : Placed start (ws ++ vs) ↔ Placed start ws ∧ Placed (lastStop start ws) vs := by
  induction ws generalizing start with
  | nil => exact (and_iff_right trivial).symm
  | cons w ws ih =>
    show start ≤ w.ptr ∧ Placed w.stop (ws ++ vs) ↔ (start ≤ w.ptr ∧ Placed w.stop ws) ∧ Placed (lastStop w.stop ws) vs
    rw [ih, and_assoc]

theorem placed_of_pairwise (h : ws.Pairwise (fun u v => u.stop < v.ptr)) (hstart : ∀ w ∈ ws, start ≤ w.ptr) :
    Placed start ws := by
  induction ws generalizing start with
  | nil => trivial
  | cons w ws ih =>
    obtain ⟨hw, hws⟩ := List.pairwise_cons.mp h
    exact ⟨hstart w List.mem_cons_self, ih hws fun v hv => (hw v hv).le⟩

/-- The words of a text are in their places, and in the text. -/
theorem placed_process (loc : Locale) (alphabet : List UInt32) (text : WString) :
    Placed 0 (process loc alphabet text).flatten ∧
      ∀ w ∈ (process loc alphabet text).flatten, w.stop ≤ text.length := by
  obtain ⟨ws, hprocess, hclosed, horder⟩ := process_words loc alphabet text
  rw [hprocess, List.flatten_splitBy]
  refine ⟨placed_of_pairwise (horder.imp_of_mem fun hu hv hlt => ?_) fun w _ => Nat.zero_le _, fun w hw => ?_⟩
  · exact ((hclosed _).mp hu).1.before ((hclosed _).mp hv).1 hlt
  · exact Nat.lt_succ_iff.mp ((hclosed w).mp hw).2

theorem foldl_spliceStep_stop (s : WString × ℕ) (ps : List (TWord × WString)) :
    (ps.foldl (spliceStep text) s).2 = lastStop s.2 (ps.map Prod.fst) := by
  induction ps generalizing s with
  | nil => rfl
  | cons p ps ih => exact ih _

/-- Words that are replaced by themselves leave the text as it is. -/
theorem foldl_spliceStep_self (hplaced : Placed pos ws) (hstop : ∀ w ∈ ws, w.stop ≤ text.length) :
    ((ws.map (fun w => (w, w.text text))).foldl (spliceStep text) (text.take pos, pos)).1 =
      text.take (lastStop pos ws) := by
  induction ws generalizing pos with
  | nil => rfl
  | cons w ws ih =>
    obtain ⟨hle, hws⟩ := hplaced
    have hcopy : text.take pos ++ (text.drop pos).take (w.ptr - pos) ++ w.text text = text.take w.stop := by
      rw [← List.take_add, Nat.add_sub_cancel' hle, TWord.text, ← List.take_add, TWord.stop]
    show ((ws.map _).foldl (spliceStep text)
      (text.take pos ++ (text.drop pos).take (w.ptr - pos) ++ w.text text, w.stop)).1 = _
    rw [hcopy, ih hws fun v hv => hstop v (List.mem_cons_of_mem w hv)]
    rfl

theorem splice_self (hplaced : Placed 0 ws) (hstop : ∀ w ∈ ws, w.stop ≤ text.length) :
    splice text (ws.map (fun w => (w, w.text text))) = text := by
  have hself := foldl_spliceStep_self hplaced hstop
  rw [splice]
  simp only [List.take_zero] at hself
  rw [hself, foldl_spliceStep_stop, List.map_map]
  have hfst : ws.map (Prod.fst ∘ fun w => (w, w.text text)) = ws := List.map_id ws
  rw [hfst, List.take_append_drop]

end

/-! ## The loops splice -/

section

variable {loc : Locale} {alphabet : List UInt32} {candidates : List WString → ℕ → List WString} {text : WString}

theorem length_respell (n j : ℕ) (words : List WString) : (respell candidates n j words).length = n := by
  induction n generalizing j words with
  | zero => rfl
  | succ n ih => rw [respell, List.length_cons, ih]

/-- **A sentence.** -/
theorem fixWords_eq (lowered : WString) (done rest : List TWord) (words : List WString) (s : WString × ℕ)
    (hplaced : Placed s.2 rest) :
    fixWords loc candidates text lowered (done ++ rest) done.length rest words s =
      some (((rest.zip (respell candidates rest.length done.length words)).map
        (fun p => (p.1, fixWord loc (p.1.text text) (p.1.text lowered) p.2))).foldl (spliceStep text) s) := by
  induction rest generalizing done words s with
  | nil => rfl
  | cons w rest ih =>
    obtain ⟨result, origPos⟩ := s
    obtain ⟨hle, hrest⟩ := hplaced
    have hget : (done ++ w :: rest)[done.length]? = some w := by simp
    have hnext := ih (done ++ [w]) (fixAt candidates words done.length)
      (result ++ (text.drop origPos).take (w.ptr - origPos)
        ++ fixWord loc (w.text text) (w.text lowered) ((fixAt candidates words done.length).getD done.length []), w.stop)
      hrest
    rw [List.append_assoc, List.singleton_append, List.length_append, List.length_singleton] at hnext
    rw [fixWords, hget]
    simp only [Option.bind_eq_bind, Option.bind_some]
    -- the word starts behind the one before, so the copy up to it goes forward
    rw [Nat.max_eq_right hle]
    exact hnext

/-- The replacements of a sentence stand for its words. -/
theorem map_fst_replacements (sentence : List TWord) :
    (replacements loc candidates text sentence).map Prod.fst = sentence := by
  rw [replacements, List.map_map]
  refine List.map_fst_zip ?_
  rw [length_respell]

/-- **All sentences.** -/
theorem fixSentences_eq (done rest : List (List TWord)) (s : WString × ℕ) (hplaced : Placed s.2 rest.flatten) :
    fixSentences loc candidates text (toLower loc text) (done ++ rest) done.length rest s =
      some ((rest.flatMap (replacements loc candidates text)).foldl (spliceStep text) s) := by
  induction rest generalizing done s with
  | nil => rfl
  | cons sentence rest ih =>
    rw [List.flatten_cons, placed_append] at hplaced
    obtain ⟨hsentence, hrest⟩ := hplaced
    have hget : (done ++ sentence :: rest)[done.length]? = some sentence := by simp
    have hwords : fixWords loc candidates text (toLower loc text) sentence 0 sentence
          (sentence.map (TWord.text (toLower loc text))) s =
        some ((replacements loc candidates text sentence).foldl (spliceStep text) s) :=
      fixWords_eq (toLower loc text) [] sentence _ s hsentence
    -- the next sentence is copied from the end of this one
    have hstop : ((replacements loc candidates text sentence).foldl (spliceStep text) s).2 = lastStop s.2 sentence := by
      rw [foldl_spliceStep_stop, map_fst_replacements]
    have hnext := ih (done ++ [sentence]) ((replacements loc candidates text sentence).foldl (spliceStep text) s)
      (hstop ▸ hrest)
    rw [List.append_assoc, List.singleton_append, List.length_append, List.length_singleton] at hnext
    rw [fixSentences, hget]
    simp only [Option.bind_eq_bind, Option.bind_some]
    rw [hwords, List.flatMap_cons, List.foldl_append]
    exact hnext

/-- **Only words are replaced**: the fragment is the text with every word replaced by the correction
    it gets in its sentence; with the words themselves it would be the text. -/
theorem fixFragment_eq (loc : Locale) (alphabet : List UInt32) (candidates : List WString → ℕ → List WString)
    (text : WString) :
    let fixes := (process loc alphabet text).flatMap (replacements loc candidates text)
    fixFragment loc alphabet candidates text = some (splice text fixes) ∧
      fixes.map Prod.fst = (process loc alphabet text).flatten ∧
      splice text (fixes.map (fun p => (p.1, p.1.text text))) = text := by
  intro fixes
  obtain ⟨hplaced, hstop⟩ := placed_process loc alphabet text
  have hwords : fixes.map Prod.fst = (process loc alphabet text).flatten := by
    show ((process loc alphabet text).flatMap _).map Prod.fst = _
    rw [List.map_flatMap]
    simp only [map_fst_replacements]
    exact List.flatMap_id'
  refine ⟨?_, hwords, ?_⟩
  · have hsentences : fixSentences loc candidates text (toLower loc text) (process loc alphabet text) 0
          (process loc alphabet text) ([], 0) = some (fixes.foldl (spliceStep text) ([], 0)) :=
      fixSentences_eq [] (process loc alphabet text) ([], 0) hplaced
    rw [fixFragment, process_toLower]
    simp only [Option.bind_eq_bind]
    rw [hsentences, Option.bind_some, splice]
    rfl
  · have hself := splice_self hplaced hstop
    rw [← hwords, List.map_map] at hself
    exact hself

end

end Zapdos.Jamspell
