/-
  `TTokenizer` — a text becomes sentences of words.

  A word is a stretch of letters of the alphabet, where it starts and how long it is; `?`, `!` and `.`
  end a sentence.  The letters are looked up in lower case.

  THE CRUX.  The loop pushes a word at the first position behind it, before it looks for the end of the
  sentence (`Scan.Good`): the words are the maximal runs of letters and each is in the sentence of the
  one before unless an end was met since (`process_eq`).

  The locale's `tolower` and `toupper` are parameters; a letter in lower case stays as it is.
-/
import Zapdos.Jamspell.HandyPack
import Zapdos.Lib.MaximalRuns

namespace Zapdos.Jamspell

open Zapdos.Lib Zapdos.Store

/-- `TWord`, with the position that `Ptr` points to. -/
structure TWord where
  ptr : ℕ
  len : ℕ
  deriving DecidableEq, Repr

/-- The position behind a word. -/
def TWord.stop (w : TWord) : ℕ := w.ptr + w.len

/-- `std::wstring(word.Ptr, word.Len)`. -/
def TWord.text (text : WString) (w : TWord) : WString := (text.drop w.ptr).take w.len

/-- The locale `en_US.UTF-8`. -/
structure Locale where
  tolower : UInt32 → UInt32
  toupper : UInt32 → UInt32
  tolower_tolower : ∀ c, tolower (tolower c) = tolower c

/-- The locale on ASCII. -/
def asciiLocale : Locale where
  tolower c := if 65 ≤ c ∧ c ≤ 90 then c + 32 else c
  toupper c := if 97 ≤ c ∧ c ≤ 122 then c - 32 else c
  tolower_tolower c := by
    split_ifs with h h'
    · -- a capital letter and 32 is no capital letter
      simp only [UInt32.le_iff_toNat_le, UInt32.toNat_add, UInt32.reduceToNat] at h h'
      omega
    · rfl
    · rfl

/-- `ToLower`. -/
def toLower (loc : Locale) (text : WString) : WString := text.map loc.tolower

/-- `MakeUpperIfRequired`. -/
def makeUpperIfRequired (loc : Locale) (orig sample : UInt32) : UInt32 :=
  if loc.toupper sample = sample then loc.toupper orig else orig

/-- `LoadAlphabet`, of the decoded string; line ends are no letters. -/
def loadAlphabet (loc : Locale) (wdata : WString) : Option (List UInt32) :=
  if wdata = [] then none
  else
    let alphabet := ((toLower loc wdata).filter (fun c => c ≠ 10 ∧ c ≠ 13)).foldl insertSet []
    if alphabet = [] then none else some alphabet

/-! ## Process -/

/-- The variables of the loop. -/
structure Scan where
  sentences : List (List TWord)
  currSentence : List TWord
  currWord : Option TWord

section

variable (loc : Locale) (alphabet : List UInt32)

/-- `?`, `!` and `.`. -/
def endsSentence (letter : UInt32) : Bool := letter = 63 || letter = 33 || letter = 46

/-- The word at hand goes on, or is pushed. -/
def Scan.word (s : Scan) (i : ℕ) (letter : UInt32) : Scan :=
  if letter ∈ alphabet then
    let currWord := s.currWord.getD ⟨i, 0⟩
    { s with currWord := some ⟨currWord.ptr, currWord.len + 1⟩ }
  else
    match s.currWord with
    | some currWord => { s with currSentence := s.currSentence ++ [currWord], currWord := none }
    | none => s

/-- The sentence at hand is pushed, if it has words. -/
def Scan.sentence (s : Scan) : Scan :=
  if s.currSentence ≠ [] then { s with sentences := s.sentences ++ [s.currSentence], currSentence := [] } else s

/-- One letter of the text. -/
def Scan.step (s : Scan) (i : ℕ) (c : UInt32) : Scan :=
  let letter := loc.tolower c
  let s := s.word alphabet i letter
  if endsSentence letter then s.sentence else s

/-- The loop. -/
def Scan.loop : ℕ → WString → Scan → Scan
  | _, [], s => s
  | i, c :: text, s => Scan.loop (i + 1) text (s.step loc alphabet i c)

/-- `Process`. -/
def process (text : WString) : List (List TWord) :=
  if text = [] then []
  else
    let s := Scan.loop loc alphabet 0 text ⟨[], [], none⟩
    let s := match s.currWord with
      | some currWord => { s with currSentence := s.currSentence ++ [currWord] }
      | none => s
    s.sentence.sentences

/-! ## What the words are -/

/-- There is a letter of the alphabet at this position. -/
def LetterAt (text : WString) (k : ℕ) : Prop := ∃ c ∈ text[k]?, loc.tolower c ∈ alphabet

/-- A sentence ends at this position. -/
def EndAt (text : WString) (k : ℕ) : Prop := ∃ c ∈ text[k]?, endsSentence (loc.tolower c) = true

instance (text : WString) (k : ℕ) : Decidable (EndAt loc text k) := by
  unfold EndAt
  infer_instance

/-- The second word is in the sentence of the first: none ends between the ends of the two. -/
def sameSentence (text : WString) (u v : TWord) : Bool :=
  decide (∀ k < v.stop, u.stop ≤ k → ¬ EndAt loc text k)

variable {loc alphabet} {text : WString} {s : Scan} {ws : List TWord} {i j : ℕ} {c : UInt32} {w : TWord}

/-- The words pushed so far are the runs that end before `i`, the word at hand is the run that reaches
    it; the sentence at hand is empty when one has ended since the last word. -/
structure Scan.Good (loc : Locale) (alphabet : List UInt32) (text : WString) (i j : ℕ) (s : Scan)
    (ws : List TWord) : Prop where
  closed : ∀ w, w ∈ ws ↔ ClosedRun (LetterAt loc alphabet text) w.ptr w.stop ∧ w.stop < i
  order : ws.Pairwise (fun u v => u.stop < v.stop)
  atHand : ∀ w ∈ s.currWord, OpenRun (LetterAt loc alphabet text) w.ptr w.stop ∧ w.stop = i
  apart : s.currWord = none → ∀ k, k + 1 = i → ¬ LetterAt loc alphabet text k
  groups : ws.splitBy (sameSentence loc text) =
    s.sentences ++ if s.currSentence = [] then [] else [s.currSentence]
  since : ∀ u ∈ ws.getLast?, s.currSentence = [] ↔ ∃ k < j, u.stop ≤ k ∧ EndAt loc text k

theorem good_start (loc : Locale) (alphabet : List UInt32) (text : WString) : Scan.Good loc alphabet text 0 0 ⟨[], [], none⟩ [] :=
  { closed := fun w => ⟨fun h => absurd h List.not_mem_nil, fun h => absurd h.2 (Nat.not_lt_zero _)⟩
    order := List.Pairwise.nil
    atHand := fun w hw => absurd hw (by simp)
    apart := fun _ k hk => absurd hk (Nat.succ_ne_zero k)
    groups := List.splitBy_nil _
    since := fun u hu => absurd hu (by simp) }

/-- **A word is pushed** to the sentence it belongs to. -/
theorem Scan.Good.push (h : s.Good loc alphabet text i i ws) (hw : s.currWord = some w) :
    (ws ++ [w]).splitBy (sameSentence loc text) = s.sentences ++ [s.currSentence ++ [w]] := by
  obtain ⟨-, hstop⟩ := h.atHand w hw
  have hgroups := h.groups
  rcases List.eq_nil_or_concat' s.currSentence with hcur | ⟨c₀, u, hcur⟩
  · rw [hcur, if_pos rfl, List.append_nil] at hgroups
    rw [hcur, ← hgroups, List.nil_append]
    refine splitBy_concat_new fun u hu => ?_
    obtain ⟨k, hk, huk, hend⟩ := (h.since u hu).mp hcur
    rw [sameSentence, decide_eq_false_iff_not, not_forall]
    exact ⟨k, fun hnone => hnone (hk.trans_eq hstop.symm) huk hend⟩
  · have hne : s.currSentence ≠ [] := by rw [hcur]; simp
    rw [if_neg hne, hcur] at hgroups
    have hlast : u ∈ ws.getLast? := by
      rw [(List.splitBy_eq_iff.mp hgroups).1]
      simp
    rw [hcur, List.append_assoc]
    refine splitBy_concat_same hgroups ?_
    rw [sameSentence, decide_eq_true_eq]
    exact fun k hk huk hend => hne ((h.since u hlast).mpr ⟨k, hk.trans_eq hstop, huk, hend⟩)

/-- The word at hand is closed by a position that has no letter. -/
theorem Scan.Good.closed_push (h : s.Good loc alphabet text i j ws) (hw : s.currWord = some w)
    (hi : ¬ LetterAt loc alphabet text i) :
    (∀ v, v ∈ ws ++ [w] ↔ ClosedRun (LetterAt loc alphabet text) v.ptr v.stop ∧ v.stop < i + 1) ∧
      (ws ++ [w]).Pairwise (fun u v => u.stop < v.stop) := by
  obtain ⟨hopen, hstop⟩ := h.atHand w hw
  constructor
  · intro v
    rw [List.mem_append, List.mem_singleton, h.closed]
    constructor
    · rintro (⟨hrun, hlt⟩ | rfl)
      · exact ⟨hrun, Nat.lt_succ_of_lt hlt⟩
      · rw [hstop] at hopen ⊢
        exact ⟨hopen.close hi, Nat.lt_succ_self i⟩
    · rintro ⟨hrun, hlt⟩
      rcases Nat.lt_succ_iff_lt_or_eq.mp hlt with hlt | heq
      · exact Or.inl ⟨hrun, hlt⟩
      · right
        rw [hstop] at hopen
        rw [heq] at hrun
        -- only one run reaches this position
        have hptr : v.ptr = w.ptr := hrun.toOpenRun.unique hopen
        have hlen : v.len = w.len := by
          rw [TWord.stop] at heq hstop
          omega
        cases v
        cases w
        simp_all
  · rw [List.pairwise_append]
    refine ⟨h.order, List.pairwise_singleton _ _, fun u hu v hv => ?_⟩
    rw [List.mem_singleton.mp hv, hstop]
    exact ((h.closed u).mp hu).2

/-- No word at hand: no run ends here. -/
theorem Scan.Good.closed_none (h : s.Good loc alphabet text i j ws) (hw : s.currWord = none) (v : TWord) :
    v ∈ ws ↔ ClosedRun (LetterAt loc alphabet text) v.ptr v.stop ∧ v.stop < i + 1 := by
  rw [h.closed]
  refine and_congr_right fun hrun => ⟨Nat.lt_succ_of_lt, fun hlt => ?_⟩
  rcases Nat.lt_succ_iff_lt_or_eq.mp hlt with hlt | heq
  · exact hlt
  · obtain ⟨k, hk, hletter⟩ := hrun.last
    exact absurd hletter (h.apart hw k (hk.trans heq))

theorem letterAt_iff (hc : text[i]? = some c) : LetterAt loc alphabet text i ↔ loc.tolower c ∈ alphabet := by
  rw [LetterAt, hc]
  simp

theorem endAt_iff (hc : text[i]? = some c) : EndAt loc text i ↔ endsSentence (loc.tolower c) = true := by
  rw [EndAt, hc]
  simp

/-- **The word at hand** at the next position. -/
theorem Scan.Good.word (h : s.Good loc alphabet text i i ws) (hc : text[i]? = some c) :
    ∃ ws', (s.word alphabet i (loc.tolower c)).Good loc alphabet text (i + 1) i ws' := by
  rw [Scan.word]
  split_ifs with hletter
  · -- a letter: the word at hand goes on, or starts here
    rw [← letterAt_iff hc] at hletter
    refine ⟨ws, ⟨fun v => ?_, h.order, fun w hw => ?_, fun hnone => absurd hnone (by simp), h.groups, h.since⟩⟩
    · rw [h.closed]
      refine and_congr_right fun hrun => ⟨Nat.lt_succ_of_lt, fun hlt => ?_⟩
      refine lt_of_le_of_ne (Nat.lt_succ_iff.mp hlt) fun heq => hrun.right ?_
      rw [heq]
      exact hletter
    · obtain rfl := Option.mem_some_iff.mp hw
      cases hcur : s.currWord with
      | none =>
        exact ⟨OpenRun.start (h.apart hcur) hletter, rfl⟩
      | some w =>
        obtain ⟨hopen, hstop⟩ := h.atHand w hcur
        rw [TWord.stop] at hopen hstop
        show OpenRun _ w.ptr (w.ptr + (w.len + 1)) ∧ w.ptr + (w.len + 1) = i + 1
        rw [← Nat.add_assoc, hstop]
        rw [hstop] at hopen
        exact ⟨hopen.extend hletter, rfl⟩
  · rw [← letterAt_iff hc] at hletter
    -- no letter: the word at hand is done
    have hnone : ∀ k, k + 1 = i + 1 → ¬ LetterAt loc alphabet text k := by
      intro k hk
      obtain rfl : k = i := by omega
      exact hletter
    cases hcur : s.currWord with
    | none =>
      exact ⟨ws, h.closed_none hcur, h.order, fun w hw => absurd (hcur ▸ hw) (by simp), fun _ => hnone, h.groups,
        h.since⟩
    | some w =>
      obtain ⟨hclosed, horder⟩ := h.closed_push hcur hletter
      have hne : s.currSentence ++ [w] ≠ [] := by simp
      refine ⟨ws ++ [w], hclosed, horder, fun w hw => absurd hw (by simp), fun _ => hnone, ?_, fun u hu => ?_⟩
      · rw [if_neg hne]
        exact h.push hcur
      · obtain rfl : w = u := by simpa using hu
        refine iff_of_false hne ?_
        rintro ⟨k, hk, hwk, -⟩
        rw [(h.atHand w hcur).2] at hwk
        omega

/-- **The end of a sentence.** -/
theorem Scan.Good.sentence (h : s.Good loc alphabet text (i + 1) i ws) (hc : text[i]? = some c) :
    (if endsSentence (loc.tolower c) then s.sentence else s).Good loc alphabet text (i + 1) (i + 1) ws := by
  have hbehind : ∀ u ∈ ws.getLast?, u.stop ≤ i := fun u hu =>
    Nat.lt_succ_iff.mp ((h.closed u).mp (List.mem_of_mem_getLast? hu)).2
  have hnext : ∀ u ∈ ws.getLast?, (∃ k < i + 1, u.stop ≤ k ∧ EndAt loc text k) ↔
      (∃ k < i, u.stop ≤ k ∧ EndAt loc text k) ∨ EndAt loc text i := by
    intro u hu
    constructor
    · rintro ⟨k, hk, huk, hend⟩
      rcases Nat.lt_succ_iff_lt_or_eq.mp hk with hk | rfl
      · exact Or.inl ⟨k, hk, huk, hend⟩
      · exact Or.inr hend
    · rintro (⟨k, hk, huk, hend⟩ | hend)
      · exact ⟨k, Nat.lt_succ_of_lt hk, huk, hend⟩
      · exact ⟨i, Nat.lt_succ_self i, hbehind u hu, hend⟩
  -- the words so far end before this position, so an end here is behind all of them
  split_ifs with hend
  · rw [← endAt_iff hc] at hend
    rw [Scan.sentence]
    -- without a word at hand there is nothing to push
    split_ifs with hne
    · refine ⟨h.closed, h.order, h.atHand, h.apart, ?_, fun u hu => ?_⟩
      · have hgroups := h.groups
        rw [if_neg hne] at hgroups
        rw [hgroups]
        simp
      · rw [hnext u hu]
        exact iff_of_true rfl (Or.inr hend)
    · refine ⟨h.closed, h.order, h.atHand, h.apart, h.groups, fun u hu => ?_⟩
      rw [hnext u hu]
      exact iff_of_true (not_not.mp hne) (Or.inr hend)
  · rw [← endAt_iff hc] at hend
    refine ⟨h.closed, h.order, h.atHand, h.apart, h.groups, fun u hu => ?_⟩
    rw [h.since u hu, hnext u hu, or_iff_left hend]

/-- **The loop** reaches the end of the text. -/
theorem Scan.Good.loop (rest : WString) (h : s.Good loc alphabet text i i ws) (hrest : text.drop i = rest) :
    ∃ ws', (Scan.loop loc alphabet i rest s).Good loc alphabet text (i + rest.length) (i + rest.length) ws' := by
  induction rest generalizing i s ws with
  | nil => exact ⟨ws, h⟩
  | cons c rest ih =>
    have hc : text[i]? = some c := by
      have := congrArg (fun l => l[0]?) hrest
      simpa [List.getElem?_drop] using this
    have hdrop : text.drop (i + 1) = rest := by
      rw [← List.drop_drop, hrest]
      rfl
    obtain ⟨ws₁, h₁⟩ := h.word hc
    obtain ⟨ws₂, h₂⟩ := ih (h₁.sentence hc) hdrop
    refine ⟨ws₂, ?_⟩
    rw [List.length_cons, ← Nat.add_assoc, Nat.add_right_comm]
    exact h₂

/-! ## How many words there are -/

/-- The words found so far. -/
def Scan.count (s : Scan) : ℕ :=
  s.sentences.flatten.length + s.currSentence.length + if s.currWord.isSome then 1 else 0

theorem Scan.count_sentence (s : Scan) : s.sentence.count = s.count := by
  rw [Scan.sentence]
  split_ifs with h
  · rw [Scan.count, Scan.count]
    simp
  · rfl

theorem Scan.count_word_le (alphabet : List UInt32) (s : Scan) (i : ℕ) (letter : UInt32) : (s.word alphabet i letter).count ≤ s.count + 1 := by
  rw [Scan.word]
  split_ifs
  · rw [Scan.count, Scan.count]
    simp only [Option.isSome_some, if_true]
    omega
  · cases hcur : s.currWord with
    | none => exact Nat.le_succ _
    | some w =>
      rw [Scan.count, Scan.count, hcur]
      simp
      omega

theorem Scan.count_loop_le (loc : Locale) (alphabet : List UInt32) (text : WString) (i : ℕ) (s : Scan) :
    (Scan.loop loc alphabet i text s).count ≤ s.count + text.length := by
  induction text generalizing i s with
  | nil => exact Nat.le_refl _
  | cons c text ih =>
    have hword := s.count_word_le alphabet i (loc.tolower c)
    have hstep : (s.step loc alphabet i c).count ≤ s.count + 1 := by
      rw [Scan.step]
      split_ifs
      · rw [Scan.count_sentence]
        exact hword
      · exact hword
    have := ih (i + 1) (s.step loc alphabet i c)
    rw [Scan.loop, List.length_cons]
    omega

/-- There are no more words than letters. -/
theorem length_process_le (loc : Locale) (alphabet : List UInt32) (text : WString) :
    (process loc alphabet text).flatten.length ≤ text.length := by
  rw [process]
  split_ifs
  · exact Nat.zero_le _
  · have hloop := Scan.count_loop_le loc alphabet text 0 ⟨[], [], none⟩
    generalize Scan.loop loc alphabet 0 text ⟨[], [], none⟩ = s at hloop
    have hzero : (⟨[], [], none⟩ : Scan).count = 0 := rfl
    rw [hzero, Nat.zero_add] at hloop
    have hsentence : ∀ t : Scan,
        t.sentence.sentences.flatten.length ≤ t.sentences.flatten.length + t.currSentence.length := fun t => by
      rw [Scan.sentence]
      split_ifs
      · simp
      · exact Nat.le_add_right _ _
    refine (hsentence _).trans (le_trans ?_ hloop)
    rw [Scan.count]
    cases hcur : s.currWord with
    | none => exact Nat.le_refl _
    | some w =>
      simp only [List.length_append, List.length_singleton, Option.isSome_some, if_true]
      omega

theorem lt_of_letterAt {k : ℕ} (h : LetterAt loc alphabet text k) : k < text.length := by
  obtain ⟨c, hc, -⟩ := h
  exact (List.getElem?_eq_some_iff.mp hc).1

/-- The words are those that are pushed in the loop and the one at hand behind it. -/
theorem process_words (loc : Locale) (alphabet : List UInt32) (text : WString) :
    ∃ ws : List TWord, process loc alphabet text = ws.splitBy (sameSentence loc text) ∧
      (∀ w, w ∈ ws ↔ ClosedRun (LetterAt loc alphabet text) w.ptr w.stop ∧ w.stop < text.length + 1) ∧
      ws.Pairwise (fun u v => u.stop < v.stop) := by
  obtain ⟨ws, h⟩ := (good_start loc alphabet text).loop text rfl
  rw [Nat.zero_add] at h
  rw [process]
  split_ifs with hempty
  · rw [hempty]
    refine ⟨[], (List.splitBy_nil _).symm, fun w => ?_, List.Pairwise.nil⟩
    refine iff_of_false List.not_mem_nil fun hw => ?_
    obtain ⟨k, -, hletter⟩ := hw.1.last
    exact Nat.not_lt_zero k (lt_of_letterAt hletter)
  · generalize Scan.loop loc alphabet 0 text ⟨[], [], none⟩ = s at h
    -- the last word may reach the end of the text
    cases hcur : s.currWord with
    | none =>
      refine ⟨ws, ?_, h.closed_none hcur, h.order⟩
      rw [h.groups]
      simp only [hcur, Scan.sentence]
      by_cases hne : s.currSentence = []
      · rw [if_neg (not_not.mpr hne), if_pos hne, List.append_nil]
      · rw [if_pos hne, if_neg hne]
    | some w =>
      have hlast : ¬ LetterAt loc alphabet text text.length := fun hl => Nat.lt_irrefl _ (lt_of_letterAt hl)
      obtain ⟨hclosed, horder⟩ := h.closed_push hcur hlast
      refine ⟨ws ++ [w], ?_, hclosed, horder⟩
      rw [h.push hcur]
      simp only [hcur, Scan.sentence]
      rw [if_pos (by simp)]

/-- **The tokenizer finds all words**: they are the maximal runs of letters, in order, and each is in
    the sentence of the one before unless `?`, `!` or `.` came in between. -/
theorem process_eq (loc : Locale) (alphabet : List UInt32) (text : WString) :
    ∃ ws : List TWord, process loc alphabet text = ws.splitBy (sameSentence loc text) ∧
      (∀ w, w ∈ ws ↔ ClosedRun (LetterAt loc alphabet text) w.ptr w.stop) ∧
      ws.Pairwise (fun u v => u.stop < v.ptr) := by
  obtain ⟨ws, hprocess, hclosed, horder⟩ := process_words loc alphabet text
  have hclosed' : ∀ w, w ∈ ws ↔ ClosedRun (LetterAt loc alphabet text) w.ptr w.stop := by
    intro w
    refine (hclosed w).trans (and_iff_left_of_imp fun hrun => ?_)
    obtain ⟨k, hk, hletter⟩ := hrun.last
    have := lt_of_letterAt hletter
    omega
  refine ⟨ws, hprocess, hclosed', horder.imp_of_mem fun hu hv hlt => ?_⟩
  exact ((hclosed' _).mp hu).before ((hclosed' _).mp hv) hlt

end

end Zapdos.Jamspell
