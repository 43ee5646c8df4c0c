/-
  Stems as words — how long a stem is, and the queries that are made of stems.

  A rule never makes a word empty, and only `-ic` makes it longer.  So words of up to 22 letters are
  always stemmed within the buffer, and the stems of a query are words, one for each word of it.
-/
import Zapdos.Search.BeginWith
import Zapdos.Search.KrovetzCache

namespace Zapdos.Search.KrovetzStemmer

open Zapdos.Lib Zapdos.Store

/-! ## Lengths -/

/-- Not empty, and no longer than this. -/
def Within (n : ℕ) (v : Bytes) : Prop := 0 < v.length ∧ v.length ≤ n

section

variable {d : DictTable} {w : Bytes}

/-- The dictionary knows no word of one letter. -/
theorem one_lt_of_lookup (h : lookup d w = true) : 1 < w.length := by
  by_contra hlen
  rw [lookup, getdep, if_pos (by omega)] at h
  exact Bool.false_ne_true h

/-- The first candidate in the dictionary is within the bound when all candidates and the default
    are. -/
theorem firstKnown_within {n : ℕ} {cs : List Bytes} {v : Bytes} (hcs : ∀ c ∈ cs, c.length ≤ n)
    (hv : Within n v) : Within n (firstKnown d cs v) := by
  induction cs with
  | nil => exact hv
  | cons c cs ih =>
    rw [firstKnown]
    split_ifs with hc
    · exact ⟨Nat.zero_lt_of_lt (one_lt_of_lookup hc), hcs c List.mem_cons_self⟩
    · exact ih fun c' hc' => hcs c' (List.mem_cons_of_mem _ hc')

/-- One letter less is not longer than the stem. -/
theorem length_singled {st c : Bytes} (h : c ∈ singled st) : c.length ≤ st.length := by
  unfold singled at h
  split_ifs at h
  · rw [List.mem_singleton.mp h, List.length_dropLast]
    omega
  · exact absurd h List.not_mem_nil

/-- A word is within its own length. -/
theorem within_self (hw : w ≠ []) : Within w.length w := ⟨List.length_pos_iff.mpr hw, le_rfl⟩

/-- A stem has a letter. -/
theorem stem_pos {suf st : Bytes} (h : stemOf suf w = some st) : 0 < st.length ∧ w = st ++ suf :=
  (stemOf_eq_some.mp h).imp_left List.length_pos_iff.mpr

/-- **The rules make no word longer**: that for plurals. -/
theorem plural_within (hw : w ≠ []) : Within w.length (pluralRule d w) := by
  unfold pluralRule
  cases hies : stemOf (str "ies") w with
  | some st =>
    obtain ⟨hpos, rfl⟩ := stem_pos hies
    refine firstKnown_within ?_ ?_ <;> simp [Within, str_eq]
  | none =>
    cases hes : stemOf (str "es") w with
    | some st =>
      obtain ⟨hpos, rfl⟩ := stem_pos hes
      simp only
      refine firstKnown_within (fun c hc => ?_) (by simp [Within, str_eq])
      split_ifs at hc <;> simp [str_eq] at hc ⊢ <;> rcases hc with rfl | rfl <;> simp
    | none =>
      simp only
      split_ifs with hlen
      · simp [Within]
        omega
      · exact within_self hw

/-- A rule for one suffix. -/
theorem suffix_within {suf : Bytes} {f : Bytes → Bytes} (hw : w ≠ [])
    (hf : ∀ st, 0 < st.length → w = st ++ suf → Within (st.length + suf.length) (f st)) :
    Within w.length (match stemOf suf w with
      | some st => f st
      | none => w) := by
  cases hst : stemOf suf w with
  | some st =>
    obtain ⟨hpos, rfl⟩ := stem_pos hst
    rw [List.length_append]
    exact hf st hpos rfl
  | none => exact within_self hw

/-- One letter less of the stem is not longer than the stem and a suffix. -/
theorem singled_le {st c : Bytes} (h : c ∈ singled st) (n : ℕ) : c.length ≤ st.length + n :=
  (length_singled h).trans (Nat.le_add_right _ _)

/-- That for `-ment`. -/
theorem ment_within (hw : w ≠ []) : Within w.length (mentRule d w) := by
  refine suffix_within hw fun st hpos hst => firstKnown_within ?_ ?_
  · simp
  · simp [Within, str_eq, hst]

/-- That for `-ize`. -/
theorem ize_within (hw : w ≠ []) : Within w.length (izeRule d w) := by
  refine suffix_within hw fun st hpos hst => firstKnown_within (fun c hc => ?_) ?_
  · simp only [List.mem_append, List.mem_singleton] at hc
    rcases hc with (rfl | hc) | rfl
    · omega
    · exact singled_le hc _
    · simp [str_eq]
  · simp [Within, str_eq, hst]

/-- That for `-al`. -/
theorem al_within (hw : w ≠ []) : Within w.length (alRule d w) := by
  refine suffix_within hw fun st hpos hst => firstKnown_within (fun c hc => ?_) ?_
  · simp only [List.mem_append, List.mem_cons, List.not_mem_nil, or_false] at hc
    rcases hc with (rfl | hc) | rfl | rfl
    · omega
    · exact singled_le hc _
    · simp [str_eq]
    · simp [str_eq]
  · split_ifs
    · refine firstKnown_within ?_ ⟨hpos, Nat.le_add_right _ _⟩
      simp [str_eq]
      omega
    · refine firstKnown_within ?_ ?_
      · simp
        omega
      · simp [Within, str_eq, hst]
    · simp [Within, str_eq, hst]

/-- That for `-ive`. -/
theorem ive_within (hw : w ≠ []) : Within w.length (iveRule d w) := by
  refine suffix_within hw fun st hpos hst => firstKnown_within (fun c hc => ?_) ?_
  · simp only [List.mem_append] at hc
    rcases hc with (hc | hc) | hc
    · simp at hc
      rcases hc with rfl | rfl <;> simp [str_eq]
    · split_ifs at hc <;> simp at hc
      rcases hc with rfl | rfl <;> simp [str_eq] <;> omega
    · simp at hc
      simp [hc, str_eq]
  · simp [Within, str_eq, hst]

/-- That for `-ly`. -/
theorem ly_within (hw : w ≠ []) : Within w.length (lyRule d w) := by
  refine suffix_within hw fun st hpos hst => firstKnown_within ?_ ?_
  · simp [str_eq]
  · split_ifs
    · exact ⟨hpos, Nat.le_add_right _ _⟩
    · simp [Within, str_eq]
    · refine firstKnown_within ?_ ⟨hpos, Nat.le_add_right _ _⟩
      simp [str_eq]
      omega
    · exact ⟨hpos, Nat.le_add_right _ _⟩

/-- That for `-ity`. -/
theorem ity_within (hw : w ≠ []) : Within w.length (ityRule d w) := by
  refine suffix_within hw fun st hpos hst => firstKnown_within ?_ ?_
  · simp [str_eq]
  · split_ifs
    · simp [Within, str_eq]
      omega
    · simp [Within, str_eq]
    · exact ⟨hpos, Nat.le_add_right _ _⟩
    · refine firstKnown_within ?_ ⟨hpos, Nat.le_add_right _ _⟩
      simp [hst]

/-- That for `-ble`. -/
theorem ble_within (hw : w ≠ []) : Within w.length (bleRule d w) := by
  refine suffix_within hw fun st hpos hst => ?_
  split_ifs
  · refine firstKnown_within (fun c hc => ?_) ?_
    · simp only [List.mem_append, List.mem_cons, List.not_mem_nil, or_false] at hc
      have hdrop : st.dropLast.length = st.length - 1 := List.length_dropLast
      rcases hc with (rfl | hc) | rfl | rfl
      · omega
      · have hsingle := length_singled hc
        omega
      · simp [str_eq]
        omega
      · simp [str_eq]
    · simp [Within, str_eq, hst]
  · simp [Within, str_eq, hst]

/-- That for `-ness`. -/
theorem ness_within (hw : w ≠ []) : Within w.length (nessRule w) := by
  refine suffix_within hw fun st hpos hst => ?_
  split_ifs
  · simp [Within, str_eq]
    omega
  · exact ⟨hpos, Nat.le_add_right _ _⟩

/-- That for `-ism`. -/
theorem ism_within (hw : w ≠ []) : Within w.length (ismRule w) :=
  suffix_within hw fun _ hpos _ => ⟨hpos, Nat.le_add_right _ _⟩

/-- That for `-ncy`. -/
theorem ncy_within (hw : w ≠ []) : Within w.length (ncyRule d w) := by
  refine suffix_within hw fun st hpos hst => ?_
  split_ifs
  · refine firstKnown_within ?_ ?_ <;> simp [Within, str_eq]
  · simp [Within, str_eq, hst]

/-- That for `-nce`. -/
theorem nce_within (hw : w ≠ []) : Within w.length (nceRule d w) := by
  refine suffix_within hw fun st hpos hst => ?_
  split_ifs
  · refine firstKnown_within ?_ ?_
    · simp [str_eq]
      omega
    · simp [Within, str_eq, hst]
  · simp [Within, str_eq, hst]

/-- The only rule that makes a word longer. -/
theorem ic_within (hw : w ≠ []) : Within (w.length + 2) (icRule d w) := by
  unfold icRule
  cases hst : stemOf (str "ic") w with
  | some st =>
    obtain ⟨hpos, rfl⟩ := stem_pos hst
    refine firstKnown_within ?_ ?_
    · simp [str_eq]
      omega
    · simp [Within, str_eq]
  | none => exact ⟨(within_self hw).1, Nat.le_add_right _ _⟩

/-- That for the past tense. -/
theorem pastTense_within (hw : w ≠ []) : Within w.length (pastTenseRule d w) := by
  unfold pastTenseRule
  split_ifs with hlen
  · exact within_self hw
  cases hied : stemOf (str "ied") w with
  | some st =>
    obtain ⟨hpos, rfl⟩ := stem_pos hied
    refine firstKnown_within ?_ ?_ <;> simp [Within, str_eq]
  | none =>
    refine suffix_within hw fun st hpos hst => ?_
    split_ifs
    · simp [Within, str_eq, hst]
    · simp [Within, str_eq]
    · exact ⟨hpos, Nat.le_add_right _ _⟩
    · refine firstKnown_within ?_ ⟨hpos, Nat.le_add_right _ _⟩
      simp
      omega
    · simp [Within, str_eq, hst]
    · simp [Within, str_eq]

/-- That for `-ing`. -/
theorem aspect_within (hw : w ≠ []) : Within w.length (aspectRule d w) := by
  unfold aspectRule
  split_ifs with hlen
  · exact within_self hw
  refine suffix_within hw fun st hpos hst => ?_
  split_ifs
  · simp [Within, str_eq, hst]
  · simp [Within, str_eq]
  · exact ⟨hpos, Nat.le_add_right _ _⟩
  · refine firstKnown_within ?_ ⟨hpos, Nat.le_add_right _ _⟩
    simp
    omega
  · exact ⟨hpos, Nat.le_add_right _ _⟩
  · simp [Within, str_eq]

/-- The candidates of a suffix are not longer than the word, if none is longer than the stem and the
    suffix. -/
theorem length_onSuffix {suf c : Bytes} {f : Bytes → List Bytes} (h : c ∈ onSuffix suf w f)
    (hf : ∀ st c, c ∈ f st → c.length ≤ st.length + suf.length) : c.length ≤ w.length := by
  unfold onSuffix at h
  cases hst : stemOf suf w with
  | some st =>
    obtain ⟨-, rfl⟩ := stem_pos hst
    rw [hst] at h
    rw [List.length_append]
    exact hf st c h
  | none =>
    rw [hst] at h
    exact absurd h List.not_mem_nil

/-- That for `-ion`. -/
theorem ion_within (hw : w ≠ []) : Within w.length (ionRule d w) := by
  unfold ionRule
  cases hst : stemOf (str "ization") w with
  | some st =>
    obtain ⟨hpos, rfl⟩ := stem_pos hst
    simp [Within, str_eq]
  | none =>
    refine firstKnown_within (fun c hc => ?_) (within_self hw)
    simp only [List.mem_append] at hc
    rcases hc with ((hc | hc) | hc) | hc <;> refine length_onSuffix hc fun st c hc => ?_
    · simp at hc
      simp [hc, str_eq]
    · simp at hc
      rcases hc with rfl | rfl | rfl <;> simp [str_eq]
    · simp at hc
      simp [hc, str_eq]
    · simp at hc
      rcases hc with rfl | rfl <;> simp [str_eq]

/-- That for `-er` or `-or`, behind the stem. -/
theorem erOr_within {st : Bytes} {c : UInt8} (hw : w ≠ []) (hlen : w.length = st.length + 2) :
    Within w.length (erOrRule d st c w) := by
  refine firstKnown_within (fun v hv => ?_) (within_self hw)
  simp only [List.mem_append] at hv
  rcases hv with ((hv | hv) | hv) | hv
  · have hsingle := length_singled hv
    omega
  · split_ifs at hv <;> simp at hv
    simp [hv, str_eq]
    omega
  · split_ifs at hv <;> simp at hv
    simp [hv]
    omega
  · simp at hv
    rcases hv with rfl | rfl | rfl
    · simp
      omega
    · omega
    · simp [str_eq]
      omega

/-- That for `-er` and `-or`. -/
theorem erAndOr_within (hw : w ≠ []) : Within w.length (erAndOrRule d w) := by
  unfold erAndOrRule
  cases hizer : stemOf (str "izer") w with
  | some st =>
    obtain ⟨hpos, rfl⟩ := stem_pos hizer
    simp [Within, str_eq]
  | none =>
    cases her : stemOf (str "er") w with
    | some st => exact erOr_within hw (by simp [(stem_pos her).2, str_eq])
    | none =>
      cases hor : stemOf (str "or") w with
      | some st => exact erOr_within hw (by simp [(stem_pos hor).2, str_eq])
      | none => exact within_self hw

/-! ## The stem -/

/-- Rules that make no word longer, one after the other. -/
theorem applyRules_within {n : ℕ} {rs : List (Bytes → Bytes)}
    (hrs : ∀ r ∈ rs, ∀ w, w ≠ [] → Within w.length (r w)) (hw : Within n w) :
    Within n (applyRules d rs w) := by
  induction rs generalizing w with
  | nil => exact hw
  | cons r rs ih =>
    rw [applyRules]
    split_ifs
    · exact hw
    · obtain ⟨hpos, hle⟩ := hrs r List.mem_cons_self w (List.length_pos_iff.mp hw.1)
      exact ih (fun r' hr' => hrs r' (List.mem_cons_of_mem _ hr')) ⟨hpos, hle.trans hw.2⟩

/-- No word is longer when it comes to the rule for `-ic`. -/
theorem beforeIc_within (hw : w ≠ []) : Within w.length (applyRules d (rulesBeforeIc d) w) := by
  refine applyRules_within (fun r hr => ?_) (within_self hw)
  simp only [rulesBeforeIc, List.mem_cons, List.not_mem_nil, or_false] at hr
  rcases hr with rfl | rfl | rfl | rfl | rfl | rfl | rfl | rfl | rfl | rfl | rfl | rfl | rfl | rfl
  · exact fun _ => plural_within
  · exact fun _ => pastTense_within
  · exact fun _ => aspect_within
  · exact fun _ => ity_within
  · exact fun _ => ness_within
  · exact fun _ => ion_within
  · exact fun _ => erAndOr_within
  · exact fun _ => ly_within
  · exact fun _ => al_within
  · exact fun _ => ive_within
  · exact fun _ => ize_within
  · exact fun _ => ment_within
  · exact fun _ => ble_within
  · exact fun _ => ism_within

/-- What the rules make of a word. -/
theorem ruleWord_within (hw : w ≠ []) : Within (w.length + 2) (ruleWord d w) := by
  rw [ruleWord, applyRules_append]
  obtain ⟨hpos, hle⟩ := beforeIc_within (d := d) hw
  generalize applyRules d (rulesBeforeIc d) w = v at hpos hle
  rw [applyRules]
  split_ifs
  · exact ⟨hpos, by omega⟩
  · obtain ⟨hic, hic'⟩ := ic_within (d := d) (List.length_pos_iff.mp hpos)
    refine applyRules_within (fun r hr => ?_) ⟨hic, by omega⟩
    simp only [rulesAfterIc, List.mem_cons, List.not_mem_nil, or_false] at hr
    rcases hr with rfl | rfl
    · exact fun _ => ncy_within
    · exact fun _ => nce_within

/-- Short words have room. -/
theorem not_overruns (hw : w ≠ []) (hlen : w.length + 3 ≤ maxWordLength) : ¬ Overruns d w := by
  intro h
  have hle := (beforeIc_within (d := d) hw).2
  have hlong := h.2.2
  omega

/-- No root is empty: an empty one stands for the word itself. -/
theorem rootOf_ne_nil (hw : w ≠ []) : rootOf d w ≠ [] := by
  unfold rootOf
  split
  · exact hw
  · split_ifs with hroot
    · exact hroot
    · exact hw

/-- A stem is never empty. -/
theorem stemSpec_ne_nil {term stem : Bytes} (hterm : term ≠ []) (h : stemSpec d term = some stem) :
    stem ≠ [] := by
  have hlow : term.map toLower ≠ [] := by simpa using hterm
  unfold stemSpec at h
  split_ifs at h <;> cases h
  · exact hlow
  · exact rootOf_ne_nil (List.length_pos_iff.mp (ruleWord_within hlow).1)

end

/-! ## Queries -/

section

variable (d : DictTable)

/-- `StemQuery` with the stemmer that it calls. -/
def stemQueryRun (notlast : Bool) : Stemmer → List Bytes → Option (Stemmer × Bytes)
  | o, [] => some (o, [])
  | o, it :: words => do
    let toStem := (it.length ≥ xapMinStemLen : Bool) && !(notlast && words.isEmpty)
    let (o, nword) ← if toStem then kstemStemmer d o (it.take 25) else some (o, it)
    let (o, out) ← stemQueryRun notlast o words
    return (o, nword ++ (if words.length > 0 then [32] else []) ++ out)

/-- The stemmer as a function of the word. -/
def kstemOf (term : Bytes) : Bytes := (stemSpec d term).getD []

/-- No word of the text is too long for the stemmer's buffer. -/
def InRoom (text : Bytes) : Prop :=
  ∀ w ∈ lowerNoQuote text, xapMinStemLen ≤ w.length → (stemSpec d (w.take 25)).isSome = true

end

section

variable {d : DictTable}

/-- Words of up to 22 characters are never too long. -/
theorem inRoom_of_short {text : Bytes} (h : ∀ w ∈ lowerNoQuote text, w.length ≤ 22) : InRoom d text := by
  intro w hw _
  have hlen := h w hw
  have hne := (isWord_of_mem hw).ne_nil
  rw [List.take_of_length_le (by omega), stemSpec]
  split_ifs with ht hover
  · rfl
  · refine absurd hover (not_overruns (by simpa using hne) ?_)
    rw [List.length_map, maxWordLength]
    omega
  · rfl

theorem stemQueryRun_computes (hd : RootsListed d) (notlast : Bool) {words : List Bytes}
    (hroom : ∀ w ∈ words, xapMinStemLen ≤ w.length → (stemSpec d (w.take 25)).isSome = true)
    {o : Stemmer} (ho : o.Sound d) :
    ∃ o', stemQueryRun d notlast o words = some (o', stemQueryLoop (kstemOf d) notlast words) ∧
      o'.Sound d := by
  induction words generalizing o with
  | nil => exact ⟨o, rfl, ho⟩
  | cons it words ih =>
    have htail := fun w hw => hroom w (List.mem_cons_of_mem it hw)
    rw [stemQueryRun, stemQueryLoop]
    simp only
    -- the last word stays when `notlast`, short words always
    by_cases hstem : ((it.length ≥ xapMinStemLen : Bool) && !(notlast && words.isEmpty)) = true
    · have hlong : xapMinStemLen ≤ it.length := by simpa using (Bool.and_eq_true_iff.mp hstem).1
      obtain ⟨stem, hspec⟩ := Option.isSome_iff_exists.mp (hroom it List.mem_cons_self hlong)
      have hstep := kstemStemmer_computes hd o (it.take 25) ho
      rw [hspec] at hstep
      obtain ⟨o₁, hstep, ho₁⟩ := hstep
      obtain ⟨o₂, hrun, ho₂⟩ := ih htail ho₁
      rw [if_pos hstem, if_pos hstem, stemWord, kstemOf, hspec, hstep]
      exact ⟨o₂, by rw [Option.bind_eq_bind, Option.bind_some, hrun]; rfl, ho₂⟩
    · obtain ⟨o₂, hrun, ho₂⟩ := ih htail ho
      rw [if_neg hstem, if_neg hstem]
      exact ⟨o₂, by rw [Option.bind_eq_bind, Option.bind_some, hrun]; rfl, ho₂⟩

/-- Lower-case letters are word characters. -/
theorem isAlnum_of_isLower {c : UInt8} (h : isLower c = true) : isAlnum c = true ∧ toLower c = c := by
  rw [isLower, Bool.and_eq_true, decide_eq_true_eq, decide_eq_true_eq] at h
  have hupper : ¬ (65 ≤ c.toNat ∧ c.toNat ≤ 90) := by omega
  refine ⟨?_, if_neg hupper⟩
  rw [isAlnum, Bool.or_eq_true, Bool.and_eq_true, decide_eq_true_eq, decide_eq_true_eq]
  exact Or.inr h

/-- Stems are words. -/
theorem isWord_stemmed (hd : RootsListed d) {w : Bytes} (hw : IsWord w)
    (hroom : xapMinStemLen ≤ w.length → (stemSpec d (w.take 25)).isSome = true) :
    IsWord (stemmed (kstemOf d) w) := by
  rw [stemmed]
  split_ifs with hlen
  · obtain ⟨stem, hspec⟩ := Option.isSome_iff_exists.mp (hroom hlen)
    rw [stemWord, kstemOf, hspec, Option.getD_some]
    have hne : w.take 25 ≠ [] := by
      rw [Ne, List.take_eq_nil_iff]
      exact fun h => h.elim (by decide) hw.ne_nil
    refine ⟨stemSpec_ne_nil hne hspec, fun c hc => ?_⟩
    -- a cut word with digits is not stemmed
    by_cases ht : stemIt (w.take 25) = true
    · exact isAlnum_of_isLower ((listed_of_stemSpec hd ht hspec).1 c hc)
    · rw [stemSpec, if_pos (by simpa using ht)] at hspec
      cases hspec
      obtain ⟨b, hb, rfl⟩ := List.mem_map.mp hc
      exact isAlnum_toLower (hw.alnum b (List.mem_of_mem_take hb)).1
  · exact hw

/-- **A stemmer answers the stems of its words**, whatever it was asked before; and it writes beyond its
    buffer exactly when one of the words is too long for its last steps. -/
theorem kstemStemmer_run (l : WordLists) (terms : List Bytes) :
    (Memo.run (kstemStemmer (loadTables l)) Stemmer.new terms).map Prod.snd =
      terms.mapM (stemSpec (loadTables l)) :=
  (kstemStemmer_computes (loadTables_rootsListed l)).run_answers sound_new terms

/-- **Short words always have room**: a term of 3 to 22 letters is stemmed to a word of letters,
    whatever the word lists are. -/
theorem stemSpec_of_short (l : WordLists) {term : Bytes} (ht : stemIt term = true) (hlen : term.length ≤ 22) :
    ∃ stem, stemSpec (loadTables l) term = some stem ∧ Listed stem ∧ stem ≠ [] := by
  have hne : term ≠ [] := by
    have hthree := (stemIt_iff.mp ht).1
    rintro rfl
    exact absurd hthree (by decide)
  have hroom : ¬ Overruns (loadTables l) (term.map toLower) := by
    refine not_overruns (by simpa using hne) ?_
    rw [List.length_map, maxWordLength]
    omega
  have hspec : stemSpec (loadTables l) term = some (stemOfWord (loadTables l) (term.map toLower)) := by
    rw [stemSpec, if_neg (by simpa using ht), if_neg hroom]
  exact ⟨_, hspec, listed_of_stemSpec (loadTables_rootsListed l) ht hspec, stemSpec_ne_nil hne hspec⟩

/-- A dictionary of three words. -/
def sampleLists : WordLists where
  exceptions := []
  headwords := [str "listen", str "room"]
  conflations := [(str "italian", str "italy")]
  stems_listed := by decide +kernel

theorem stemSpec_of_short_rooms :
    ∃ stem, stemSpec (loadTables sampleLists) (str "Rooms") = some stem ∧ Listed stem ∧ stem ≠ [] :=
  stemSpec_of_short sampleLists (by decide +kernel) (by decide +kernel)

/-- A word of 23 letters in `-ic` has no room for its `-ical`. -/
example : stemSpec (loadTables sampleLists) (str "electroencephalographic") = none := by decide +kernel

/-- **A query is stemmed the same way after any earlier words**, one stem for each of its words. -/
theorem stemQuery_run (l : WordLists) {input : Bytes} (notlast : Bool)
    (hroom : InRoom (loadTables l) input) {terms answers : List Bytes} {o : Stemmer}
    (ho : Memo.run (kstemStemmer (loadTables l)) Stemmer.new terms = some (o, answers)) :
    ∃ o', stemQueryRun (loadTables l) notlast o (lowerNoQuote input) =
      some (o', stemQuery (kstemOf (loadTables l)) input notlast) := by
  have hd := loadTables_rootsListed l
  -- whatever was asked before, the cache holds stems only
  have hsound : o.Sound (loadTables l) := by
    have hrun := (kstemStemmer_computes hd).run sound_new terms
    cases hspec : terms.mapM (stemSpec (loadTables l)) with
    | none =>
      rw [hspec, ho] at hrun
      cases hrun
    | some bs =>
      rw [hspec, ho] at hrun
      obtain ⟨o', heq, ho'⟩ := hrun
      cases heq
      exact ho'
  obtain ⟨o', hrun, -⟩ := stemQueryRun_computes hd notlast hroom hsound
  exact ⟨o', hrun⟩

theorem stemQuery_run_italians : ∃ o answers o',
    Memo.run (kstemStemmer (loadTables sampleLists)) Stemmer.new [str "Italians"] = some (o, answers) ∧
    stemQueryRun (loadTables sampleLists) false o (lowerNoQuote (str "the room listened")) =
      some (o', stemQuery (kstemOf (loadTables sampleLists)) (str "the room listened") false) := by
  obtain ⟨⟨o, answers⟩, hrun⟩ := Option.isSome_iff_exists.mp (show
    (Memo.run (kstemStemmer (loadTables sampleLists)) Stemmer.new [str "Italians"]).isSome = true by
      decide +kernel)
  have hroom : InRoom (loadTables sampleLists) (str "the room listened") := inRoom_of_short (by decide +kernel)
  obtain ⟨o', hquery⟩ := stemQuery_run sampleLists false hroom hrun
  exact ⟨o, answers, o', hrun, hquery⟩

/-- **A name is found by its beginning** exactly when its first part has a word. -/
theorem beginTerm_mem_iff_word (l : WordLists) {name : Bytes} (hroom : InRoom (loadTables l) name) :
    beginTerm (kstemOf (loadTables l)) name ∈ beginTerms (kstemOf (loadTables l)) true name ↔
      lowerNoQuote (firstPart name) ≠ [] := by
  rw [beginTerm_mem_iff]
  obtain ⟨ws', hcut⟩ := lowerNoQuote_firstPart name
  constructor
  · rintro ⟨w, ws, hwords, -⟩
    rw [hwords]
    exact List.cons_ne_nil w ws
  · intro hne
    obtain ⟨w, ws, hwords⟩ := List.exists_cons_of_ne_nil hne
    have hw : w ∈ lowerNoQuote name := by
      rw [hcut, hwords]
      exact List.mem_cons_self
    have hword := isWord_stemmed (loadTables_rootsListed l) (isWord_of_mem hw) (hroom w hw)
    exact ⟨w, ws, hwords, Or.inl hword.noSpace⟩

theorem beginTerm_mem_italian :
    beginTerm (kstemOf (loadTables sampleLists)) (str "Italian rooms") ∈
      beginTerms (kstemOf (loadTables sampleLists)) true (str "Italian rooms") :=
  (beginTerm_mem_iff_word sampleLists (inRoom_of_short (by decide +kernel))).mpr (by decide +kernel)

/-- **A record is matched by its own name** when no two neighbouring stems of it are joined. -/
theorem local_matched_of_apart (l : WordLists) {gh : GeoHash} {record : ItemDataT} {doc : Document}
    (hlang : record.lang = langEn)
    (hdoc : createDocLocal (kstemOf (loadTables l)) gh record = some doc)
    (hroom : InRoom (loadTables l) record.fldName)
    (hapart : ((lowerNoQuote record.fldName).map (stemmed (kstemOf (loadTables l)))).IsChain
      (fun v w => joins v w = none)) :
    ∀ t ∈ queryTerms (kstemOf (loadTables l)) true record.fldName, t ∈ doc.terms := by
  have hstem : ∀ w ∈ lowerNoQuote record.fldName, IsWord (stemmed (kstemOf (loadTables l)) w) :=
    fun w hw => isWord_stemmed (loadTables_rootsListed l) (isWord_of_mem hw) (hroom w hw)
  exact local_matched _ hlang hdoc (joinsPosted_of_apart _ hstem hapart)

theorem local_matched_of_apart_rooms : ∃ gh doc,
    createDocLocal (kstemOf (loadTables sampleLists)) gh { fldName := str "Listening Rooms" } = some doc ∧
    ∀ t ∈ queryTerms (kstemOf (loadTables sampleLists)) true (str "Listening Rooms"), t ∈ doc.terms := by
  have hdoc : createDocLocal (kstemOf (loadTables sampleLists)) ⟨fun _ _ => .error ⟨.badData, [], 0⟩, fun _ _ => []⟩
      { fldName := str "Listening Rooms" } = some _ := rfl
  exact ⟨_, _, hdoc, local_matched_of_apart sampleLists rfl hdoc (inRoom_of_short (by decide +kernel))
    (by decide +kernel)⟩

end

end Zapdos.Search.KrovetzStemmer
