/-
  Ranking — in which order a response lists its results.

  Rules come by weight.  Inside a rule, scores that are `1/10000` apart decide: by importance in the
  default order; by slab and then by clamped importance in the orders by distance, where the score is
  a fixed maximum less the slab key.  The text of a score keeps that order but for one case: a score
  that rounds below zero wraps around to the largest codes and is listed before the others.

  The slabs of the specification are cut from the distance itself; the code first stores the rounded
  distance into an `int`.
-/
import Zapdos.Search.SearchRuns

namespace Zapdos.Search

open Zapdos.Lib Zapdos.Store

/-! ## What the order should be -/

/-- The slab of a distance, no matter how large. -/
def slabOf (km : DistanceSlabKeyMaker) : Option ℚ → ℤ
  | none => 1 + km.defdist / km.slab
  | some d => 1 + min (llround d) km.maxdist / km.slab

/-- The slab of a hit. -/
def hitSlab (eng : Engine) (qr : UsedParamsT) (h : Hit) : ℤ :=
  slabOf (ruleKeyMaker qr h.rule) (distanceOf eng qr h.doc)

/-- `a` is a better result than `b` of the same rule: of higher importance or, by distance, in a
    nearer slab, ties inside a slab by higher clamped importance. -/
def Better (eng : Engine) (qr : UsedParamsT) (a b : Hit) : Prop :=
  if byDistance a.rule then
    hitSlab eng qr a < hitSlab eng qr b ∨
      (hitSlab eng qr a = hitSlab eng qr b ∧
        DistanceSlabKeyMaker.valO b.doc.importance < DistanceSlabKeyMaker.valO a.doc.importance)
  else b.doc.importance < a.doc.importance

/-- `a` may be listed before `b`. -/
def InOrder (eng : Engine) (qr : UsedParamsT) (a b : Hit) : Prop :=
  b.rule.weight ≤ a.rule.weight ∧
    (a.ruleNo = b.ruleNo → 1 / 10000 ≤ |a.score - b.score| → Better eng qr a b)

/-- The hits that a request answers with. -/
def answered (eng : Engine) (dbs : Int → Int → List Document) (user : UserDataT) (queryType : Int)
    (qr : UsedParamsT) : List Hit :=
  kept Hit.id Hit.key (visitedBy eng dbs user queryType qr)

/-- A response in ranking order. -/
def Ranked (eng : Engine) (qr : UsedParamsT) (hits : List Hit) (resp : List ℕ) : Prop :=
  resp.Pairwise (fun i j => ∀ a ∈ hits, ∀ b ∈ hits, a.id = i → b.id = j → InOrder eng qr a b)

/-! ## When it is -/

/-- No number of a hit overflows: the score's code stays in 64 bits, the rounded distance in 32. -/
def Fits (eng : Engine) (qr : UsedParamsT) (h : Hit) : Prop :=
  ScoreInRange h.score ∧
    (byDistance h.rule → ∀ d ∈ distanceOf eng qr h.doc, llround d < 2 ^ 31)

/-- Two results of one rule, at least `1/10000` apart, of which only the lower rounds below zero. -/
def Straddles (a b : Hit) : Prop :=
  a.ruleNo = b.ruleNo ∧ b.score + 1 / 10000 ≤ a.score ∧
    b.score ≤ -(1 / 20000) ∧ -(1 / 20000) < a.score

/-! ## Scores and slabs -/

/-- A distance that fits an `int` is in the slab it should be in. -/
theorem dslab_eq_slabOf (km : DistanceSlabKeyMaker) {d : Option ℚ} (hnn : ∀ x ∈ d, 0 ≤ x)
    (hfit : ∀ x ∈ d, llround x < 2 ^ 31) : km.dslab d = slabOf km d := by
  cases d with
  | none => rfl
  | some x =>
    have hr := llround_nonneg (hnn x rfl)
    have hlt := hfit x rfl
    have hmax := km.maxdist_bounds.1
    have hint : toInt32 (llround x) = llround x := by
      unfold toInt32
      rw [Int.bmod_eq_of_le (by omega) (by omega)]
    have hdist : km.dist (some x) = min (llround x) km.maxdist := by
      show keepInBound (toInt32 (llround x)) 0 km.maxdist = _
      rw [hint]
      unfold keepInBound
      split_ifs <;> omega
    unfold DistanceSlabKeyMaker.dslab slabOf
    rw [hdist]

/-- **A higher score is a better result.** -/
theorem better_of_score_lt {eng : Engine} {qr : UsedParamsT} {a b : Hit}
    (hmetric : ∀ p q, 0 ≤ eng.metric p q) (hrule : a.rule = b.rule)
    (ha : a.score = scoreOf eng qr a.rule a.doc) (hb : b.score = scoreOf eng qr b.rule b.doc)
    (hfa : Fits eng qr a) (hfb : Fits eng qr b) (hlt : b.score < a.score) : Better eng qr a b := by
  have hnn : ∀ d : Document, ∀ x ∈ distanceOf eng qr d, 0 ≤ x := by
    intro d x hx
    unfold distanceOf at hx
    obtain ⟨p, -, rfl⟩ := Option.map_eq_some_iff.mp hx
    exact hmetric _ _
  rw [ha, hb, ← hrule] at hlt
  unfold Better
  unfold scoreOf at hlt
  by_cases hd : byDistance a.rule
  · rw [if_pos hd, if_pos hd] at hlt
    rw [if_pos hd]
    have hda := dslab_eq_slabOf (ruleKeyMaker qr a.rule) (hnn a.doc) (hfa.2 hd)
    have hdb := dslab_eq_slabOf (ruleKeyMaker qr b.rule) (hnn b.doc) (hfb.2 (hrule ▸ hd))
    rw [← hrule] at hdb
    unfold hitSlab
    rw [← hrule, ← hda, ← hdb]
    unfold DistanceSlabKeyMaker.sortKey at hlt
    generalize (ruleKeyMaker qr a.rule).dslab (distanceOf eng qr a.doc) = m at hlt ⊢
    generalize (ruleKeyMaker qr a.rule).dslab (distanceOf eng qr b.doc) = n at hlt ⊢
    have hva := DistanceSlabKeyMaker.valO_bounds a.doc.importance
    have hvb := DistanceSlabKeyMaker.valO_bounds b.doc.importance
    unfold xapDslabMaxImportance at hlt
    push_cast at hlt
    rcases lt_trichotomy m n with hmn | rfl | hmn
    · exact Or.inl hmn
    · exact Or.inr ⟨rfl, by linarith⟩
    · -- a whole slab outweighs any importance
      have hcast : (n : ℚ) + 1 ≤ m := by exact_mod_cast hmn
      linarith [hva.2, hvb.1]
  · rw [if_neg hd, if_neg hd] at hlt
    rw [if_neg hd]
    exact hlt

theorem Better.asymm {eng : Engine} {qr : UsedParamsT} {a b : Hit} (hrule : a.rule = b.rule)
    (h : Better eng qr a b) : ¬ Better eng qr b a := by
  unfold Better at h ⊢
  rw [← hrule]
  split_ifs at h ⊢ with hd
  · rintro (hlt | ⟨heq, hlt⟩)
    · rcases h with h | ⟨h, -⟩ <;> omega
    · rcases h with h | ⟨-, h⟩
      · omega
      · exact absurd hlt (not_lt_of_gt h)
  · exact not_lt_of_gt h

/-! ## The order of a response -/

section

variable {eng : Engine} {dbs : Int → Int → List Document} {user : UserDataT} {queryType : Int}
  {qr : UsedParamsT}

theorem of_mem_answered {h : Hit} (hh : h ∈ answered eng dbs user queryType qr) :
    ∃ qprof, getExterProfile user queryType = some qprof ∧
      qprof.rules[h.ruleNo]? = some h.rule ∧ h.score = scoreOf eng qr h.rule h.doc :=
  of_mem_visitedBy (mem_of_mem_firsts (mem_of_mem_kept hh))

/-- Hits of one place in the profile are hits of one rule. -/
theorem rule_eq_of_ruleNo_eq {a b : Hit} (ha : a ∈ answered eng dbs user queryType qr)
    (hb : b ∈ answered eng dbs user queryType qr) (h : a.ruleNo = b.ruleNo) : a.rule = b.rule := by
  obtain ⟨p, hp, hpa, -⟩ := of_mem_answered ha
  obtain ⟨q, hq, hqb, -⟩ := of_mem_answered hb
  rw [hp] at hq
  cases hq
  rw [h, hqb] at hpa
  exact (Option.some.inj hpa).symm

theorem weight_le {h : Hit} (hweight : ∀ p ∈ user.profiles, ∀ r ∈ p.rules, r.weight ≤ 1000)
    (hh : h ∈ answered eng dbs user queryType qr) : h.rule.weight ≤ 1000 := by
  obtain ⟨p, hp, hrule, -⟩ := of_mem_answered hh
  unfold getExterProfile at hp
  split_ifs at hp
  exact hweight p (List.mem_of_find?_eq_some hp) h.rule (List.mem_of_getElem? hrule)

/-- Keys of one rule compare by what follows the weight. -/
theorem key_lt_iff {a b : Hit} (hrule : a.rule = b.rule) :
    b.key < a.key ↔ codeText b.score b.id < codeText a.score a.id := by
  unfold Hit.key
  rw [encodeSortKey_lt_iff, hrule]
  simp

/-- Two hits whose keys are in order are in order, unless they straddle zero. -/
theorem inOrder_of_key_lt {a b : Hit} (hmetric : ∀ p q, 0 ≤ eng.metric p q)
    (hweight : ∀ p ∈ user.profiles, ∀ r ∈ p.rules, r.weight ≤ 1000)
    (ha : a ∈ answered eng dbs user queryType qr) (hb : b ∈ answered eng dbs user queryType qr)
    (hfa : Fits eng qr a) (hfb : Fits eng qr b) (hstr : ¬ Straddles b a) (hlt : b.key < a.key) :
    InOrder eng qr a b := by
  constructor
  · have hwa := weight_le hweight ha
    have hwb := weight_le hweight hb
    unfold Hit.key at hlt
    rw [encodeSortKey_lt_iff] at hlt
    unfold drBuffMax at hlt
    omega
  · intro hno hgap
    have hrule := rule_eq_of_ruleNo_eq ha hb hno
    obtain ⟨-, -, -, hsa⟩ := of_mem_answered ha
    obtain ⟨-, -, -, hsb⟩ := of_mem_answered hb
    rw [key_lt_iff hrule] at hlt
    refine better_of_score_lt hmetric hrule hsa hsb hfa hfb ?_
    by_contra hle
    -- then `b` scores higher by the gap, and its key would be the larger one
    have hgap' : a.score + 1 / 10000 ≤ b.score := by
      rw [abs_of_nonpos (by linarith)] at hgap
      linarith
    have hcode : codeText a.score a.id < codeText b.score b.id := by
      rw [codeText_lt_iff hfb.1 hfa.1 hgap']
      rintro ⟨h1, h2⟩
      exact hstr ⟨hno.symm, hgap', h1, h2⟩
    exact lt_asymm hlt hcode

/-- Two answered hits that straddle zero are answered in the wrong order. -/
theorem key_lt_of_straddles {a b : Hit} (ha : a ∈ answered eng dbs user queryType qr)
    (hb : b ∈ answered eng dbs user queryType qr) (hfa : Fits eng qr a) (hfb : Fits eng qr b)
    (h : Straddles a b) : a.key < b.key := by
  obtain ⟨hno, hgap, h1, h2⟩ := h
  have hrule := rule_eq_of_ruleNo_eq ha hb hno
  have hnot : ¬ codeText b.score b.id < codeText a.score a.id := by
    rw [codeText_lt_iff hfa.1 hfb.1 hgap]
    exact not_not.mpr ⟨h1, h2⟩
  have hne : a.key ≠ b.key := by
    intro hkey
    have heq : a = b := eq_of_mem_kept_of_key ha hb hkey
    rw [heq] at hgap
    linarith
  rcases lt_trichotomy a.key b.key with hlt | heq | hlt
  · exact hlt
  · exact absurd heq hne
  · exact absurd ((key_lt_iff hrule).mp hlt) hnot

end

/-! ## The slab at the distance limit -/

instance (eng : Engine) (qr : UsedParamsT) (a b : Hit) : Decidable (Better eng qr a b) :=
  inferInstanceAs (Decidable (if byDistance a.rule then
    hitSlab eng qr a < hitSlab eng qr b ∨
      (hitSlab eng qr a = hitSlab eng qr b ∧
        DistanceSlabKeyMaker.valO b.doc.importance < DistanceSlabKeyMaker.valO a.doc.importance)
    else b.doc.importance < a.doc.importance))

instance (eng : Engine) (qr : UsedParamsT) (a b : Hit) : Decidable (InOrder eng qr a b) :=
  instDecidableAnd

instance (eng : Engine) (qr : UsedParamsT) (h : Hit) : Decidable (Fits eng qr h) :=
  inferInstanceAs (Decidable ((_ ∧ _) ∧ (_ → ∀ d ∈ distanceOf eng qr h.doc, llround d < 2 ^ 31)))

instance (a b : Hit) : Decidable (Straddles a b) := instDecidableAnd

/-- A profile with one rule by distance that puts documents without a position at the distance
    limit. -/
def oneBand (band : ℤ) : UserDataT :=
  { profiles := [⟨1, [{ weight := 5, maxRecords := 10, orderType := oDistBand, distanceBand := band,
                        distanceDef := 400000 }]⟩] }

/-- A query of one word, asked at the origin. -/
def atOrigin : UsedParamsT := { rawQuery := str "inn ", items := 10 }

/-- A document at the origin and one without a position. -/
def nearAndNowhere : Int → Int → List Document :=
  fun _ _ => [{ importance := 50, rocksid := 7, latlon := some (0, 0) },
              { importance := 50, rocksid := 8 }]

end Zapdos.Search
