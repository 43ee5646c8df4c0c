/-
  Completeness — which results a response loses.

  The response lists the ids in a map keyed by weight, score and id.  The key clamps the weight and
  the id to `DR_BUFF_MAX`, so two documents of one clamped weight and one score code whose ids both
  reach it have one key, and the map keeps the first of them only.
-/
import Zapdos.Search.SearchRuns

namespace Zapdos.Search

open Zapdos.Lib Zapdos.Store

/-- What a response should be: every id that was found, once; and two ids that one rule finds with
    one score have two keys. -/
def Complete (found : List Hit) (resp : List ℕ) : Prop :=
  resp.Nodup ∧ (∀ id, id ∈ resp ↔ ∃ h ∈ found, h.id = id) ∧
    ∀ a ∈ firsts Hit.id [] found, ∀ b ∈ firsts Hit.id [] found,
      a.ruleNo = b.ruleNo → a.score = b.score → a.id ≠ b.id → a.key ≠ b.key

/-- Two hits the encoding cannot tell apart. -/
def Clash (a b : Hit) : Prop :=
  drBuffMax ≤ a.id ∧ drBuffMax ≤ b.id ∧
    min a.rule.weight drBuffMax = min b.rule.weight drBuffMax ∧
    makeSortKeyDouble a.score = makeSortKeyDouble b.score

instance (a b : Hit) : Decidable (Clash a b) := instDecidableAnd

/-- Hits of different documents share a key exactly when they clash. -/
theorem key_eq_iff_clash {a b : Hit} (h : a.id ≠ b.id) : a.key = b.key ↔ Clash a b := by
  unfold Hit.key Clash
  rw [encodeSortKey_inj]
  constructor
  · rintro ⟨hw, hs, hi⟩
    exact ⟨by omega, by omega, hw, hs⟩
  · rintro ⟨ha, hb, hw, hs⟩
    exact ⟨hw, hs, by omega⟩

/-- **No search result lost or duplicated**, exactly when no two fresh hits clash. -/
theorem search_complete_iff (eng : Engine) (dbs : Int → Int → List Document) (user : UserDataT)
    (queryType : Int) (qr : UsedParamsT) (resp : List ℕ)
    (hok : searchByProfile eng dbs user queryType qr = .ok resp)
    (hrun : ¬ StopsEarly eng dbs user queryType qr) :
    Complete (foundBy eng dbs user queryType qr) resp ↔
      ∀ a ∈ firsts Hit.id [] (foundBy eng dbs user queryType qr),
        ∀ b ∈ firsts Hit.id [] (foundBy eng dbs user queryType qr), a.id ≠ b.id → ¬ Clash a b := by
  have hresp := searchByProfile_eq hok
  rw [visitedBy_eq hrun] at hresp
  generalize foundBy eng dbs user queryType qr = found at hresp
  subst hresp
  constructor
  · rintro ⟨-, hall, -⟩ a ha b hb hne hclash
    have hmem : ∀ h ∈ found, h.id ∈ answer Hit.id Hit.key found := by
      intro h hh
      exact (hall h.id).mpr ⟨h, hh, rfl⟩
    have heq := (answer_complete_iff Hit.id Hit.key found).mp hmem a ha b hb
      ((key_eq_iff_clash hne).mpr hclash)
    exact hne (congrArg Hit.id heq)
  · intro hclash
    have hinj : ∀ a ∈ firsts Hit.id [] found, ∀ b ∈ firsts Hit.id [] found, a.key = b.key → a = b := by
      intro a ha b hb hkey
      by_cases hab : a.id = b.id
      · exact eq_of_mem_firsts ha hb hab
      · exact absurd ((key_eq_iff_clash hab).mp hkey) (hclash a ha b hb hab)
    refine ⟨answer_nodup Hit.id Hit.key found, ?_, ?_⟩
    · intro id
      constructor
      · intro hid
        obtain ⟨h, hh, rfl⟩ := mem_answer.mp hid
        exact ⟨h, mem_of_mem_firsts (mem_of_mem_kept hh), rfl⟩
      · rintro ⟨h, hh, rfl⟩
        exact (answer_complete_iff Hit.id Hit.key found).mpr hinj h hh
    · intro a ha b hb _ _ hne hkey
      exact hclash a ha b hb hne ((key_eq_iff_clash hne).mp hkey)

/-! ## Two ids, one key -/

/-- Two documents of one importance. -/
def twoDocs (i j : ℕ) : Int → Int → List Document :=
  fun _ _ => [{ importance := 1, rocksid := i }, { importance := 1, rocksid := j }]

theorem search_complete_small :
    Complete (foundBy findAll (twoDocs 7 8) oneRule 1 oneWord) [8, 7] :=
  (search_complete_iff findAll (twoDocs 7 8) oneRule 1 oneWord [8, 7] (by decide +kernel)
    (by decide +kernel)).mpr (by decide +kernel)

/-- The document with the id 2147483648 is found and not answered. -/
theorem result_lost :
    searchByProfile findAll (twoDocs 2147483647 2147483648) oneRule 1 oneWord = .ok [2147483647] ∧
      ¬ StopsEarly findAll (twoDocs 2147483647 2147483648) oneRule 1 oneWord ∧
      ¬ Complete (foundBy findAll (twoDocs 2147483647 2147483648) oneRule 1 oneWord)
        [2147483647] := by
  refine ⟨by decide +kernel, by decide +kernel, ?_⟩
  rintro ⟨-, hall, -⟩
  have hfound : ∃ h ∈ foundBy findAll (twoDocs 2147483647 2147483648) oneRule 1 oneWord,
      h.id = 2147483648 := by decide +kernel
  exact absurd ((hall 2147483648).mpr hfound) (by decide)

end Zapdos.Search
