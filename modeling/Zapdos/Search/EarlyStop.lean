/-
  Stopping the rule loop early does not show.

  `SearchByProfile` leaves its rule loop before a rule that is lighter than the one before it, once
  `counter` ids were collected.  Beside it stands here the search that runs every rule.  The rules of
  a stored profile are in descending order of weight, and the weight decides first when the results
  are ordered, so what the loop leaves out sorts after the first `counter` ids.
-/
import Zapdos.Search.Completeness
import Zapdos.Store.QueryProfiles

namespace Zapdos.Search

open Zapdos.Lib Zapdos.Store

section

variable (eng : Engine) (dbs : Int → Int → List Document)

/-! ## The search that runs every rule -/

/-- The loop over the rules without its break. -/
def allRulesLoop (qr : UsedParamsT) : List QueryRuleT → Merged → Merged
  | [], m => m
  | rule :: rules, m =>
    allRulesLoop qr rules ((ruleSearch eng dbs qr rule).foldl (addFound rule) m)

/-- The two passes, each with every rule. -/
def Request.allPasses (s : Request) : Merged :=
  let first := allRulesLoop eng dbs s.params s.rules ⟨[], OrdMap.empty⟩
  if s.corrected.isEmpty || first.idset.length > 0 then first
  else allRulesLoop eng dbs (s.correctedParams eng) s.rules first

/-- The ids of the response when every rule is run. -/
def Request.fullResponse (s : Request) : List ℕ :=
  (s.allPasses eng dbs).idmap.rows.reverse.map Prod.snd

/-- `SearchByProfile` without the break of its rule loop. -/
def searchAllRules (user : UserDataT) (queryType : Int) (qr : UsedParamsT) :
    Except Exc (List ℕ) := do
  match ← prepareSearch eng user queryType qr with
  | none => pure []
  | some s => pure (s.fullResponse eng dbs)

end

/-- Documents have ids that fit the sort key. -/
def SmallIds (hits : List Hit) : Prop := ∀ h ∈ hits, h.id < 2 ^ 31

/-- Two documents with small ids never share a key. -/
theorem SmallIds.key_inj {hits : List Hit} (hids : SmallIds hits) :
    ∀ a ∈ firsts Hit.id [] hits, ∀ b ∈ firsts Hit.id [] hits, a.key = b.key → a = b := by
  intro a ha b hb hkey
  have hia : a.id < 2 ^ 31 := hids a (mem_of_mem_firsts ha)
  have hib : b.id < 2 ^ 31 := hids b (mem_of_mem_firsts hb)
  obtain ⟨-, -, hmin⟩ := encodeSortKey_inj.mp hkey
  refine eq_of_mem_firsts ha hb ?_
  unfold drBuffMax at hmin
  omega

/-- A hit of a lighter rule has the smaller key. -/
theorem key_lt_of_weight_lt {a b : Hit} (hlt : b.rule.weight < a.rule.weight)
    (ha : a.rule.weight ≤ maxRuleWeight) : b.key < a.key := by
  refine encodeSortKey_lt_iff.mpr (Or.inl ?_)
  unfold maxRuleWeight at ha
  unfold drBuffMax
  omega

section

variable {eng : Engine} {dbs : Int → Int → List Document}

/-- The ids collected from a list of hits. -/
theorem length_idset (l : List Hit) :
    (l.foldl addHit .empty).idset.length = (firsts Hit.id [] l).length := by
  rw [foldl_addHit]
  show (((firsts Hit.id [] l).map Hit.id).reverse ++ []).length = _
  rw [List.append_nil, List.length_reverse, List.length_map]

/-- The rule of a hit is one of the rules that were run. -/
theorem rule_mem_of_mem {qr : UsedParamsT} {rules : List QueryRuleT} {n : ℕ} {h : Hit}
    (hh : h ∈ (rules.zipIdx n).flatMap (hitsOf eng dbs qr)) : h.rule ∈ rules := by
  obtain ⟨r, hr, hh⟩ := List.mem_flatMap.mp hh
  obtain ⟨f, -, rfl⟩ := List.mem_map.mp hh
  obtain ⟨-, hlt, heq⟩ := List.mem_zipIdx (x := r.1) (i := r.2) hr
  show r.1 ∈ rules
  rw [heq]
  exact List.getElem_mem _

/-- **Where the rule loop stops**: after its last rule, or before a rule that is lighter than the last
    one that was run, with enough ids. -/
theorem ranRules_cases (qr : UsedParamsT) (counter : ℕ) (rules : List QueryRuleT) (w n : ℕ)
    (m : Merged) :
    ranRules eng dbs qr counter rules w m = rules ∨
      ∃ ran rule rest, rules = ran ++ rule :: rest ∧ ranRules eng dbs qr counter rules w m = ran ∧
        rule.weight < (ran.getLast?.map (·.weight)).getD w ∧
        counter ≤ (((ran.zipIdx n).flatMap (hitsOf eng dbs qr)).foldl addHit m).idset.length := by
  induction rules generalizing w n m with
  | nil => exact Or.inl rfl
  | cons rule rules ih =>
    rw [ranRules]
    split_ifs with hstop
    · exact Or.inr ⟨[], rule, rules, rfl, rfl, hstop.1, hstop.2⟩
    · rcases ih rule.weight (n + 1) ((ruleSearch eng dbs qr rule).foldl (addFound rule) m) with
        hall | ⟨ran, next, rest, hrules, hran, hlt, hids⟩
      · exact Or.inl (by rw [hall])
      · refine Or.inr ⟨rule :: ran, next, rest, by rw [hrules, List.cons_append], by rw [hran], ?_, ?_⟩
        · rw [List.getLast?_cons, Option.map_some, Option.getD_some]
          cases hlast : ran.getLast? with
          | none =>
            rw [hlast] at hlt
            exact hlt
          | some last =>
            rw [hlast] at hlt
            exact hlt
        · rw [List.zipIdx_cons, List.flatMap_cons, List.foldl_append, ← foldl_addFound qr rule n m]
          exact hids

/-- Every rule that was run is heavier than the ones that were not. -/
theorem weight_lt_of_ran {ran rest : List QueryRuleT} {rule : QueryRuleT} {w : ℕ}
    (hdesc : DescendingRules (ran ++ rule :: rest)) (hne : ran ≠ [])
    (hlt : rule.weight < (ran.getLast?.map (·.weight)).getD w) :
    ∀ a ∈ ran, ∀ b ∈ rule :: rest, b.weight < a.weight := by
  obtain ⟨init, last, rfl⟩ := (List.eq_nil_or_concat ran).resolve_left hne
  rw [List.concat_eq_append] at hdesc hlt ⊢
  rw [List.getLast?_concat, Option.map_some, Option.getD_some] at hlt
  obtain ⟨hran, hrest, -⟩ := List.pairwise_append.mp hdesc.descending
  obtain ⟨-, -, hinit⟩ := List.pairwise_append.mp hran
  intro a ha b hb
  have hb' : b.weight ≤ rule.weight := by
    rcases List.mem_cons.mp hb with rfl | hb
    · exact le_refl _
    · exact (List.pairwise_cons.mp hrest).1 b hb
  have ha' : last.weight ≤ a.weight := by
    rcases List.mem_append.mp ha with ha | ha
    · exact hinit a ha last (List.mem_singleton_self last)
    · rw [List.mem_singleton.mp ha]
  omega

/-- **One pass**: what is left out changes neither the first `counter` ids nor whether there are
    any. -/
theorem pass_take {qr : UsedParamsT} {counter w : ℕ} {rules : List QueryRuleT}
    (hdesc : DescendingRules rules) (hcounter : 1 ≤ counter)
    (hids : SmallIds (passHits eng dbs qr rules)) :
    (answer Hit.id Hit.key
        (passHits eng dbs qr (ranRules eng dbs qr counter rules w .empty))).take counter
        = (answer Hit.id Hit.key (passHits eng dbs qr rules)).take counter ∧
      (passHits eng dbs qr (ranRules eng dbs qr counter rules w .empty) = [] ↔
        passHits eng dbs qr rules = []) := by
  rcases @ranRules_cases eng dbs qr counter rules w 0 .empty with
    hall | ⟨ran, rule, rest, hrules, hran, hlt, hlen⟩
  · rw [hall]
    exact ⟨rfl, Iff.rfl⟩
  · rw [hran]
    change counter ≤ ((passHits eng dbs qr ran).foldl addHit .empty).idset.length at hlen
    rw [length_idset] at hlen
    -- the hits of the rules that are left out follow those of the rules that are run
    have hsplit : passHits eng dbs qr rules
        = passHits eng dbs qr ran
          ++ ((rule :: rest).zipIdx ran.length).flatMap (hitsOf eng dbs qr) := by
      unfold passHits
      rw [hrules, List.zipIdx_append, List.flatMap_append, Nat.zero_add]
    have hsome : passHits eng dbs qr ran ≠ [] := by
      intro hnil
      rw [hnil, firsts, List.length_nil] at hlen
      omega
    have hne : ran ≠ [] := by
      rintro rfl
      exact hsome rfl
    have hheavier := weight_lt_of_ran (hrules ▸ hdesc) hne hlt
    constructor
    · rw [hsplit]
      refine (take_answer_append ?_ ?_ hlen).symm
      · intro a ha b hb
        have harun : a.rule ∈ ran := rule_mem_of_mem ha
        refine key_lt_of_weight_lt (hheavier _ harun _ (rule_mem_of_mem hb)) ?_
        apply hdesc.weight_le
        rw [hrules]
        exact List.mem_append_left _ harun
      · refine SmallIds.key_inj ?_
        intro h hh
        refine hids h ?_
        rw [hsplit]
        exact List.mem_append_left _ hh
    · rw [hsplit]
      simp only [hsome, List.append_eq_nil_iff, false_and]

/-! ## The whole search -/

theorem allRulesLoop_eq (qr : UsedParamsT) (rules : List QueryRuleT) (n : ℕ) (m : Merged) :
    allRulesLoop eng dbs qr rules m
      = ((rules.zipIdx n).flatMap (hitsOf eng dbs qr)).foldl addHit m := by
  induction rules generalizing n m with
  | nil => rfl
  | cons rule rules ih =>
    rw [allRulesLoop, List.zipIdx_cons, List.flatMap_cons, List.foldl_append,
      ← foldl_addFound qr rule n m]
    exact ih (n + 1) _

namespace Request

variable (s : Request)

/-- The search that runs every rule answers everything that is found. -/
theorem fullResponse_eq : s.fullResponse eng dbs = answer Hit.id Hit.key (s.found eng dbs) := by
  have hpasses : s.allPasses eng dbs = (s.found eng dbs).foldl addHit .empty := by
    have hfirst : allRulesLoop eng dbs s.params s.rules ⟨[], OrdMap.empty⟩
        = (passHits eng dbs s.params s.rules).foldl addHit .empty :=
      allRulesLoop_eq s.params s.rules 0 .empty
    unfold allPasses found
    by_cases hc : s.corrected.isEmpty
    · simp only [hc, Bool.true_or, if_true, true_or]
      exact hfirst
    · cases hl : passHits eng dbs s.params s.rules with
      | nil =>
        rw [hl] at hfirst
        simp only [hfirst, hc]
        exact allRulesLoop_eq (s.correctedParams eng) s.rules 0 .empty
      | cons h l =>
        have hlen : ((h :: l).foldl addHit .empty).idset.length > 0 := by
          rw [length_idset]
          simp [firsts]
        rw [hl] at hfirst
        simp only [hfirst, hlen, decide_true, Bool.or_true, if_true, ne_eq, reduceCtorEq,
          not_false_eq_true, or_true]
  unfold fullResponse answer
  rw [hpasses, foldl_addHit]
  rfl

/-- Both passes: the first `items` ids are those of the search that runs every rule. -/
theorem response_take (hdesc : DescendingRules s.rules) (hitems : 1 ≤ s.params.items)
    (hids : SmallIds (s.found eng dbs)) :
    (s.response eng dbs).take s.params.items = (s.fullResponse eng dbs).take s.params.items := by
  rw [s.response_eq, s.fullResponse_eq]
  unfold visited found ranFirst ranSecond at *
  by_cases hc : s.corrected.isEmpty
  · simp only [hc, true_or, if_true] at hids ⊢
    exact (pass_take hdesc hitems hids).1
  · by_cases hfirst : passHits eng dbs s.params s.rules = []
    · -- the second pass: the first one left nothing behind, with or without the break
      simp only [hc, hfirst] at hids ⊢
      have hran : passHits eng dbs s.params
          (ranRules eng dbs s.params s.params.items s.rules 0 .empty) = [] := by
        refine (pass_take hdesc hitems ?_).2.mpr hfirst
        rw [hfirst]
        exact fun _ hh => absurd hh List.not_mem_nil
      simp only [hran]
      exact (pass_take hdesc hitems hids).1
    · simp only [hfirst, ne_eq, not_false_eq_true, or_true, if_true] at hids ⊢
      obtain ⟨htake, hnil⟩ := pass_take (w := 0) hdesc hitems hids
      have hran := mt hnil.mp hfirst
      simp only [hran, not_false_eq_true, or_true, if_true]
      exact htake

end Request

/-- Preparing a search bounds the number of ids. -/
theorem prepareSearch_items {user : UserDataT} {queryType : Int} {qr : UsedParamsT} {s : Request}
    (h : prepareSearch eng user queryType qr = .ok (some s)) :
    s.params.items = keepInBound qr.items 1 100 := by
  unfold prepareSearch at h
  split at h
  · exact absurd h (by simp [badData])
  · obtain ⟨loc, -, h⟩ := bind_eq_ok.mp h
    simp only at h
    split at h
    · cases h
      rfl
    · split at h
      · cases h
      · cases h
        rfl

/-- **Early termination is invisible**: for rules in descending order of weight and documents with
    small ids, the first ids of the response are those of the search that runs every rule. -/
theorem searchByProfile_take (eng : Engine) (dbs : Int → Int → List Document) (user : UserDataT)
    (queryType : Int) (qr : UsedParamsT)
    (hdesc : ∀ qprof, getExterProfile user queryType = some qprof → DescendingRules qprof.rules)
    (hids : SmallIds (foundBy eng dbs user queryType qr)) :
    (searchByProfile eng dbs user queryType qr).map (List.take (keepInBound qr.items 1 100))
      = (searchAllRules eng dbs user queryType qr).map
          (List.take (keepInBound qr.items 1 100)) := by
  unfold searchByProfile searchAllRules
  cases hprep : prepareSearch eng user queryType qr with
  | error e => rfl
  | ok prepared =>
    cases prepared with
    | none => rfl
    | some s =>
      obtain ⟨qprof, hprof, hrules, -⟩ := prepareSearch_eq_some hprep
      have hitems := prepareSearch_items hprep
      have hone : 1 ≤ s.params.items := by
        rw [hitems]
        exact (keepInBound_bounds (by decide)).1
      unfold foundBy at hids
      rw [hprep] at hids
      have htake := s.response_take (hrules ▸ hdesc qprof hprof) hone hids
      rw [hitems] at htake
      exact congrArg Except.ok htake

end

/-- A profile with a heavy rule for one record and a light one. -/
def heavyThenLight : UserDataT :=
  { profiles := [⟨1, [{ weight := 5, maxRecords := 1 }, { weight := 3, maxRecords := 10 }]⟩] }

/-- A request for one id. -/
def oneItem : UsedParamsT := { oneWord with items := 1 }

theorem searchByProfile_take_one :
    (searchByProfile findAll (twoDocs 7 8) heavyThenLight 1 oneItem).map
        (List.take (keepInBound 1 1 100))
      = (searchAllRules findAll (twoDocs 7 8) heavyThenLight 1 oneItem).map
          (List.take (keepInBound 1 1 100)) := by
  refine searchByProfile_take findAll (twoDocs 7 8) heavyThenLight 1 oneItem ?_ ?_
  · intro qprof h
    cases h
    constructor
    · decide
    · decide
  · unfold SmallIds
    decide +kernel

end Zapdos.Search
