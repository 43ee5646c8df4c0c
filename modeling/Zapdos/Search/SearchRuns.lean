/-
  What a search visits and what it answers.

  `SearchByProfile` mixes the rule loop with the merging of what the rules find.  Here the two are
  taken apart: a `Hit` is one find of one rule, `Request.visited` lists the hits of the rules the loops
  run, in order, and the response is the merge of that list.

  THE LAWS THE CLIENTS USE.
    * `Request.response_eq`   — the response is the answer of the merge of the visited hits;
    * `Request.visited_eq`    — a loop that does not stop early visits what all rules find.
-/
import Zapdos.Search.SearchBase

namespace Zapdos.Search

open Zapdos.Lib Zapdos.Store

/-- One find: the rule, by its place in the profile, the document and its score. -/
structure Hit where
  ruleNo : ℕ
  rule : QueryRuleT
  doc : Document
  score : ℚ
  deriving DecidableEq, Repr

namespace Hit

/-- The id that the response would list. -/
def id (h : Hit) : ℕ := h.doc.rocksid

/-- The text the hit is sorted by. -/
def key (h : Hit) : Bytes := encodeSortKey h.rule.weight h.score h.id

end Hit

section

variable (eng : Engine) (dbs : Int → Int → List Document)

/-- The hits of one rule. -/
def hitsOf (qr : UsedParamsT) (r : QueryRuleT × ℕ) : List Hit :=
  (ruleSearch eng dbs qr r.1).map (fun f => ⟨r.2, r.1, f.1, f.2⟩)

/-- The hits of a list of rules. -/
def passHits (qr : UsedParamsT) (rules : List QueryRuleT) : List Hit :=
  rules.zipIdx.flatMap (hitsOf eng dbs qr)

/-- The rules that the rule loop runs before it stops. -/
def ranRules (qr : UsedParamsT) (counter : ℕ) : List QueryRuleT → ℕ → Merged → List QueryRuleT
  | [], _, _ => []
  | rule :: rules, ruleWeight, m =>
    if ruleWeight > rule.weight ∧ m.idset.length ≥ counter then []
    else
      rule :: ranRules qr counter rules rule.weight
        ((ruleSearch eng dbs qr rule).foldl (addFound rule) m)

/-- The state before the first rule. -/
def Merged.empty : Merged := ⟨[], OrdMap.empty⟩

namespace Request

variable (s : Request)

/-- The rules of the first pass that are run. -/
def ranFirst : List QueryRuleT :=
  ranRules eng dbs s.params s.params.items s.rules 0 .empty

/-- The rules of the second pass that are run. -/
def ranSecond : List QueryRuleT :=
  ranRules eng dbs (s.correctedParams eng) s.params.items s.rules s.lastWeight .empty

/-- The hits of the rules that are run. -/
def visited : List Hit :=
  let first := passHits eng dbs s.params (s.ranFirst eng dbs)
  if s.corrected.isEmpty ∨ first ≠ [] then first
  else passHits eng dbs (s.correctedParams eng) (s.ranSecond eng dbs)

/-- What the rules find: all of them with the query or, when that is nothing, with the corrected
    query. -/
def found : List Hit :=
  let first := passHits eng dbs s.params s.rules
  if s.corrected.isEmpty ∨ first ≠ [] then first
  else passHits eng dbs (s.correctedParams eng) s.rules

/-- A rule loop breaks off before its last rule. -/
def StopsEarly : Prop :=
  s.ranFirst eng dbs ≠ s.rules ∨
    (s.corrected ≠ [] ∧ passHits eng dbs s.params s.rules = [] ∧ s.ranSecond eng dbs ≠ s.rules)

instance : Decidable (s.StopsEarly eng dbs) := instDecidableOr

end Request

end

/-! ## Merging hits -/

/-- The body of the loop over the finds, for a hit. -/
def addHit (m : Merged) (h : Hit) : Merged := addFound h.rule m (h.doc, h.score)

theorem addHit_of_mem {m : Merged} {h : Hit} (hm : h.id ∈ m.idset) : addHit m h = m := if_pos hm

theorem addHit_of_not_mem {m : Merged} {h : Hit} (hm : h.id ∉ m.idset) :
    addHit m h = ⟨h.id :: m.idset, m.idmap.emplace h.key h.id⟩ := if_neg hm

/-- **The merge of a list of hits**: the set holds the identities, the map the fresh hits. -/
theorem foldl_addHit (l : List Hit) (m : Merged) :
    l.foldl addHit m =
      ⟨((firsts Hit.id m.idset l).map Hit.id).reverse ++ m.idset,
        emplaceAll Hit.id Hit.key m.idmap (firsts Hit.id m.idset l)⟩ := by
  induction l generalizing m with
  | nil => rfl
  | cons h l ih =>
    rw [List.foldl_cons, ih, firsts]
    by_cases hm : h.id ∈ m.idset
    · rw [addHit_of_mem hm, if_pos hm]
    · rw [addHit_of_not_mem hm, if_neg hm]
      simp [emplaceAll]

section

variable {eng : Engine} {dbs : Int → Int → List Document}

theorem foldl_addFound (qr : UsedParamsT) (rule : QueryRuleT) (n : ℕ) (m : Merged) :
    (ruleSearch eng dbs qr rule).foldl (addFound rule) m
      = (hitsOf eng dbs qr (rule, n)).foldl addHit m := by
  unfold hitsOf
  rw [List.foldl_map]
  rfl

/-- The rule loop merges the hits of the rules it runs. -/
theorem ruleLoop_eq (qr : UsedParamsT) (counter : ℕ) (rules : List QueryRuleT) (w n : ℕ)
    (m : Merged) :
    ruleLoop eng dbs qr counter rules w m
      = (((ranRules eng dbs qr counter rules w m).zipIdx n).flatMap (hitsOf eng dbs qr)).foldl
          addHit m := by
  induction rules generalizing w n m with
  | nil => rfl
  | cons rule rules ih =>
    rw [ruleLoop, ranRules]
    split_ifs with hstop
    · rfl
    · rw [List.zipIdx_cons, List.flatMap_cons, List.foldl_append, ← foldl_addFound qr rule n m]
      exact ih rule.weight (n + 1) _

namespace Request

variable (s : Request)

theorem passes_eq : s.passes eng dbs = (s.visited eng dbs).foldl addHit .empty := by
  have hfirst : ruleLoop eng dbs s.params s.params.items s.rules 0 ⟨[], OrdMap.empty⟩
      = (passHits eng dbs s.params (s.ranFirst eng dbs)).foldl addHit .empty :=
    ruleLoop_eq s.params s.params.items s.rules 0 0 .empty
  -- the second pass starts only where the first one left nothing behind
  unfold passes visited
  by_cases hc : s.corrected.isEmpty
  · simp only [hc, Bool.true_or, if_true, true_or]
    exact hfirst
  · cases hl : passHits eng dbs s.params (s.ranFirst eng dbs) with
    | nil =>
      rw [hl] at hfirst
      simp only [hfirst, hc]
      exact ruleLoop_eq (s.correctedParams eng) s.params.items s.rules s.lastWeight 0 .empty
    | cons h l =>
      have hlen : ((h :: l).foldl addHit .empty).idset.length > 0 := by
        rw [foldl_addHit]
        simp [firsts, Merged.empty]
      rw [hl] at hfirst
      simp only [hfirst, hlen, decide_true, Bool.or_true, if_true, ne_eq, reduceCtorEq,
        not_false_eq_true, or_true]

/-- **The response is the merge of the visited hits.** -/
theorem response_eq : s.response eng dbs = answer Hit.id Hit.key (s.visited eng dbs) := by
  unfold response answer
  rw [passes_eq, foldl_addHit]
  rfl

/-- A search that does not stop early visits everything that is found. -/
theorem visited_eq (h : ¬ s.StopsEarly eng dbs) : s.visited eng dbs = s.found eng dbs := by
  unfold StopsEarly at h
  rw [not_or, not_not, not_and, not_and, not_not] at h
  unfold visited found
  rw [h.1]
  by_cases hc : s.corrected.isEmpty ∨ passHits eng dbs s.params s.rules ≠ []
  · simp only [hc, if_true]
  · rw [not_or, not_not] at hc
    have hne : s.corrected ≠ [] := by simpa using hc.1
    simp only [h.2 hne hc.2]

end Request

/-! ## Requests -/

section

variable (eng : Engine) (dbs : Int → Int → List Document)

/-- What the rules of a request find; nothing when it has no words to search. -/
def foundBy (user : UserDataT) (queryType : Int) (qr : UsedParamsT) : List Hit :=
  match prepareSearch eng user queryType qr with
  | .ok (some s) => s.found eng dbs
  | _ => []

/-- What the rules find that a request runs. -/
def visitedBy (user : UserDataT) (queryType : Int) (qr : UsedParamsT) : List Hit :=
  match prepareSearch eng user queryType qr with
  | .ok (some s) => s.visited eng dbs
  | _ => []

/-- The rule loop of a request stops early. -/
def StopsEarly (user : UserDataT) (queryType : Int) (qr : UsedParamsT) : Prop :=
  match prepareSearch eng user queryType qr with
  | .ok (some s) => s.StopsEarly eng dbs
  | _ => False

variable {eng dbs} {user : UserDataT} {queryType : Int} {qr : UsedParamsT}

instance : Decidable (StopsEarly eng dbs user queryType qr) :=
  match h : prepareSearch eng user queryType qr with
  | .ok (some s) => decidable_of_iff (s.StopsEarly eng dbs) (by unfold StopsEarly; rw [h])
  | .ok none => .isFalse (by unfold StopsEarly; rw [h]; exact not_false)
  | .error _ => .isFalse (by unfold StopsEarly; rw [h]; exact not_false)

/-- **What a request answers**: the merge of the hits it visits. -/
theorem searchByProfile_eq {resp : List ℕ}
    (h : searchByProfile eng dbs user queryType qr = .ok resp) :
    resp = answer Hit.id Hit.key (visitedBy eng dbs user queryType qr) := by
  unfold searchByProfile at h
  obtain ⟨prepared, hp, h⟩ := bind_eq_ok.mp h
  unfold visitedBy
  rw [hp]
  cases prepared with
  | none =>
    cases h
    rfl
  | some s =>
    cases h
    exact s.response_eq

theorem visitedBy_eq (h : ¬ StopsEarly eng dbs user queryType qr) :
    visitedBy eng dbs user queryType qr = foundBy eng dbs user queryType qr := by
  unfold StopsEarly at h
  unfold visitedBy foundBy
  split
  · rename_i s hs
    rw [hs] at h
    exact s.visited_eq h
  · rfl

end

end

/-! ## What a hit is made of -/

/-- Two requests that look from one place, in one band. -/
def SamePlace (p q : UsedParamsT) : Prop :=
  p.distanceBand = q.distanceBand ∧ p.distanceDef = q.distanceDef ∧
    p.location.lat = q.location.lat ∧ p.location.lon = q.location.lon

/-- The parameters a rule by distance measures with. -/
def measureParams (qr : UsedParamsT) (rule : QueryRuleT) : UsedParamsT :=
  nearParams (ruleLimits qr rule) rule

/-- The key maker of a rule by distance. -/
def ruleKeyMaker (qr : UsedParamsT) (rule : QueryRuleT) : DistanceSlabKeyMaker :=
  keyMakerOf (measureParams qr rule)

/-- The score of a document under a rule. -/
def scoreOf (eng : Engine) (qr : UsedParamsT) (rule : QueryRuleT) (d : Document) : ℚ :=
  if byDistance rule then
    dsmax - (ruleKeyMaker qr rule).sortKey (distanceOf eng qr d) d.importance
  else d.importance

theorem SamePlace.keyMaker_eq {p q : UsedParamsT} (h : SamePlace p q) :
    keyMakerOf p = keyMakerOf q := by
  unfold keyMakerOf
  rw [h.1, h.2.1]

theorem SamePlace.distance_eq {p q : UsedParamsT} (h : SamePlace p q) (eng : Engine)
    (d : Document) : distanceOf eng p d = distanceOf eng q d := by
  unfold distanceOf
  rw [h.2.2.1, h.2.2.2]

theorem SamePlace.limits {p q : UsedParamsT} (h : SamePlace p q) (rule : QueryRuleT) :
    SamePlace (ruleLimits p rule) (ruleLimits q rule) := by
  obtain ⟨hband, hdef, hlat, hlon⟩ := h
  refine ⟨?_, ?_, hlat, hlon⟩
  · show (if rule.distanceBand > 0 then rule.distanceBand else p.distanceBand) = _
    rw [hband]
    rfl
  · show (if rule.distanceDef > 0 then rule.distanceDef else p.distanceDef) = _
    rw [hdef]
    rfl

theorem SamePlace.near {p q : UsedParamsT} (h : SamePlace p q) (rule : QueryRuleT) :
    SamePlace (nearParams p rule) (nearParams q rule) := by
  obtain ⟨hband, hdef, hlat, hlon⟩ := h
  unfold nearParams
  split_ifs
  · exact ⟨rfl, hdef, hlat, hlon⟩
  · exact ⟨hband, hdef, hlat, hlon⟩

theorem SamePlace.score_eq {p q : UsedParamsT} (h : SamePlace p q) (eng : Engine)
    (rule : QueryRuleT) (d : Document) : scoreOf eng p rule d = scoreOf eng q rule d := by
  unfold scoreOf ruleKeyMaker
  rw [show keyMakerOf (measureParams p rule) = keyMakerOf (measureParams q rule) from
    ((h.limits rule).near rule).keyMaker_eq, h.distance_eq eng d]

/-- The switches of `RuleSearch` leave the place and the band alone. -/
theorem ruleParams_place {params p : UsedParamsT} {rule : QueryRuleT}
    (h : ruleParams params rule = some p) : SamePlace p (ruleLimits params rule) := by
  unfold ruleParams at h
  simp only at h
  split_ifs at h
  split at h
  · exact absurd h (by simp)
  · cases h
    exact ⟨rfl, rfl, rfl, rfl⟩

section

variable {eng : Engine} {dbs : Int → Int → List Document}

/-- **What a rule finds** is scored by the key maker or by the importance. -/
theorem score_of_mem_ruleSearch {params : UsedParamsT} {rule : QueryRuleT} {f : Document × ℚ}
    (h : f ∈ ruleSearch eng dbs params rule) : f.2 = scoreOf eng params rule f.1 := by
  unfold ruleSearch at h
  split at h
  · exact absurd h List.not_mem_nil
  · rename_i p hp
    have hplace := ruleParams_place hp
    unfold scoreOf
    split_ifs at h ⊢ with hd hl
    · exact absurd h List.not_mem_nil
    · -- the query by distance measures with the parameters of the rule
      have hnear : SamePlace (nearParams p rule) (measureParams params rule) :=
        hplace.near rule
      obtain ⟨g, hg, rfl⟩ := List.mem_map.mp h
      unfold findNear at hg
      simp only at hg
      split_ifs at hg
      · exact absurd hg List.not_mem_nil
      · exact absurd hg List.not_mem_nil
      · obtain ⟨d, -, rfl⟩ := List.mem_map.mp hg
        show dsmax - (keyMakerOf _).sortKey (distanceOf eng _ d) d.importance = _
        rw [hnear.keyMaker_eq, hnear.distance_eq eng d]
        have hdist : distanceOf eng (measureParams params rule) d = distanceOf eng params d := by
          unfold distanceOf measureParams nearParams ruleLimits
          split_ifs <;> rfl
        rw [hdist]
        rfl
    · unfold findFull at h
      simp only at h
      split_ifs at h
      · exact absurd h List.not_mem_nil
      · obtain ⟨d, -, rfl⟩ := List.mem_map.mp h
        rfl

/-- A hit of a list of rules is a find of the rule at its place. -/
theorem of_mem_passHits {qr : UsedParamsT} {rules : List QueryRuleT} {h : Hit}
    (hh : h ∈ passHits eng dbs qr rules) :
    rules[h.ruleNo]? = some h.rule ∧ h.score = scoreOf eng qr h.rule h.doc := by
  unfold passHits at hh
  obtain ⟨r, hr, hh⟩ := List.mem_flatMap.mp hh
  obtain ⟨f, hf, rfl⟩ := List.mem_map.mp hh
  exact ⟨List.mem_zipIdx_iff_getElem?.mp hr, score_of_mem_ruleSearch hf⟩

/-- An entry of the first part of a list. -/
theorem getElem?_of_isPrefix {α : Type*} {l m : List α} (h : l <+: m) {n : ℕ} {a : α}
    (ha : l[n]? = some a) : m[n]? = some a := by
  obtain ⟨t, rfl⟩ := h
  obtain ⟨hn, rfl⟩ := List.getElem?_eq_some_iff.mp ha
  rw [List.getElem?_append_left hn]
  exact ha

/-- The rules that are run are the first ones of the profile. -/
theorem ranRules_isPrefix (qr : UsedParamsT) (counter : ℕ) (rules : List QueryRuleT) (w : ℕ)
    (m : Merged) : ranRules eng dbs qr counter rules w m <+: rules := by
  induction rules generalizing w m with
  | nil => exact List.nil_prefix
  | cons rule rules ih =>
    rw [ranRules]
    split_ifs
    · exact List.nil_prefix
    · exact (List.prefix_cons_inj rule).mpr (ih _ _)

theorem Request.of_mem_visited {s : Request} {h : Hit} (hh : h ∈ s.visited eng dbs) :
    s.rules[h.ruleNo]? = some h.rule ∧ h.score = scoreOf eng s.params h.rule h.doc := by
  unfold visited at hh
  simp only at hh
  have hplace : SamePlace (s.correctedParams eng) s.params := ⟨rfl, rfl, rfl, rfl⟩
  split_ifs at hh
  · obtain ⟨hrule, hscore⟩ := of_mem_passHits hh
    exact ⟨getElem?_of_isPrefix (ranRules_isPrefix _ _ _ _ _) hrule, hscore⟩
  · obtain ⟨hrule, hscore⟩ := of_mem_passHits hh
    rw [hplace.score_eq] at hscore
    exact ⟨getElem?_of_isPrefix (ranRules_isPrefix _ _ _ _ _) hrule, hscore⟩

/-- What preparing a search keeps: the rules of the profile, the place, the band, the database. -/
theorem prepareSearch_eq_some {user : UserDataT} {queryType : Int} {qr : UsedParamsT} {s : Request}
    (h : prepareSearch eng user queryType qr = .ok (some s)) :
    ∃ qprof, getExterProfile user queryType = some qprof ∧ s.rules = qprof.rules ∧
      SamePlace s.params qr ∧ s.params.lang = qr.lang ∧ s.params.dtyp = qr.dtyp := by
  unfold prepareSearch at h
  split at h
  · exact absurd h (by simp [badData])
  · rename_i qprof hprof
    obtain ⟨loc, hloc, h⟩ := bind_eq_ok.mp h
    have hplace : loc.lat = qr.location.lat ∧ loc.lon = qr.location.lon := by
      unfold locate at hloc
      split_ifs at hloc
      · cases hloc
        exact ⟨rfl, rfl⟩
      · obtain ⟨hash, -, hloc⟩ := bind_eq_ok.mp hloc
        cases hloc
        exact ⟨rfl, rfl⟩
    refine ⟨qprof, hprof, ?_⟩
    simp only at h
    split at h
    · cases h
      exact ⟨rfl, ⟨rfl, rfl, hplace⟩, rfl, rfl⟩
    · -- `prepareQuery` changes the words of the query only
      split at h
      · cases h
      · cases h
        exact ⟨rfl, ⟨rfl, rfl, hplace⟩, rfl, rfl⟩

/-- **What a request visits**: finds of the rules of its profile, scored from its place. -/
theorem of_mem_visitedBy {user : UserDataT} {queryType : Int} {qr : UsedParamsT} {h : Hit}
    (hh : h ∈ visitedBy eng dbs user queryType qr) :
    ∃ qprof, getExterProfile user queryType = some qprof ∧
      qprof.rules[h.ruleNo]? = some h.rule ∧ h.score = scoreOf eng qr h.rule h.doc := by
  unfold visitedBy at hh
  split at hh
  · rename_i s hs
    obtain ⟨qprof, hprof, hrules, hplace, -⟩ := prepareSearch_eq_some hs
    obtain ⟨hrule, hscore⟩ := Request.of_mem_visited hh
    rw [hrules] at hrule
    rw [hplace.score_eq] at hscore
    exact ⟨qprof, hprof, hrule, hscore⟩
  · exact absurd hh List.not_mem_nil

end

end Zapdos.Search
