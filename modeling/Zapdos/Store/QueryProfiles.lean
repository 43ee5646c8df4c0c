/-
  What `HandleQueryProfiles` stores.

  The rules of a new profile go through an ordered map whose key packs the weight and the place of a
  rule into one number, `10000 + j - 10 * weight`.  With at most ten rules and no weight above 1000
  the number neither collides nor wraps around, so the map reads as a stable sort; the rule loop of a
  search stops at a lighter rule and relies on that order.
-/
import Zapdos.Store.Handlers
import Zapdos.Lib.Merge
import Zapdos.Lib.StableSort

namespace Zapdos.Store

open Zapdos.Lib

/-- `ikey`. -/
def ruleKey (rule : QueryRuleT) (j : Nat) : Nat :=
  maxProfileRules * maxRuleWeight + j - rule.weight * maxProfileRules

/-- The rules of a profile in the order in which a search runs them. -/
abbrev ByWeight (rules sorted : List QueryRuleT) : Prop :=
  StableSort QueryRuleT.weight rules sorted

/-- A list of rules as it is stored. -/
structure DescendingRules (rules : List QueryRuleT) : Prop where
  weight_le : ∀ rule ∈ rules, rule.weight ≤ maxRuleWeight
  descending : rules.Pairwise (fun a b => b.weight ≤ a.weight)

/-! ## The packed key -/

/-- Below the limits the key is in the order of weight, descending, and of place. -/
theorem ruleKey_lt_iff {a b : QueryRuleT} {i j : Nat} (ha : a.weight ≤ maxRuleWeight)
    (hb : b.weight ≤ maxRuleWeight) (hi : i < maxProfileRules) (hj : j < maxProfileRules) :
    ruleKey a i < ruleKey b j ↔ b.weight < a.weight ∨ (a.weight = b.weight ∧ i < j) := by
  unfold ruleKey
  unfold maxRuleWeight at ha hb ⊢
  unfold maxProfileRules at hi hj ⊢
  constructor
  · intro hlt
    omega
  · intro hlt
    omega

theorem ruleKey_inj {a b : QueryRuleT} {i j : Nat} (ha : a.weight ≤ maxRuleWeight)
    (hb : b.weight ≤ maxRuleWeight) (hi : i < maxProfileRules) (hj : j < maxProfileRules)
    (h : ruleKey a i = ruleKey b j) : i = j := by
  unfold ruleKey at h
  unfold maxRuleWeight at ha hb h
  unfold maxProfileRules at hi hj h
  omega

/-! ## The rules of one profile -/

/-- What the map holds before the rule at place `j`: rules of smaller places, under their keys. -/
def FilledBelow (j : Nat) (lmap : OrdMap Nat QueryRuleT) : Prop :=
  ∀ r ∈ lmap.rows, r.2.weight ≤ maxRuleWeight ∧ ∃ i < j, r.1 = ruleKey r.2 i

/-- A rule within the limits gets a key that is not in the map. -/
theorem FilledBelow.fresh {j : Nat} {lmap : OrdMap Nat QueryRuleT} (h : FilledBelow j lmap)
    {rule : QueryRuleT} (hw : rule.weight ≤ maxRuleWeight) (hj : j < maxProfileRules) :
    ∀ r ∈ lmap.rows, r.1 ≠ ruleKey rule j := by
  intro r hr heq
  obtain ⟨hrw, i, hi, hrk⟩ := h r hr
  have hij : i = j := ruleKey_inj hrw hw (by omega) hj (hrk.symm.trans heq)
  omega

theorem FilledBelow.put {j : Nat} {lmap : OrdMap Nat QueryRuleT} (h : FilledBelow j lmap)
    {rule : QueryRuleT} (hw : rule.weight ≤ maxRuleWeight) :
    FilledBelow (j + 1) (lmap.put (ruleKey rule j) rule) := by
  intro r hr
  rcases OrdMap.mem_insertRow hr with rfl | hr
  · exact ⟨hw, j, by omega, rfl⟩
  · obtain ⟨hrw, i, hi, hrk⟩ := h r hr
    exact ⟨hrw, i, by omega, hrk⟩

/-- **The loop over the rules** adds every rule under its own key. -/
theorem profileRules_rows {rules : List QueryRuleT} {j : Nat} {lmap out : OrdMap Nat QueryRuleT}
    (h : profileRules rules j lmap = .ok out) (hlen : j + rules.length ≤ maxProfileRules)
    (hfill : FilledBelow j lmap) :
    (∀ rule ∈ rules, rule.weight ≤ maxRuleWeight) ∧
      out.rows.Perm ((rules.zipIdx j).map (fun e => (ruleKey e.1 e.2, e.1)) ++ lmap.rows) := by
  induction rules generalizing j lmap with
  | nil =>
    cases h
    exact ⟨fun _ hr => absurd hr List.not_mem_nil, List.Perm.refl _⟩
  | cons rule rules ih =>
    rw [List.length_cons] at hlen
    have hj : j < maxProfileRules := by omega
    rw [profileRules] at h
    split_ifs at h with hheavy
    · cases h
    · have hw : rule.weight ≤ maxRuleWeight := Nat.le_of_not_lt hheavy
      -- the key is new, so `emplace` adds it
      have hnew : ¬ (lmap.get (ruleKey rule j)).isSome := by
        intro hsome
        obtain ⟨r, hr⟩ := Option.isSome_iff_exists.mp hsome
        exact hfill.fresh hw hj _ (lmap.get_eq_some_iff.mp hr) rfl
      replace h : profileRules rules (j + 1) (lmap.put (ruleKey rule j) rule) = .ok out := by
        rw [← h]
        exact congrArg _ (if_neg hnew).symm
      obtain ⟨hrest, hperm⟩ := ih h (by omega) (hfill.put hw)
      constructor
      · intro r hr
        rcases List.mem_cons.mp hr with rfl | hr
        · exact hw
        · exact hrest r hr
      · have hput : (lmap.put (ruleKey rule j) rule).rows.Perm
            ((ruleKey rule j, rule) :: lmap.rows) := OrdMap.insertRow_perm (hfill.fresh hw hj)
        rw [List.zipIdx_cons, List.map_cons, List.cons_append]
        exact (hperm.trans (hput.append_left _)).trans List.perm_middle

/-- **The rules of a new profile** are the rules of the request by weight, and none is too heavy. -/
theorem profileRules_sorted {rules : List QueryRuleT} {lmap : OrdMap Nat QueryRuleT}
    (h : profileRules rules 0 OrdMap.empty = .ok lmap) (hlen : rules.length ≤ maxProfileRules) :
    ByWeight rules (lmap.rows.map Prod.snd) ∧ ∀ rule ∈ rules, rule.weight ≤ maxRuleWeight := by
  obtain ⟨hweight, hrows⟩ := profileRules_rows h (by omega) (fun _ hr => absurd hr List.not_mem_nil)
  rw [show (OrdMap.empty : OrdMap Nat QueryRuleT).rows = [] from rfl, List.append_nil] at hrows
  refine ⟨StableSort.of_rows ?_ hrows, hweight⟩
  intro a i b j ha hb
  obtain ⟨-, hi, ha⟩ := List.mem_zipIdx ha
  obtain ⟨-, hj, hb⟩ := List.mem_zipIdx hb
  refine ruleKey_lt_iff (hweight a ?_) (hweight b ?_) (by omega) (by omega)
  · rw [ha]
    exact List.getElem_mem _
  · rw [hb]
    exact List.getElem_mem _

/-! ## The list of profiles -/

/-- A profile of the request and the profile stored for it. -/
structure StoredProfile (var stored : QueryProfT) : Prop where
  queryType : stored.queryType = var.queryType
  rules : ByWeight var.rules stored.rules
  weight_le : ∀ rule ∈ var.rules, rule.weight ≤ maxRuleWeight

/-- **The loop over the request** appends one profile for each new type, in order of first
    occurrence. -/
theorem queryProfilesLoop_spec {idata odata out : List QueryProfT}
    (h : queryProfilesLoop idata odata = .ok out) (seen : List Int)
    (hseen : ∀ t, t ∈ seen ↔ t ∈ odata.map QueryProfT.queryType) :
    ∃ news, out = odata ++ news ∧
      List.Forall₂ StoredProfile (firsts QueryProfT.queryType seen idata) news := by
  induction idata generalizing odata seen with
  | nil =>
    cases h
    exact ⟨[], (List.append_nil _).symm, List.Forall₂.nil⟩
  | cons var idata ih =>
    rw [queryProfilesLoop] at h
    have hany : odata.any (fun o => decide (o.queryType = var.queryType)) = true ↔
        var.queryType ∈ seen := by
      rw [hseen, List.any_eq_true, List.mem_map]
      simp only [decide_eq_true_eq]
    split_ifs at h with htype hsize hold
    · cases h
    · cases h
    · rw [firsts, if_pos (hany.mp hold)]
      exact ih h seen hseen
    · obtain ⟨lmap, hrules, h⟩ := bind_eq_ok.mp h
      obtain ⟨hsort, hweight⟩ := profileRules_sorted hrules (Nat.le_of_not_lt hsize)
      have hseen' : ∀ t, t ∈ var.queryType :: seen ↔
          t ∈ (odata ++ [{ queryType := var.queryType,
                           rules := lmap.rows.map Prod.snd : QueryProfT }]).map
            QueryProfT.queryType := by
        intro t
        rw [List.map_append, List.mem_append, List.mem_cons, hseen t]
        simp only [List.map_cons, List.map_nil, List.mem_singleton]
        exact or_comm
      obtain ⟨news, hout, hnews⟩ := ih h _ hseen'
      refine ⟨{ queryType := var.queryType, rules := lmap.rows.map Prod.snd } :: news, ?_, ?_⟩
      · rw [hout, List.append_assoc, List.singleton_append]
      · rw [firsts, if_neg (fun hmem => hold (hany.mpr hmem))]
        exact List.Forall₂.cons ⟨rfl, hsort, hweight⟩ hnews

theorem map_queryType {vars news : List QueryProfT} (h : List.Forall₂ StoredProfile vars news) :
    news.map QueryProfT.queryType = vars.map QueryProfT.queryType := by
  induction h with
  | nil => rfl
  | cons hp _ ih => rw [List.map_cons, List.map_cons, ih, hp.queryType]

/-- The list a request is merged into. -/
def oldProfiles (odata : List QueryProfT) (merge : Bool) : List QueryProfT :=
  if merge then odata else []

/-- **Profile handling is a stable keyed sort**: the old profiles stay in front, the first profile of
    the request of every new type follows, its rules by weight. -/
theorem handleQueryProfiles_sorted (idata odata : List QueryProfT) (merge : Bool)
    {out : List QueryProfT} (hstored : (odata.map QueryProfT.queryType).Nodup)
    (h : handleQueryProfiles idata odata merge = .ok out) :
    (∃ news, out = oldProfiles odata merge ++ news ∧
        List.Forall₂ StoredProfile
          (firsts QueryProfT.queryType ((oldProfiles odata merge).map QueryProfT.queryType) idata)
          news) ∧
      (out.map QueryProfT.queryType).Nodup ∧
      (merge = false → ∀ odata', handleQueryProfiles idata odata' merge = .ok out) := by
  obtain ⟨news, hout, hnews⟩ := @queryProfilesLoop_spec _ (oldProfiles odata merge) _ h
    ((oldProfiles odata merge).map QueryProfT.queryType) (fun _ => Iff.rfl)
  refine ⟨⟨news, hout, hnews⟩, ?_, ?_⟩
  · rw [hout, List.map_append, map_queryType hnews, List.nodup_append]
    refine ⟨?_, firsts_nodup _ _, ?_⟩
    · unfold oldProfiles
      split_ifs
      · exact hstored
      · exact List.nodup_nil
    · rintro t hold _ hnew rfl
      obtain ⟨var, hvar, rfl⟩ := List.mem_map.mp hnew
      exact not_mem_seen_of_mem_firsts hvar hold
  · rintro rfl odata'
    exact h

/-- A request for two profiles, one of them twice. -/
def requestedProfiles : List QueryProfT :=
  [⟨1, [{ weight := 5 }, { weight := 7 }, { weight := 5, maxRecords := 3 }]⟩, ⟨2, [{ weight := 4 }]⟩,
    ⟨1, [{ weight := 9 }]⟩]

theorem requestedProfiles_sorted :
    ∃ news, ([⟨2, []⟩, ⟨1, [{ weight := 7 }, { weight := 5 }, { weight := 5, maxRecords := 3 }]⟩] :
        List QueryProfT) = oldProfiles [⟨2, []⟩] true ++ news ∧
      List.Forall₂ StoredProfile
        (firsts QueryProfT.queryType ((oldProfiles [⟨2, []⟩] true).map QueryProfT.queryType)
          requestedProfiles) news :=
  (handleQueryProfiles_sorted requestedProfiles [⟨2, []⟩] true (by decide) rfl).1

/-- The rules of what is stored are in the order in which a search runs them. -/
theorem StoredProfile.descendingRules {var stored : QueryProfT} (h : StoredProfile var stored) :
    DescendingRules stored.rules where
  weight_le rule hrule := h.weight_le rule (h.rules.perm.mem_iff.mp hrule)
  descending := h.rules.descending

end Zapdos.Store
