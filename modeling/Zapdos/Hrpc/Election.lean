/-
  Whom `MasterUpdate` elects.

  Candidates are ordered by log counter, then url.  The loop replaces its candidate by greater ones
  and skips rows with the url of the candidate itself.

  THE CRUX.  The skip never hides a greater candidate: the rows of a table have different urls, so the
  row of a candidate that came from the table is behind the loop, and the row of the node itself is not
  above the node's own counter.  Hence each row acts as a maximum (`consider_eq`), and the order of the
  rows does not matter.
-/
import Mathlib.Order.Bounds.Basic
import Mathlib.Data.Prod.Lex
import Zapdos.Hrpc.RemoteKeeper

namespace Zapdos.Hrpc.Election

open Zapdos.Lib Zapdos.Store

/-- Log counter first, then url. -/
def rank (c : Candidate) : ℕ ×ₗ Bytes := toLex (c.logcounter, c.url)

theorem rank_injective : Function.Injective rank := by
  intro a b h
  have hpair : (a.logcounter, a.url) = (b.logcounter, b.url) := toLex.injective h
  cases a
  cases b
  simpa using hpair

instance candidateOrder : LinearOrder Candidate := LinearOrder.lift' rank rank_injective

theorem lt_iff {a b : Candidate} :
    a < b ↔ a.logcounter < b.logcounter ∨ (a.logcounter = b.logcounter ∧ a.url < b.url) := by
  show rank a < rank b ↔ _
  exact Prod.Lex.toLex_lt_toLex

/-- The candidate a row stands for. -/
def ofRow (p : Bytes × Nat × Nat) : Candidate := ⟨p.2.1, p.1⟩

/-- The node itself, as it is now. -/
def own (st : SharedTable) : Candidate := ⟨st.logcounter, st.thisurl⟩

/-- The node itself, and the hosts that were updated since the cutoff. -/
def candidates (st : SharedTable) (cutoff : Nat) : Set Candidate :=
  {c | c = own st ∨ ∃ updatedAt, st.remotes.get c.url = some (c.logcounter, updatedAt) ∧
    cutoff ≤ updatedAt}

/-- The loop of `MasterUpdate` over the hosts in some order. -/
def electBy (st : SharedTable) (cutoff : Nat) (hosts : List (Bytes × Nat × Nat)) : Candidate :=
  hosts.foldl (consider cutoff) (own st)

/-- The rows of the table in some order. -/
def OrderOf (st : SharedTable) (hosts : List (Bytes × Nat × Nat)) : Prop :=
  hosts.Perm st.remotes.rows

/-- If the node's own url is in its table, the counter there is not above its own. -/
def OwnRowBehind (st : SharedTable) : Prop :=
  ∀ logcounter updatedAt, st.remotes.get st.thisurl = some (logcounter, updatedAt) →
    logcounter ≤ st.logcounter

/-! ## The loop -/

/-- **One row**: an old one is skipped, another one acts as a maximum. -/
theorem consider_eq {cutoff : Nat} {best : Candidate} {p : Bytes × Nat × Nat}
    (hself : p.1 = best.url → p.2.1 ≤ best.logcounter) :
    consider cutoff best p = if p.2.2 < cutoff then best else max best (ofRow p) := by
  rw [consider]
  by_cases hold : p.2.2 < cutoff
  · rw [if_pos (Or.inl hold), if_pos hold]
  · rw [if_neg hold]
    by_cases hskip : p.2.1 < best.logcounter ∨ p.1 = best.url
    · -- a skipped row is not above the candidate
      rw [if_pos (Or.inr hskip)]
      refine (max_eq_left (not_lt.mp fun hlt => ?_)).symm
      rcases lt_iff.mp hlt with hcount | ⟨heq, hurl⟩
      · rcases hskip with hlow | hsame
        · exact absurd (hcount.trans hlow) (lt_irrefl _)
        · exact absurd (hself hsame) (not_le.mpr hcount)
      · rcases hskip with hlow | hsame
        · exact absurd heq (ne_of_gt hlow)
        · exact absurd hurl (hsame ▸ lt_irrefl _)
    · rw [if_neg (not_or.mpr ⟨hold, hskip⟩)]
      by_cases hgt : p.2.1 > best.logcounter ∨ (p.2.1 = best.logcounter ∧ p.1 > best.url)
      · have hlt : best < ofRow p := lt_iff.mpr (hgt.imp_right fun h => ⟨h.1.symm, h.2⟩)
        rw [if_pos hgt, max_eq_right hlt.le]
        rfl
      · have hle : ¬ best < ofRow p := fun hlt =>
          hgt ((lt_iff.mp hlt).imp_right fun h => ⟨h.1.symm, h.2⟩)
        rw [if_neg hgt, max_eq_left (not_lt.mp hle)]

/-- **The whole loop** ends with the greatest of the first candidate and the rows that count. -/
theorem foldl_consider (cutoff : Nat) {hosts : List (Bytes × Nat × Nat)}
    (hnodup : (hosts.map Prod.fst).Nodup) {best : Candidate}
    (hself : ∀ p ∈ hosts, p.1 = best.url → p.2.1 ≤ best.logcounter) :
    IsGreatest {c | c = best ∨ ∃ p ∈ hosts, cutoff ≤ p.2.2 ∧ c = ofRow p}
      (hosts.foldl (consider cutoff) best) := by
  -- by induction on the rows: a candidate from a row meets no other row with its url
  induction hosts generalizing best with
  | nil =>
    refine ⟨Or.inl rfl, fun c hc => ?_⟩
    rcases hc with rfl | ⟨p, hp, -⟩
    · exact le_refl _
    · cases hp
  | cons p hosts ih =>
    rw [List.map_cons, List.nodup_cons] at hnodup
    obtain ⟨hnew, hnodup⟩ := hnodup
    have hrest : ∀ q ∈ hosts, q.1 ≠ p.1 := fun q hq he =>
      hnew (he ▸ List.mem_map_of_mem hq)
    have hbest := fun q hq => hself q (List.mem_cons_of_mem _ hq)
    rw [List.foldl_cons, consider_eq (hself p List.mem_cons_self)]
    by_cases hold : p.2.2 < cutoff
    · rw [if_pos hold]
      obtain ⟨hmem, hub⟩ := ih hnodup hbest
      refine ⟨hmem.imp_right fun ⟨q, hq, h⟩ => ⟨q, List.mem_cons_of_mem _ hq, h⟩, fun c hc => ?_⟩
      rcases hc with hc | ⟨q, hq, hcut, hc⟩
      · exact hub (Or.inl hc)
      · rcases List.mem_cons.mp hq with rfl | hq
        · omega
        · exact hub (Or.inr ⟨q, hq, hcut, hc⟩)
    · rw [if_neg hold]
      have hcut : cutoff ≤ p.2.2 := not_lt.mp hold
      have hnext : ∀ q ∈ hosts, q.1 = (max best (ofRow p)).url →
          q.2.1 ≤ (max best (ofRow p)).logcounter := by
        intro q hq hurl
        rcases max_choice best (ofRow p) with hmax | hmax
        · rw [hmax] at hurl ⊢
          exact hbest q hq hurl
        · rw [hmax] at hurl
          exact absurd hurl (hrest q hq)
      obtain ⟨hmem, hub⟩ := ih hnodup hnext
      have hle : max best (ofRow p) ≤ hosts.foldl (consider cutoff) (max best (ofRow p)) :=
        hub (Or.inl rfl)
      refine ⟨?_, fun c hc => ?_⟩
      · rcases hmem with hmem | ⟨q, hq, h⟩
        · rcases max_choice best (ofRow p) with hmax | hmax
          · exact Or.inl (hmem.trans hmax)
          · exact Or.inr ⟨p, List.mem_cons_self, hcut, hmem.trans hmax⟩
        · exact Or.inr ⟨q, List.mem_cons_of_mem _ hq, h⟩
      · rcases hc with rfl | ⟨q, hq, hq', hc⟩
        · exact (le_max_left _ _).trans hle
        · rcases List.mem_cons.mp hq with rfl | hq
          · rw [hc]
            exact (le_max_right _ _).trans hle
          · exact hub (Or.inr ⟨q, hq, hq', hc⟩)

/-! ## The election -/

theorem nodup_hosts {st : SharedTable} {hosts : List (Bytes × Nat × Nat)} (h : OrderOf st hosts) :
    (hosts.map Prod.fst).Nodup := by
  have hperm : (hosts.map Prod.fst).Perm (st.remotes.rows.map Prod.fst) := h.map _
  refine hperm.nodup_iff.mpr (List.pairwise_map.mpr ?_)
  exact st.remotes.sorted.imp fun hlt => ne_of_lt hlt

theorem mem_hosts {st : SharedTable} {hosts : List (Bytes × Nat × Nat)} (h : OrderOf st hosts)
    {p : Bytes × Nat × Nat} : p ∈ hosts ↔ st.remotes.get p.1 = some p.2 := by
  rw [h.mem_iff, st.remotes.get_eq_some_iff]

/-- Whatever the order of the hosts, the loop ends with the greatest candidate. -/
theorem electBy_greatest {st : SharedTable} (hself : OwnRowBehind st) (cutoff : Nat)
    {hosts : List (Bytes × Nat × Nat)} (h : OrderOf st hosts) :
    IsGreatest (candidates st cutoff) (electBy st cutoff hosts) := by
  have hown : ∀ p ∈ hosts, p.1 = (own st).url → p.2.1 ≤ (own st).logcounter := by
    intro p hp hurl
    have hget := (mem_hosts h).mp hp
    rw [hurl] at hget
    exact hself p.2.1 p.2.2 hget
  have hgreatest := foldl_consider cutoff (nodup_hosts h) hown
  have hset : candidates st cutoff =
      {c | c = own st ∨ ∃ p ∈ hosts, cutoff ≤ p.2.2 ∧ c = ofRow p} := by
    ext c
    refine or_congr_right ⟨?_, ?_⟩
    · rintro ⟨updatedAt, hget, hcut⟩
      exact ⟨(c.url, c.logcounter, updatedAt), (mem_hosts h).mpr hget, hcut, rfl⟩
    · rintro ⟨p, hp, hcut, rfl⟩
      exact ⟨p.2.2, (mem_hosts h).mp hp, hcut⟩
  rw [hset]
  exact hgreatest

/-- **`MasterUpdate` elects the maximum**: for every order of the table, the node elected is the
    greatest of the node itself and the hosts that were updated since the cutoff; and two nodes that
    see the same candidates elect the same one. -/
theorem election_max {st st' : SharedTable} (hself : OwnRowBehind st) (hself' : OwnRowBehind st')
    (cutoff cutoff' : Nat) {hosts hosts' : List (Bytes × Nat × Nat)} (h : OrderOf st hosts)
    (h' : OrderOf st' hosts') :
    IsGreatest (candidates st cutoff) (electBy st cutoff hosts) ∧
      electBy st cutoff hosts = elect st cutoff ∧
      (candidates st cutoff = candidates st' cutoff' →
        electBy st cutoff hosts = electBy st' cutoff' hosts') := by
  have hmax := electBy_greatest hself cutoff h
  refine ⟨hmax, ?_, fun hsame => ?_⟩
  · exact hmax.unique (electBy_greatest hself cutoff (List.Perm.refl _))
  · rw [hsame] at hmax
    exact hmax.unique (electBy_greatest hself' cutoff' h')

/-- Node `a` knows `b`, and a row of itself from before. -/
def nodeA : SharedTable :=
  { thisurl := str "a", logcounter := 5
    remotes := (OrdMap.empty.put (str "b") (5, 20)).put (str "a") (4, 1) }

/-- Node `b` knows `a`. -/
def nodeB : SharedTable :=
  { thisurl := str "b", logcounter := 5, remotes := OrdMap.empty.put (str "a") (5, 20) }

theorem nodeA_get (url : Bytes) : nodeA.remotes.get url =
    if url = str "a" then some (4, 1) else if url = str "b" then some (5, 20) else none := by
  rw [nodeA, OrdMap.get_put, OrdMap.get_put, OrdMap.get_empty]
  split_ifs <;> rfl

theorem nodeB_get (url : Bytes) :
    nodeB.remotes.get url = if url = str "a" then some (5, 20) else none := by
  rw [nodeB, OrdMap.get_put, OrdMap.get_empty]
  split_ifs <;> rfl

/-- Both see the same candidates: the old row does not count. -/
theorem nodes_candidates : candidates nodeA 10 = candidates nodeB 10 := by
  have hab : str "b" ≠ str "a" := by decide
  ext c
  obtain ⟨n, url⟩ := c
  simp only [candidates, Set.mem_ofPred_eq, nodeA_get, nodeB_get]
  show (⟨n, url⟩ = (⟨5, str "a"⟩ : Candidate) ∨ _) ↔ ⟨n, url⟩ = (⟨5, str "b"⟩ : Candidate) ∨ _
  by_cases ha : url = str "a"
  · subst ha
    simp [hab.symm]
    omega
  · by_cases hb : url = str "b"
    · subst hb
      simp [hab]
      omega
    · simp [ha, hb]

/-- Both elect `b`, which has the greater url. -/
theorem election_max_two :
    electBy nodeA 10 nodeA.remotes.rows = electBy nodeB 10 nodeB.remotes.rows ∧
      (elect nodeA 10).url = str "b" := by
  have hA : OwnRowBehind nodeA := by
    intro n u hget
    rw [nodeA_get, if_pos (show nodeA.thisurl = str "a" from rfl)] at hget
    cases hget
    decide
  have hB : OwnRowBehind nodeB := by
    intro n u hget
    rw [nodeB_get, if_neg (show nodeB.thisurl ≠ str "a" by decide)] at hget
    cases hget
  exact ⟨(election_max hA hB 10 10 (List.Perm.refl _) (List.Perm.refl _)).2.2 nodes_candidates,
    by decide +kernel⟩

end Zapdos.Hrpc.Election
