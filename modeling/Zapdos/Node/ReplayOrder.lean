/-
  Concurrent write requests and the order of the log.

  The requests take their log ids in one order and may write their records in another.  A node that
  replays the log applies the entries in the order of their ids, and gets the records of the master if
  entries that were applied in the other order have no row in common.

  THE CRUX.  Two requests under way have a row in common only if they name one record.  Of two
  `ManageDataAction`s the one that reserves the name second fails; `ResetPassAction` reserves nothing
  (`Clash`).  So the records are the replay of the log as long as no request writes after one that
  clashes with it and has the later id (`maindb_eq_replay`).
-/
import Zapdos.Hrpc.SyncServer
import Zapdos.Store.RequestInvariant
import Zapdos.Store.StoreLevel

namespace Zapdos.Node.ReplayOrder

open Zapdos.Lib Zapdos.Store Zapdos.Store.Requests
open Zapdos.Hrpc (entryAt InOrder)

/-! ## Entries of the log -/

theorem entryAt_congr {st st' : SharedTable} (h : st'.logdb = st.logdb) (i : ℕ) :
    entryAt st' i = entryAt st i := by
  unfold entryAt
  rw [h]

theorem entryAt_write (st : SharedTable) {t : TransactionT} (hid : 0 < t.id) (i : ℕ) :
    entryAt { st with logdb := st.logdb.write (logBatch t) } i =
      if i = t.id then some t else entryAt st i := by
  unfold entryAt
  by_cases hi : i = t.id
  · rw [if_pos hi, hi, if_neg (by omega), logBatch_self]
    rfl
  · rw [if_neg hi]
    simp only [logBatch_entry_ne hi]

/-- The entries made since `σ`. -/
def newEntries (σ : IdleMaster) (st : SharedTable) : NumLog TransactionT := fun i =>
  if σ.st.logcounter < i then entryAt st i else none

/-! ## Threads and their entries -/

/-- The entry of a thread that has its log id and has not yet written its records. -/
def entryOf : Thread → Option TransactionT
  | .commit .numbered _ _ t => some t
  | .commit .logged _ _ t => some t
  | _ => none

/-- The two requests name one record, and one of them reserves nothing. -/
def Clash (r r' : Option Request) : Prop :=
  ∃ q ∈ r, ∃ q' ∈ r', (q.reserves = false ∨ q'.reserves = false) ∧ ∃ name ∈ q.names, name ∈ q'.names

/-- **The condition on a step**: no records are written after those of a request that clashes and has
    the later id. -/
def WritesInTurn (requests : ℕ → Option Request) (s : Sys) (l : Label) : Prop :=
  ∀ now nc t, s.threads l.thread = .commit .logged now nc t →
    ∀ o t', writtenOf (s.threads o) = some t' → t.id < t'.id →
      ¬ Clash (requests l.thread) (requests o)

/-- All requests have come to their end. -/
def Finished (requests : ℕ → Option Request) (s : Sys) : Prop :=
  ∀ o, requests o ≠ none → ∃ result, s.threads o = .ended result

theorem live_of_entryOf {th : Thread} {t : TransactionT} (h : entryOf th = some t) :
    ∃ nc, th.live = some (nc, t.item) := by
  cases th with
  | commit phase now nc t' =>
    cases phase with
    | begin => cases h
    | written => cases h
    | numbered =>
      cases h
      exact ⟨nc, rfl⟩
    | logged =>
      cases h
      exact ⟨nc, rfl⟩
  | waiting => cases h
  | manage k m task => cases h
  | leaving nc result => cases h
  | ended result => cases h

/-- **Two requests under way** have no row in common, or clash. -/
theorem apart_or_clash {requests : ℕ → Option Request} {s : Sys} {cs : ℕ → List RecChange}
    (h : Inv requests s cs) {o o' : ℕ} (ho : o ≠ o') {t t' : TransactionT}
    (he : entryOf (s.threads o) = some t) (he' : entryOf (s.threads o') = some t') :
    (∀ i ∈ t.item, ∀ j ∈ t'.item, i.key ≠ j.key) ∨ Clash (requests o) (requests o') := by
  obtain ⟨nc, hl⟩ := live_of_entryOf he
  obtain ⟨nc', hl'⟩ := live_of_entryOf he'
  obtain ⟨r, hr, hcol⟩ := h.live o nc t.item hl
  obtain ⟨r', hr', hcol'⟩ := h.live o' nc' t'.item hl'
  by_cases hshare : ∃ c ∈ cs o, ∃ c' ∈ cs o', c.name = c'.name
  · obtain ⟨c, hc, c', hc', hname⟩ := hshare
    refine Or.inr ⟨r, hr, r', hr', ?_, c.name, hcol.named c hc, hname ▸ hcol'.named c' hc'⟩
    rcases hcol.owned c hc with ⟨-, hlock⟩ | ⟨hno, -⟩
    · rcases hcol'.owned c' hc' with ⟨-, hlock'⟩ | ⟨hno', -⟩
      · -- two reservations of one name
        rw [← locks_of_live hl] at hlock
        rw [← locks_of_live hl', ← RecChange.lock_of_name hname] at hlock'
        exact absurd hlock' (h.excl o o' ho c.lock hlock)
      · exact Or.inr hno'
    · exact Or.inl hno
  · left
    rw [hcol.items, hcol'.items]
    refine RecChange.key_ne_of_batch fun c hc c' hc' => ?_
    exact RecChange.apart_of_fits h.store (hcol.fits c hc) (hcol'.fits c' hc')
      (h.compatible ho hl hl' c hc c' hc') fun hname => hshare ⟨c, hc, c', hc', hname⟩

/-! ## The invariant -/

/-- The records are the replay of `f`, the entries since `σ` whose records are written. -/
structure Replayed (requests : ℕ → Option Request) (σ : IdleMaster) (s : Sys)
    (f : NumLog TransactionT) : Prop where
  base : σ.st.logcounter ≤ s.table.logcounter
  data : s.table.maindb = NumLog.replay applyItems f σ.st.maindb s.table.logcounter
  old : ∀ i, i ≤ σ.st.logcounter → entryAt s.table i = entryAt σ.st i
  acted : ∀ i t, f i = some t → σ.st.logcounter < i ∧ i ≤ s.table.logcounter ∧ t.id = i ∧
    entryAt s.table i = some t ∧ ∃ o, writtenOf (s.threads o) = some t
  entry : ∀ o t, entryOf (s.threads o) = some t →
    σ.st.logcounter < t.id ∧ t.id ≤ s.table.logcounter ∧ f t.id = none
  distinct : ∀ o o' t t', o ≠ o' → entryOf (s.threads o) = some t →
    entryOf (s.threads o') = some t' → t.id ≠ t'.id
  logged : ∀ o now nc t, s.threads o = .commit .logged now nc t → entryAt s.table t.id = some t
  entries : ∀ i t, σ.st.logcounter < i → entryAt s.table i = some t →
    t.id = i ∧ (f i = some t ∨ ∃ o, entryOf (s.threads o) = some t)
  late : ∀ o t, entryOf (s.threads o) = some t → ∀ j t', f j = some t' → t.id < j →
    (∀ a ∈ t.item, ∀ b ∈ t'.item, a.key ≠ b.key) ∨
      ∃ o', writtenOf (s.threads o') = some t' ∧ Clash (requests o) (requests o')

/-- What the threads show after one of them has moved. -/
theorem entryOf_update {threads : ℕ → Thread} {o : ℕ} {th' : Thread} {o' : ℕ} {t : TransactionT}
    (h : entryOf (Function.update threads o th' o') = some t) :
    (o' = o ∧ entryOf th' = some t) ∨ (o' ≠ o ∧ entryOf (threads o') = some t) := by
  by_cases ho : o' = o
  · subst ho
    rw [Function.update_self] at h
    exact Or.inl ⟨rfl, h⟩
  · rw [Function.update_of_ne ho] at h
    exact Or.inr ⟨ho, h⟩

theorem writtenOf_update {threads : ℕ → Thread} {o : ℕ} {th' : Thread}
    (hkeep : ∀ t, writtenOf (threads o) = some t → writtenOf th' = some t) {o' : ℕ}
    {t : TransactionT} (h : writtenOf (threads o') = some t) :
    writtenOf (Function.update threads o th' o') = some t := by
  by_cases ho : o' = o
  · subst ho
    rw [Function.update_self]
    exact hkeep t h
  · rw [Function.update_of_ne ho]
    exact h

/-- A step before the log id is taken, or after the records are written. -/
theorem Replayed.quiet {requests : ℕ → Option Request} {σ : IdleMaster} {s : Sys}
    {f : NumLog TransactionT} (h : Replayed requests σ s f) {o : ℕ} {st' : SharedTable}
    {th' : Thread} (hdb : st'.maindb = s.table.maindb) (hlog : st'.logdb = s.table.logdb)
    (hcount : st'.logcounter = s.table.logcounter) (hbefore : entryOf (s.threads o) = none)
    (hafter : entryOf th' = none)
    (hkeep : ∀ t, writtenOf (s.threads o) = some t → writtenOf th' = some t) :
    Replayed requests σ ⟨st', Function.update s.threads o th'⟩ f := by
  -- the threads with an entry are the same
  have hentry : ∀ o' t, entryOf (Function.update s.threads o th' o') = some t →
      entryOf (s.threads o') = some t := by
    intro o' t he
    rcases entryOf_update he with ⟨-, he⟩ | ⟨-, he⟩
    · rw [hafter] at he
      cases he
    · exact he
  have hsame := entryAt_congr hlog
  refine ⟨?_, ?_, ?_, ?_, ?_, ?_, ?_, ?_, ?_⟩
  · rw [hcount]
    exact h.base
  · rw [hdb, hcount]
    exact h.data
  · intro i hi
    rw [hsame]
    exact h.old i hi
  · intro i t hf
    obtain ⟨hlt, hle, hid, hat, o', hw⟩ := h.acted i t hf
    rw [hcount, hsame]
    exact ⟨hlt, hle, hid, hat, o', writtenOf_update hkeep hw⟩
  · intro o' t he
    rw [hcount]
    exact h.entry o' t (hentry o' t he)
  · intro o₁ o₂ t₁ t₂ hne he₁ he₂
    exact h.distinct o₁ o₂ t₁ t₂ hne (hentry o₁ t₁ he₁) (hentry o₂ t₂ he₂)
  · intro o' now nc t ht
    rw [hsame]
    by_cases ho : o' = o
    · subst ho
      simp only [Function.update_self] at ht
      rw [ht] at hafter
      cases hafter
    · simp only [Function.update_of_ne ho] at ht
      exact h.logged o' now nc t ht
  · intro i t hi hat
    rw [hsame] at hat
    obtain ⟨hid, hf | ⟨o', he⟩⟩ := h.entries i t hi hat
    · exact ⟨hid, Or.inl hf⟩
    · refine ⟨hid, Or.inr ⟨o', ?_⟩⟩
      have hne : o' ≠ o := by
        rintro rfl
        rw [hbefore] at he
        cases he
      show entryOf (Function.update s.threads o th' o') = some t
      rw [Function.update_of_ne hne]
      exact he
  · intro o' t he j t' hf hlt
    rcases h.late o' t (hentry o' t he) j t' hf hlt with hap | ⟨o₁, hw, hc⟩
    · exact Or.inl hap
    · exact Or.inr ⟨o₁, writtenOf_update hkeep hw, hc⟩

/-- A thread takes its log id. -/
theorem Replayed.number {requests : ℕ → Option Request} {σ : IdleMaster} {s : Sys}
    {f : NumLog TransactionT} (h : Replayed requests σ s f) {o now : ℕ} {nc : TempNameCache}
    {t : TransactionT} (ho : s.threads o = .commit .begin now nc t) :
    Replayed requests σ ⟨{ s.table with logcounter := s.table.logcounter + 1 },
      Function.update s.threads o
        (.commit .numbered now nc (stamp now t true (s.table.logcounter + 1)))⟩ f := by
  have hbelow : NumLog.Below f s.table.logcounter := by
    intro i hi
    cases hf : f i with
    | none => rfl
    | some e =>
      obtain ⟨-, hle, -⟩ := h.acted i e hf
      omega
  have hsame : ∀ i, entryAt { s.table with logcounter := s.table.logcounter + 1 } i =
      entryAt s.table i := fun i => rfl
  have hid : (stamp now t true (s.table.logcounter + 1)).id = s.table.logcounter + 1 :=
    stamp_id _ _ _ _
  have hkeep : ∀ t', writtenOf (s.threads o) = some t' → writtenOf
      (.commit .numbered now nc (stamp now t true (s.table.logcounter + 1))) = some t' := by
    intro t' hw
    rw [ho] at hw
    cases hw
  refine ⟨?_, ?_, h.old, ?_, ?_, ?_, ?_, ?_, ?_⟩
  · exact h.base.trans (Nat.le_succ _)
  · exact h.data.trans (NumLog.replay_below applyItems hbelow _ (Nat.le_succ _)).symm
  · intro i t' hf
    obtain ⟨hlt, hle, hti, hat, o', hw⟩ := h.acted i t' hf
    exact ⟨hlt, hle.trans (Nat.le_succ _), hti, hat, o', writtenOf_update hkeep hw⟩
  · intro o' t' he
    rcases entryOf_update he with ⟨-, he⟩ | ⟨-, he⟩
    · cases he
      rw [hid]
      exact ⟨Nat.lt_succ_of_le h.base, le_rfl, hbelow _ (Nat.lt_succ_self _)⟩
    · obtain ⟨hlt, hle, hf⟩ := h.entry o' t' he
      exact ⟨hlt, hle.trans (Nat.le_succ _), hf⟩
  · intro o₁ o₂ t₁ t₂ hne he₁ he₂
    -- the new id is past all others
    rcases entryOf_update he₁ with ⟨h₁, he₁⟩ | ⟨h₁, he₁⟩
    · rcases entryOf_update he₂ with ⟨h₂, -⟩ | ⟨-, he₂⟩
      · exact absurd (h₁.trans h₂.symm) hne
      · cases he₁
        obtain ⟨-, hle, -⟩ := h.entry o₂ t₂ he₂
        omega
    · rcases entryOf_update he₂ with ⟨-, he₂⟩ | ⟨-, he₂⟩
      · cases he₂
        obtain ⟨-, hle, -⟩ := h.entry o₁ t₁ he₁
        omega
      · exact h.distinct o₁ o₂ t₁ t₂ hne he₁ he₂
  · intro o' now' nc' t' ht
    by_cases hoo : o' = o
    · subst hoo
      simp only [Function.update_self] at ht
      cases ht
    · simp only [Function.update_of_ne hoo] at ht
      exact h.logged o' now' nc' t' ht
  · intro i t' hi hat
    obtain ⟨hti, hf | ⟨o', he⟩⟩ := h.entries i t' hi hat
    · exact ⟨hti, Or.inl hf⟩
    · refine ⟨hti, Or.inr ⟨o', ?_⟩⟩
      have hne : o' ≠ o := by
        rintro rfl
        rw [ho] at he
        cases he
      show entryOf (Function.update s.threads o _ o') = some t'
      rw [Function.update_of_ne hne]
      exact he
  · intro o' t' he j e hf hlt
    rcases entryOf_update he with ⟨-, he⟩ | ⟨-, he⟩
    · cases he
      obtain ⟨-, hle, -⟩ := h.acted j e hf
      omega
    · rcases h.late o' t' he j e hf hlt with hap | ⟨o₁, hw, hc⟩
      · exact Or.inl hap
      · exact Or.inr ⟨o₁, writtenOf_update hkeep hw, hc⟩

/-- A thread writes its log entry. -/
theorem Replayed.log {requests : ℕ → Option Request} {σ : IdleMaster} {s : Sys}
    {f : NumLog TransactionT} (h : Replayed requests σ s f) {o now : ℕ} {nc : TempNameCache}
    {t : TransactionT} (ho : s.threads o = .commit .numbered now nc t) :
    Replayed requests σ ⟨{ s.table with logdb := s.table.logdb.write (logBatch t) },
      Function.update s.threads o (.commit .logged now nc t)⟩ f := by
  have hmine : entryOf (s.threads o) = some t := by
    rw [ho]
    rfl
  obtain ⟨hbase, hle, hnone⟩ := h.entry o t hmine
  have hat := entryAt_write s.table (by omega : 0 < t.id)
  -- the threads with an entry are the same
  have hentry : ∀ o' t', entryOf (Function.update s.threads o (.commit .logged now nc t) o') =
      some t' ↔ entryOf (s.threads o') = some t' := by
    intro o' t'
    by_cases hoo : o' = o
    · rw [hoo, Function.update_self, hmine]
      exact Iff.rfl
    · rw [Function.update_of_ne hoo]
  have hkeep : ∀ t', writtenOf (s.threads o) = some t' →
      writtenOf (.commit .logged now nc t) = some t' := by
    intro t' hw
    rw [ho] at hw
    cases hw
  refine ⟨h.base, h.data, ?_, ?_, ?_, ?_, ?_, ?_, ?_⟩
  · intro i hi
    rw [hat, if_neg (by omega)]
    exact h.old i hi
  · intro i t' hf
    obtain ⟨hlt, hle', hti, hat', o', hw⟩ := h.acted i t' hf
    have hne : i ≠ t.id := by
      rintro rfl
      rw [hnone] at hf
      cases hf
    rw [hat, if_neg hne]
    exact ⟨hlt, hle', hti, hat', o', writtenOf_update hkeep hw⟩
  · intro o' t' he
    exact h.entry o' t' ((hentry o' t').mp he)
  · intro o₁ o₂ t₁ t₂ hne he₁ he₂
    exact h.distinct o₁ o₂ t₁ t₂ hne ((hentry o₁ t₁).mp he₁) ((hentry o₂ t₂).mp he₂)
  · intro o' now' nc' t' ht
    by_cases hoo : o' = o
    · subst hoo
      simp only [Function.update_self] at ht
      cases ht
      rw [hat, if_pos rfl]
    · simp only [Function.update_of_ne hoo] at ht
      have he : entryOf (s.threads o') = some t' := by
        rw [ht]
        rfl
      rw [hat, if_neg (h.distinct o' o t' t hoo he hmine)]
      exact h.logged o' now' nc' t' ht
  · intro i t' hi hat'
    rw [hat] at hat'
    split at hat'
    · rename_i hit
      cases hat'
      exact ⟨hit.symm, Or.inr ⟨o, (hentry o t).mpr hmine⟩⟩
    · obtain ⟨hti, hf | ⟨o', he⟩⟩ := h.entries i t' hi hat'
      · exact ⟨hti, Or.inl hf⟩
      · exact ⟨hti, Or.inr ⟨o', (hentry o' t').mpr he⟩⟩
  · intro o' t' he j e hf hlt
    rcases h.late o' t' ((hentry o' t').mp he) j e hf hlt with hap | ⟨o₁, hw, hc⟩
    · exact Or.inl hap
    · exact Or.inr ⟨o₁, writtenOf_update hkeep hw, hc⟩

/-- **A thread writes its records**: in turn, they might as well have been written before those of the
    later ids. -/
theorem Replayed.write {requests : ℕ → Option Request} {σ : IdleMaster} {s : Sys}
    {f : NumLog TransactionT} {cs : ℕ → List RecChange} (h : Replayed requests σ s f)
    (hinv : Inv requests s cs) {o now : ℕ} {nc : TempNameCache} {t : TransactionT}
    (ho : s.threads o = .commit .logged now nc t)
    (hturn : ∀ o' t', writtenOf (s.threads o') = some t' → t.id < t'.id →
      ¬ Clash (requests o) (requests o')) :
    Replayed requests σ ⟨{ s.table with maindb := s.table.maindb.write (dataBatch t.item) },
      Function.update s.threads o (.commit .written now nc t)⟩
        (Function.update f t.id (some t)) := by
  have hmine : entryOf (s.threads o) = some t := by
    rw [ho]
    rfl
  obtain ⟨hbase, hle, hnone⟩ := h.entry o t hmine
  have hat := h.logged o now nc t ho
  have hkeep : ∀ t', writtenOf (s.threads o) = some t' →
      writtenOf (.commit .written now nc t) = some t' := by
    intro t' hw
    rw [ho] at hw
    cases hw
  have hwritten : writtenOf (Function.update s.threads o (.commit .written now nc t) o) =
      some t := by
    rw [Function.update_self]
    rfl
  -- the other threads with an entry are the same
  have hentry : ∀ o' t', entryOf (Function.update s.threads o (.commit .written now nc t) o') =
      some t' → o' ≠ o ∧ entryOf (s.threads o') = some t' := by
    intro o' t' he
    rcases entryOf_update he with ⟨-, he⟩ | ⟨hne, he⟩
    · cases he
    · exact ⟨hne, he⟩
  refine ⟨h.base, ?_, h.old, ?_, ?_, ?_, ?_, ?_, ?_⟩
  · show applyItems s.table.maindb t = _
    rw [NumLog.replay_insert applyItems (by omega) hnone _ hle, ← h.data]
    intro j e hlt hj hf x
    rcases h.late o t hmine j e hf hlt with hap | ⟨o', hw, hc⟩
    · exact (applyItems_comm x hap).symm
    · obtain ⟨-, -, hej, -⟩ := h.acted j e hf
      exact absurd hc (hturn o' e hw (by omega))
  · intro i t' hf
    by_cases hi : i = t.id
    · rw [hi, Function.update_self] at hf
      cases hf
      rw [hi]
      exact ⟨hbase, hle, rfl, hat, o, hwritten⟩
    · rw [Function.update_of_ne hi] at hf
      obtain ⟨hlt, hle', hti, hat', o', hw⟩ := h.acted i t' hf
      exact ⟨hlt, hle', hti, hat', o', writtenOf_update hkeep hw⟩
  · intro o' t' he
    obtain ⟨hne, he⟩ := hentry o' t' he
    obtain ⟨hlt, hle', hf⟩ := h.entry o' t' he
    refine ⟨hlt, hle', ?_⟩
    rw [Function.update_of_ne (h.distinct o' o t' t hne he hmine)]
    exact hf
  · intro o₁ o₂ t₁ t₂ hne he₁ he₂
    exact h.distinct o₁ o₂ t₁ t₂ hne (hentry o₁ t₁ he₁).2 (hentry o₂ t₂ he₂).2
  · intro o' now' nc' t' ht
    by_cases hoo : o' = o
    · subst hoo
      simp only [Function.update_self] at ht
      cases ht
    · simp only [Function.update_of_ne hoo] at ht
      exact h.logged o' now' nc' t' ht
  · intro i t' hi hat'
    obtain ⟨hti, hf | ⟨o', he⟩⟩ := h.entries i t' hi hat'
    · refine ⟨hti, Or.inl ?_⟩
      have hne : i ≠ t.id := by
        rintro rfl
        rw [hnone] at hf
        cases hf
      rw [Function.update_of_ne hne]
      exact hf
    · by_cases hoo : o' = o
      · -- its own entry
        rw [hoo, hmine] at he
        cases he
        refine ⟨hti, Or.inl ?_⟩
        rw [← hti, Function.update_self]
      · refine ⟨hti, Or.inr ⟨o', ?_⟩⟩
        show entryOf (Function.update s.threads o _ o') = some t'
        rw [Function.update_of_ne hoo]
        exact he
  · intro o' t' he j e hf hlt
    obtain ⟨hne, he⟩ := hentry o' t' he
    by_cases hj : j = t.id
    · rw [hj, Function.update_self] at hf
      cases hf
      rcases apart_or_clash hinv hne he hmine with hap | hc
      · exact Or.inl hap
      · exact Or.inr ⟨o, hwritten, hc⟩
    · rw [Function.update_of_ne hj] at hf
      rcases h.late o' t' he j e hf hlt with hap | ⟨o₁, hw, hc⟩
      · exact Or.inl hap
      · exact Or.inr ⟨o₁, writtenOf_update hkeep hw, hc⟩

/-- Before its commit a request leaves records and log alone. -/
theorem advances_log {T : Type} {sv : Service T} {m : Manage} {st st' : SharedTable}
    {t t' : Progress T} {adds : List (Change T)} (hlaw : sv.Lawful)
    (h : sv.Advances m st t st' t' adds) :
    st'.maindb = st.maindb ∧ st'.logdb = st.logdb ∧ st'.logcounter = st.logcounter := by
  cases h with
  | read hrest hstage hfirst hcheck hprepare => exact ⟨rfl, rfl, rfl⟩
  | reserve hrest hstage hfirst hcheck hreserve =>
    obtain ⟨-, -, rfl, -⟩ := hlaw.reserve_eq_ok.mp hreserve
    exact ⟨rfl, rfl, rfl⟩
  | reserveRead hrest hstage hreserve =>
    obtain ⟨-, -, rfl, -⟩ := hlaw.reserve_eq_ok.mp hreserve
    exact ⟨rfl, rfl, rfl⟩
  | readReserved hrest hstage hprepare => exact ⟨rfl, rfl, rfl⟩
  | number hrest hstage hmay => exact ⟨rfl, rfl, rfl⟩
  | add hrest hstage hadd => exact ⟨rfl, rfl, rfl⟩

/-- **One step**, taken in turn. -/
theorem replayed_moves {requests : ℕ → Option Request} {σ : IdleMaster} {s : Sys}
    {f : NumLog TransactionT} {cs : ℕ → List RecChange} (h : Replayed requests σ s f)
    (hinv : Inv requests s cs) {l : Label} {st' : SharedTable} {th th' : Thread}
    {adds : List RecChange} (ho : s.threads l.thread = th) (hturn : WritesInTurn requests s l)
    (hm : Moves (requests l.thread) s.table l.env th st' th' adds) :
    ∃ f', Replayed requests σ ⟨st', Function.update s.threads l.thread th'⟩ f' := by
  have hentry : ∀ {th₀ : Thread}, th₀ = th → entryOf th₀ = none →
      entryOf (s.threads l.thread) = none := by
    rintro th₀ rfl he
    rw [ho]
    exact he
  have hkeep : (∀ t, writtenOf th = some t → writtenOf th' = some t) →
      ∀ t, writtenOf (s.threads l.thread) = some t → writtenOf th' = some t := by
    intro hw
    rw [ho]
    exact hw
  cases hm with
  | start hr => exact ⟨f, h.quiet rfl rfl rfl (hentry rfl rfl) rfl (hkeep (by simp [writtenOf]))⟩
  | reset hr hold =>
    exact ⟨f, h.quiet rfl rfl rfl (hentry rfl rfl) rfl (hkeep (by simp [writtenOf]))⟩
  | refuse hr => exact ⟨f, h.quiet rfl rfl rfl (hentry rfl rfl) rfl (hkeep (by simp [writtenOf]))⟩
  | @advance k m task st₁ task' adds hadv =>
    obtain ⟨hdb, hlog, hcount⟩ := advances_log k.service_lawful hadv
    exact ⟨f, h.quiet hdb hlog hcount (hentry rfl rfl) rfl (hkeep (by simp [writtenOf]))⟩
  | fail => exact ⟨f, h.quiet rfl rfl rfl (hentry rfl rfl) rfl (hkeep (by simp [writtenOf]))⟩
  | finish hrest =>
    exact ⟨f, h.quiet rfl rfl rfl (hentry rfl rfl) rfl (hkeep (by simp [writtenOf]))⟩
  | empty hitem =>
    exact ⟨f, h.quiet rfl rfl rfl (hentry rfl rfl) rfl (hkeep (by simp [writtenOf]))⟩
  | number hitem => exact ⟨f, h.number ho⟩
  | log => exact ⟨f, h.log ho⟩
  | write => exact ⟨_, h.write hinv ho (hturn _ _ _ ho)⟩
  | @push now nc t =>
    have hsame := commitTail_same s.table t true l.env
    exact ⟨f, h.quiet hsame.maindb hsame.logdb hsame.logcounter (hentry rfl rfl) rfl
      (hkeep (by simp [writtenOf]))⟩
  | leave => exact ⟨f, h.quiet rfl rfl rfl (hentry rfl rfl) rfl (hkeep (by simp [writtenOf]))⟩

theorem replayed_init (requests : ℕ → Option Request) (σ : IdleMaster) :
    Replayed requests σ ⟨σ.st, fun _ => .waiting⟩ (fun _ => none) := by
  refine ⟨le_rfl, ?_, fun _ _ => rfl, ?_, ?_, ?_, ?_, ?_, ?_⟩
  · exact (@NumLog.replay_below _ _ applyItems (fun _ => none) 0 (fun _ _ => rfl) _ _
      (Nat.zero_le _)).symm
  · intro i t hf
    cases hf
  · intro o t he
    cases he
  · intro o o' t t' _ he
    cases he
  · intro o now nc t ht
    cases ht
  · intro i t hi hat
    unfold entryAt at hat
    rw [if_neg (by omega), σ.log i hi] at hat
    cases hat
  · intro o t he
    cases he

/-- **Every run in turn.** -/
theorem replayed_reach {requests : ℕ → Option Request} {σ : IdleMaster} {s : Sys}
    (h : (machine requests σ).ReachWhere (WritesInTurn requests) s) :
    ∃ cs f, Inv requests s cs ∧ Replayed requests σ s f := by
  refine h.invariant (I := fun s => ∃ cs f, Inv requests s cs ∧ Replayed requests σ s f)
    (fun s hi => ?_) (fun s l s' hi hturn hs => ?_)
  · obtain rfl : s = ⟨σ.st, fun _ => .waiting⟩ := hi
    exact ⟨_, _, inv_init requests σ, replayed_init requests σ⟩
  · obtain ⟨cs, f, hinv, hrep⟩ := hi
    obtain ⟨⟨st', th'⟩, hth, rfl⟩ := Option.map_eq_some_iff.mp hs
    obtain ⟨adds, hm⟩ := threadStep_moves hinv.store hth
    obtain ⟨f', hrep'⟩ := replayed_moves hrep hinv rfl hturn hm
    exact ⟨_, f', inv_moves hinv rfl hm, hrep'⟩

/-! ## The records and the log -/

/-- **The records are what the log says**: those of `σ` with the later entries applied in the order of
    their ids; so a slave that has replayed the whole log ends with the same records. -/
structure AsReplayed (σ : IdleMaster) (st : SharedTable) : Prop where
  replay : st.maindb = NumLog.replay applyItems (newEntries σ st) σ.st.maindb st.logcounter
  slave : ∀ base f slave g, InOrder base σ.st f → InOrder base slave g →
    slave.logcounter = st.logcounter → NumLog.AgreeTo g (entryAt st) st.logcounter →
      slave.maindb = st.maindb

/-- Once all requests are over, every entry has acted. -/
theorem Replayed.newEntries_eq {requests : ℕ → Option Request} {σ : IdleMaster} {s : Sys}
    {f : NumLog TransactionT} {cs : ℕ → List RecChange} (h : Replayed requests σ s f)
    (hinv : Inv requests s cs) (hover : Finished requests s) : newEntries σ s.table = f := by
  have hnone : ∀ o t, entryOf (s.threads o) ≠ some t := by
    intro o t he
    obtain ⟨nc, hl⟩ := live_of_entryOf he
    obtain ⟨r, hr, -⟩ := hinv.live o nc t.item hl
    obtain ⟨result, ho⟩ := hover o (by simp [hr])
    rw [ho] at he
    cases he
  funext i
  unfold newEntries
  split
  · rename_i hi
    cases hat : entryAt s.table i with
    | none =>
      cases hf : f i with
      | none => rfl
      | some t =>
        obtain ⟨-, -, -, hsome, -⟩ := h.acted i t hf
        rw [hat] at hsome
        cases hsome
    | some t =>
      obtain ⟨-, hf | ⟨o, he⟩⟩ := h.entries i t hi hat
      · exact hf.symm
      · exact absurd he (hnone o t)
  · rename_i hi
    cases hf : f i with
    | none => rfl
    | some t =>
      obtain ⟨hlt, -⟩ := h.acted i t hf
      exact absurd hlt hi

/-- **Concurrent write requests and the log**: in a run whose writes are all in turn, once the requests
    are over the records are what the log says. -/
theorem maindb_eq_replay {requests : ℕ → Option Request} {σ : IdleMaster} {s : Sys}
    (h : (machine requests σ).ReachWhere (WritesInTurn requests) s)
    (hover : Finished requests s) : AsReplayed σ s.table := by
  obtain ⟨cs, f, hinv, hrep⟩ := replayed_reach h
  have hnew := hrep.newEntries_eq hinv hover
  have hdata : s.table.maindb =
      NumLog.replay applyItems (newEntries σ s.table) σ.st.maindb s.table.logcounter := by
    rw [hnew]
    exact hrep.data
  refine ⟨hdata, ?_⟩
  intro base f₀ slave g hσ hslave hcount hagree
  -- the entries up to the counter of `σ` are those of `σ`
  have hold : NumLog.AgreeTo (entryAt s.table) f₀ σ.st.logcounter := by
    intro i _ hi
    rw [hrep.old i hi]
    exact Zapdos.Hrpc.entryAt_of_holds hσ.holds hσ.upTo.zero i
  calc slave.maindb
      = NumLog.replay applyItems g base s.table.logcounter := by rw [hslave.data, hcount]
    _ = NumLog.replay applyItems (entryAt s.table) base s.table.logcounter :=
        NumLog.replay_congr applyItems hagree base
    _ = NumLog.replay applyItems (newEntries σ s.table)
          (NumLog.replay applyItems (entryAt s.table) base σ.st.logcounter) s.table.logcounter :=
        NumLog.replay_since applyItems _ base hrep.base
    _ = NumLog.replay applyItems (newEntries σ s.table) σ.st.maindb s.table.logcounter := by
        rw [NumLog.replay_congr applyItems hold base, ← hσ.data]
    _ = s.table.maindb := hdata.symm

/-- Requests that do not clash write in turn, whatever the order of their steps. -/
theorem writesInTurn_of_not_clash {requests : ℕ → Option Request}
    (h : ∀ o o', o ≠ o' → ¬ Clash (requests o) (requests o')) (s : Sys) (l : Label) :
    WritesInTurn requests s l := by
  intro now nc t ho o t' hw _
  by_cases hoo : l.thread = o
  · -- it has not written its own records
    rw [← hoo, ho] at hw
    cases hw
  · exact h l.thread o hoo

/-! ## Two resets -/

/-- A new passkey for a user. -/
def newPass (user pass : String) : Request :=
  .resetPass .user 0 { username := str user, oldpass := str "old", newpass := str pass }

/-- Two requests. -/
def both (r r' : Request) : ℕ → Option Request
  | 0 => some r
  | 1 => some r'
  | _ => none

/-- The first takes its log id before the second, and writes its records after it. -/
def overtaking : List Label :=
  [0, 0, 0, 1, 1, 1, 1, 0, 0, 0, 1, 1].map fun o => { thread := o }

def hasEnded : Thread → Bool
  | .ended _ => true
  | _ => false

theorem finished_both {r r' : Request} {s : Sys} (h : hasEnded (s.threads 0) = true)
    (h' : hasEnded (s.threads 1) = true) : Finished (both r r') s := by
  have hover : ∀ {th : Thread}, hasEnded th = true → ∃ result, th = .ended result := by
    intro th hth
    cases th with
    | ended result => exact ⟨result, rfl⟩
    | waiting => cases hth
    | manage k m task => cases hth
    | commit phase now nc t => cases hth
    | leaving nc result => cases hth
  intro o ho
  rcases o with _ | _ | o
  · exact hover h
  · exact hover h'
  · exact absurd rfl ho

theorem not_clash_both {r r' : Request} (h : ∀ name ∈ r.names, name ∉ r'.names) :
    ∀ o o', o ≠ o' → ¬ Clash (both r r' o) (both r r' o') := by
  rintro o o' hne ⟨q, hq, q', hq', -, name, hname, hname'⟩
  rcases o with _ | _ | o
  · rcases o' with _ | _ | o'
    · exact hne rfl
    · cases hq
      cases hq'
      exact h name hname hname'
    · cases hq'
  · rcases o' with _ | _ | o'
    · cases hq
      cases hq'
      exact h name hname' hname
    · exact hne rfl
    · cases hq'
  · cases hq

/-- The passkey of `ann`. -/
def annPass (db : DataDb) : Option Bytes :=
  (PasswordReset.stored .user db (str "ann")).map UserDataT.passkey

/-- Two resets of one passkey: the master has that of the first request, its log ends with the
    second. -/
theorem resets_diverge :
    ¬ ∀ (requests : ℕ → Option Request) (σ : IdleMaster) (s : Sys),
      (machine requests σ).Reach s → Finished requests s → AsReplayed σ s.table := by
  intro hall
  have hrun : ((machine (both (newPass "ann" "red") (newPass "ann" "blue")) annAndBob).exec
      ⟨annAndBob.st, fun _ => .waiting⟩ overtaking).map (fun s =>
        (hasEnded (s.threads 0), hasEnded (s.threads 1), annPass s.table.maindb,
          annPass (NumLog.replay applyItems (newEntries annAndBob s.table) annAndBob.st.maindb
            s.table.logcounter))) =
      some (true, true, some (str "red"), some (str "blue")) := by decide +kernel
  obtain ⟨s, hs, hv⟩ := Option.map_eq_some_iff.mp hrun
  simp only [Prod.mk.injEq] at hv
  obtain ⟨h0, h1, hmaster, hlog⟩ := hv
  have hrep := (hall _ _ s (Machine.Reach.of_exec rfl hs) (finished_both h0 h1)).replay
  rw [← hrep, hmaster] at hlog
  exact absurd hlog (by decide)

/-- Resets of two users may overtake each other. -/
theorem maindb_eq_replay_two :
    ∃ s, (machine (both (newPass "ann" "red") (newPass "bob" "blue")) annAndBob).exec
        ⟨annAndBob.st, fun _ => .waiting⟩ overtaking = some s ∧
      annPass s.table.maindb = some (str "red") ∧ AsReplayed annAndBob s.table := by
  have hrun : ((machine (both (newPass "ann" "red") (newPass "bob" "blue")) annAndBob).exec
      ⟨annAndBob.st, fun _ => .waiting⟩ overtaking).map (fun s =>
        (hasEnded (s.threads 0), hasEnded (s.threads 1), annPass s.table.maindb)) =
      some (true, true, some (str "red")) := by decide +kernel
  obtain ⟨s, hs, hv⟩ := Option.map_eq_some_iff.mp hrun
  simp only [Prod.mk.injEq] at hv
  obtain ⟨h0, h1, hmaster⟩ := hv
  have hno := @not_clash_both (newPass "ann" "red") (newPass "bob" "blue") (by decide)
  have hreach : (machine (both (newPass "ann" "red") (newPass "bob" "blue")) annAndBob).ReachWhere
      (WritesInTurn (both (newPass "ann" "red") (newPass "bob" "blue"))) s :=
    (Machine.Reach.of_exec rfl hs).mono fun s l _ => writesInTurn_of_not_clash hno s l
  exact ⟨s, hs, hmaster, maindb_eq_replay hreach (finished_both h0 h1)⟩

end Zapdos.Node.ReplayOrder
