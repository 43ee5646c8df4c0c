/-
  `CompareLog` over all runs of a cluster.

  `CompareLog` asks for the entry before the last one and compares timestamps.

  THE CRUX.  In a run in step, a common timestamp under one id means that the two logs share
  everything up to there, so what is accepted shares all but its last entry
  (`Inv.accepted`).  The last entry is compared with nothing.  An old master that wrote one entry more
  than anyone pulled comes back, is accepted by the promoted slave, which has another entry there, and
  goes on pulling on top of its own (`old_master_accepted`).
-/
import Zapdos.Hrpc.Failover

namespace Zapdos.Hrpc.Failover

open Zapdos.Lib Zapdos.Store Replication

/-! ## What `CompareLog` reads -/

/-- An accepted log has at most one entry, or its last but one has the timestamp of the other log. -/
theorem compareLog_same_ts {f g : NumLog TransactionT} {st remote : SharedTable}
    (hst : TableOk f st) (hr : TableOk g remote) (h : compareLog st remote = .ok true)
    (hn : 1 < st.logcounter) :
    ∃ e e', f (st.logcounter - 1) = some e ∧ g (st.logcounter - 1) = some e' ∧ e.ts = e'.ts := by
  have hpos : 0 < st.logcounter - 1 := by omega
  rw [compareLog, if_neg (by omega)] at h
  simp only [readoneHandler, readOne_holds hr.holds { id := st.logcounter - 1 } hpos,
    readOne_holds hst.holds { id := st.logcounter - 1 } hpos] at h
  cases hg : g (st.logcounter - 1) with
  | none =>
    simp [hg, initialExc] at h
  | some e' =>
    cases hf : f (st.logcounter - 1) with
    | none =>
      simp [hf, hg, initialExc, (hr.writable _ _ hg).notfound] at h
    | some e =>
      simp [hf, hg, (hr.writable _ _ hg).notfound, (hst.writable _ _ hf).notfound] at h
      exact ⟨e, e', rfl, rfl, h.symm⟩

/-- A log is accepted when it shares all entries but the last one. -/
theorem compareLog_of_shared {f g : NumLog TransactionT} {st remote : SharedTable}
    (hst : TableOk f st) (hr : TableOk g remote)
    (h : NumLog.SharedTo f g (st.logcounter - 1)) : compareLog st remote = .ok true := by
  rw [compareLog]
  by_cases h0 : st.logcounter = 0
  · rw [if_pos h0]
  rw [if_neg h0]
  by_cases h1 : st.logcounter - 1 = 0
  · -- the fences
    simp only [readoneHandler, readOne_fence hr.holds { id := st.logcounter - 1 } h1,
      readOne_fence hst.holds { id := st.logcounter - 1 } h1]
    rfl
  · have hpos : 0 < st.logcounter - 1 := Nat.pos_of_ne_zero h1
    obtain ⟨e, hf, hg⟩ := h _ hpos le_rfl
    simp only [readoneHandler, readOne_holds hr.holds { id := st.logcounter - 1 } hpos,
      readOne_holds hst.holds { id := st.logcounter - 1 } hpos, hf, hg, Option.getD_some,
      (hst.writable _ _ hf).notfound]
    simp

section Runs

variable {ι : Type*} {peer : Bytes → Option ι} {f : ι → NumLog TransactionT}
  {c : Cluster ι}

theorem Inv.prefixOf_iff (h : Inv peer f c) (i j : ι) :
    PrefixOf (c.nodes i).table (c.nodes j).table ↔
      NumLog.SharedTo (f i) (f j) (c.nodes i).table.logcounter := by
  rw [PrefixOf, (h.nodes i).table.entryAt_eq, (h.nodes j).table.entryAt_eq]

/-- **What is accepted** shares all entries but the last one. -/
theorem Inv.accepted (h : Inv peer f c) {i j : ι} (hij : i ≠ j)
    (ha : compareLog (c.nodes i).table (c.nodes j).table = .ok true) :
    NumLog.SharedTo (f i) (f j) ((c.nodes i).table.logcounter - 1) := by
  by_cases hn : 1 < (c.nodes i).table.logcounter
  · obtain ⟨e, e', he, he', hts⟩ :=
      compareLog_same_ts (h.nodes i).table (h.nodes j).table ha hn
    exact h.shared i j _ e e' hij he he' hts
  · have h0 : (c.nodes i).table.logcounter - 1 = 0 := by omega
    rw [h0]
    exact NumLog.sharedTo_zero _ _

/-- **`CompareLog` and the logs.**  It accepts a log exactly when all entries but the last one are
    shared, so that it is right unless the logs part at the last one. -/
theorem Inv.compareLog_sound_iff (h : Inv peer f c) {i j : ι} (hij : i ≠ j) :
    (compareLog (c.nodes i).table (c.nodes j).table = .ok true →
        PrefixOf (c.nodes i).table (c.nodes j).table) ↔
      ¬ PartsAtLast (c.nodes i).table (c.nodes j).table := by
  constructor
  · rintro hsound ⟨-, hshared, hnot⟩
    rw [(h.nodes i).table.entryAt_eq, (h.nodes j).table.entryAt_eq] at hshared
    exact hnot (hsound (compareLog_of_shared (h.nodes i).table (h.nodes j).table hshared))
  · intro hparts ha
    by_contra hnot
    have hshared := h.accepted hij ha
    have hpos : 0 < (c.nodes i).table.logcounter := by
      by_contra h0
      have h0' : (c.nodes i).table.logcounter = 0 := by omega
      rw [h.prefixOf_iff, h0'] at hnot
      exact hnot (NumLog.sharedTo_zero _ _)
    refine hparts ⟨hpos, ?_, hnot⟩
    rw [(h.nodes i).table.entryAt_eq, (h.nodes j).table.entryAt_eq]
    exact hshared

/-- Who is accepted in step has a prefix of the other log. -/
theorem Inv.prefix_of_accepted (h : Inv peer f c) {i j : ι} (hij : i ≠ j)
    (ha : compareLog (c.nodes i).table (c.nodes j).table = .ok true)
    (hparts : ¬ PartsAtLast (c.nodes i).table (c.nodes j).table) :
    NumLog.SharedTo (f i) (f j) (c.nodes i).table.logcounter :=
  (h.prefixOf_iff i j).mp ((h.compareLog_sound_iff hij).mpr hparts ha)

/-! ## The steps of a slave -/

/-- The table of a node changes, but not what the invariant looks at. -/
theorem NodeOk.of_table {i : ι} {n : Node} (h : NodeOk peer f i n) {st' : SharedTable}
    (hst : TableOk (f i) st') (hn : st'.logcounter = n.table.logcounter)
    (hm : st'.master = n.table.master) (hrole : st'.isMaster = n.table.isMaster) :
    NodeOk peer f i { n with table := st' } := by
  have hpulls : ({ n with table := st' } : Node).Pulls ↔ n.Pulls := by
    unfold Node.Pulls
    rw [hrole]
  refine ⟨hst, fun id stage t hin => ?_, fun hp => ?_, fun ts hts => ?_⟩
  · obtain ⟨hcommit, hrun, hmaster⟩ := h.inflight id stage t hin
    exact ⟨⟨hcommit.pos, hn ▸ hcommit.le, hcommit.id_eq, hcommit.writable, hcommit.hole⟩, hrun,
      hrole.trans hmaster⟩
  · obtain ⟨s, hs, hne, hshared⟩ := h.source (hpulls.mp hp)
    exact ⟨s, hm ▸ hs, hne, hn ▸ hshared⟩
  · obtain ⟨hp, hall⟩ := h.pulled ts hts
    exact ⟨hpulls.mpr hp, fun s hs => hall s (hm ▸ hs)⟩

/-- Outside of the two loops nothing is pulled and nothing committed. -/
theorem NodeOk.idle {i : ι} {n : Node} (h : NodeOk peer f i n) (hfirst : n.phase ≠ .syncFirst)
    (hrun : n.phase ≠ .running) : n.pulled = none ∧ ∀ id, n.inflight id = none := by
  constructor
  · cases hp : n.pulled with
    | none => rfl
    | some ts =>
      rcases (h.pulled ts hp).1.1 with hphase | hphase
      · exact absurd hphase hfirst
      · exact absurd hphase hrun
  · intro id
    cases hin : n.inflight id with
    | none => rfl
    | some x => exact absurd (h.inflight id x.1 x.2 hin).2.1 hrun

/-- A node that is not in one of the two loops has a table in order, and this is all. -/
theorem NodeOk.of_idle {i : ι} {n : Node} (ht : TableOk (f i) n.table)
    (hin : ∀ id, n.inflight id = none) (hpulled : n.pulled = none) (hno : ¬ n.Pulls) :
    NodeOk peer f i n := by
  refine ⟨ht, fun id stage t h => ?_, fun hp => absurd hp hno, fun ts h => ?_⟩
  · rw [hin id] at h
    cases h
  · rw [hpulled] at h
    cases h

/-- A pull, or what is left of it, is dropped. -/
theorem NodeOk.drop {i : ι} {n : Node} (h : NodeOk peer f i n) :
    NodeOk peer f i { n with pulled := none } :=
  ⟨h.table, h.inflight, h.source, nofun⟩

theorem translogHandler_table {st st' : SharedTable} {r d : TransListT} {now : Nat}
    (h : translogHandler st r now = .ok (d, st')) : st'.master = st.master := by
  rw [translogHandler] at h
  split at h
  · cases h
  · split at h
    · cases h
      split <;> rfl
    · cases hrl : readLog st r now with
      | error e =>
        rw [hrl] at h
        cases h
      | ok out =>
        rw [hrl] at h
        cases h
        rfl

variable [DecidableEq ι] {c' : Cluster ι} {i : ι}

/-- A node stops: what it has not written is lost. -/
theorem inv_crash (h : Inv peer f c) (hs : step peer c (.crash i) = some c') : Inv peer f c' := by
  simp only [step] at hs
  split at hs
  · cases hs
  · cases hs
    refine h.set (.of_idle (h.nodes i).table (fun _ => rfl) rfl ?_) ?_
    · rintro ⟨hp | hp, -⟩ <;> cases hp
    · intro id t ht
      cases ht

/-- A node starts on what its databases hold. -/
theorem inv_restart (h : Inv peer f c) {noXapian isMaster : Bool} {master : Bytes}
    (hs : step peer c (.restart i noXapian isMaster master) = some c') : Inv peer f c' := by
  simp only [step] at hs
  split at hs
  · split at hs
    · rename_i st' hst
      cases hs
      have hi := (h.nodes i).table
      obtain ⟨st'', hst'', hmain, hlog, hrole, -, hbelow, -⟩ := workServerInit_last
        (show Fenced ({ (c.nodes i).table with noXapian := noXapian } : SharedTable).maindb from hi.main)
        hi.log hi.holds isMaster master
      rw [hst] at hst''
      cases hst''
      refine h.set (.of_idle ⟨?_, ?_, ?_, hbelow, hi.zero, hi.writable⟩ (fun _ => rfl) rfl ?_) ?_
      · rw [hmain]
        exact hi.main
      · rw [hlog]
        exact hi.log
      · rw [hlog]
        exact hi.holds
      · -- a master runs, and a slave has not begun to pull
        rintro ⟨hp, hno⟩
        rw [hrole] at hno
        rw [hno] at hp
        rcases hp with hp | hp <;> cases hp
      · intro id t ht
        cases ht
    · cases hs
  · cases hs

/-- A node that shares its whole log with its source begins to pull. -/
theorem inv_join (h : Inv peer f c) {s : ι} {phase : Phase}
    (hfirst : (c.nodes i).phase ≠ .syncFirst) (hrun : (c.nodes i).phase ≠ .running)
    (hs : peer (c.nodes i).table.master = some s) (hsi : i ≠ s)
    (ha : compareLog (c.nodes i).table (c.nodes s).table = .ok true)
    (hparts : ¬ PartsAtLast (c.nodes i).table (c.nodes s).table) :
    Inv peer f (c.set i { c.nodes i with phase := phase }) := by
  have hi := h.nodes i
  obtain ⟨hpulled, hin⟩ := hi.idle hfirst hrun
  refine h.set_same ⟨hi.table, fun id stage t ht => ?_, fun _ => ?_, fun ts hts => ?_⟩ rfl
  · have ht' : (c.nodes i).inflight id = some (stage, t) := ht
    rw [hin id] at ht'
    cases ht'
  · exact ⟨s, hs, hsi.symm, h.prefix_of_accepted hsi ha hparts⟩
  · have hts' : (c.nodes i).pulled = some ts := hts
    rw [hpulled] at hts'
    cases hts'

theorem inv_syncFirst (h : Inv peer f c) (hok : InStep peer c (.syncFirst i))
    (hs : step peer c (.syncFirst i) = some c') : Inv peer f c' := by
  simp only [step] at hs
  split at hs
  · rename_i s hsrc
    split at hs
    · rename_i hguard
      obtain ⟨hphase, hready, ha⟩ := hguard
      cases hs
      have hsi : i ≠ s := by
        rintro rfl
        rcases hready with hr | hr <;> exact absurd (hphase.symm.trans hr) (by decide)
      exact inv_join h (by rw [hphase]; decide) (by rw [hphase]; decide) hsrc hsi ha (hok s hsrc)
    · cases hs
  · cases hs

theorem inv_syncFromMaster (h : Inv peer f c) (hok : InStep peer c (.syncFromMaster i))
    (hs : step peer c (.syncFromMaster i) = some c') : Inv peer f c' := by
  simp only [step] at hs
  split at hs
  · rename_i s hsrc
    split at hs
    · rename_i hguard
      obtain ⟨hsi, hphase, -, ha⟩ := hguard
      cases hs
      exact inv_join h (by rw [hphase]; decide) (by rw [hphase]; decide) hsrc hsi.symm ha
        (hok s hsrc)
    · cases hs
  · cases hs

/-- What a pull brings are entries of the node that is asked. -/
theorem inv_pull (h : Inv peer f c) {limit now there : Nat}
    (hs : step peer c (.pull i limit now there) = some c') : Inv peer f c' := by
  simp only [step] at hs
  split at hs
  · rename_i s hsrc
    split at hs
    · rename_i hguard
      obtain ⟨hp, -, -⟩ := hguard
      split at hs
      · rename_i data st' hr
        cases hs
        have hsi := h.nodes s
        have hi := h.nodes i
        obtain ⟨hsame, htrans⟩ := translogHandler_spec hsi.table.holds hsi.table.clean rfl hr
        have hst' := hsi.table.of_same hsame.maindb hsame.logdb hsame.logcounter
        have hset := h.set_same
          (hsi.of_table hst' hsame.logcounter (translogHandler_table hr) hsame.isMaster) rfl
        refine hset.set ⟨hi.table, hi.inflight, hi.source, ?_⟩ fun id t ht => ?_
        · intro ts hts
          cases hts
          refine ⟨hp, fun s' hs' t ht => ?_⟩
          have hs'' : peer (c.nodes i).table.master = some s' := hs'
          rw [hsrc] at hs''
          cases hs''
          exact htrans t ht
        · -- a slave has no commit under way
          exact absurd hp (not_pulls_of_master (hi.inflight id _ t ht).2.2)
      · cases hs
        exact h
    · cases hs
  · cases hs

/-- **A pulled entry is logged**: the slave shares one more entry with its source, and with every
    node that shares it with the source. -/
theorem inv_applied (h : Inv peer f c) {t : TransactionT} {ts : List TransactionT}
    (hpulled : (c.nodes i).pulled = some (t :: ts))
    (hid : t.id = (c.nodes i).table.logcounter + 1) {st' : SharedTable}
    (hc : Logged (c.nodes i).table st' t) (hmaster : st'.master = (c.nodes i).table.master)
    {left : Option (List TransactionT)} (hleft : ∀ us ∈ left, us = ts) :
    ∃ f', Inv peer f' (c.set i { c.nodes i with table := st', pulled := left }) := by
  have hi := h.nodes i
  obtain ⟨hp, hall⟩ := hi.pulled _ hpulled
  obtain ⟨s, hs, hsi, hshared⟩ := hi.source hp
  have ht : f s t.id = some t := hall s hs t List.mem_cons_self
  have hw : Writable t := (h.nodes s).table.writable _ _ ht
  have hnone : f i t.id = none := hi.table.below _ (by omega)
  have hext := NumLog.extends_update hnone t
  have hno : ∀ id x, (c.nodes i).inflight id ≠ some x := fun id x hx =>
    not_pulls_of_master (hi.inflight id x.1 x.2 hx).2.2 hp
  -- the new log against the source
  have hnew : NumLog.SharedTo (Function.update (f i) t.id (some t)) (f s) t.id := by
    rw [hid] at ht hext ⊢
    exact (hshared.extend hext (NumLog.Extends.refl _)).succ (Function.update_self _ _ _) ht
  refine ⟨_, h.grow (e := t) hnone (fun j hji e' he' hts => ?_) (fun j _ u hu => ?_)
    ⟨?_, fun id stage u hu => absurd hu (hno id _), fun _ => ?_, fun us hus => ?_⟩
    fun id u hu => absurd hu (hno id _)⟩
  · by_cases hjs : j = s
    · rw [hjs]
      exact hnew
    · exact hnew.trans (h.shared s j _ t e' (Ne.symm hjs) ht he' hts.symm)
  · -- the source has the entry, so no other node is about to write it
    by_cases hjs : j = s
    · subst hjs
      have hhole := ((h.nodes j).inflight _ _ u hu).1.hole rfl
      rw [ht] at hhole
      cases hhole
    · exact (h.marked j _ u hu s (Ne.symm hjs)).1 t ht
  · rw [Function.update_self]
    exact hi.table.logged hc hw hid
  · refine ⟨s, ?_, hsi, ?_⟩
    · show peer st'.master = some s
      rw [hmaster]
      exact hs
    · rw [Function.update_self, Function.update_of_ne hsi, hc.logcounter, ← hid]
      exact hnew
  · obtain rfl := hleft us hus
    refine ⟨⟨hp.1, hc.isMaster.trans hp.2⟩, fun s' hs' u hu => ?_⟩
    have hs'' : peer st'.master = some s' := hs'
    rw [hmaster, hs] at hs''
    cases hs''
    rw [Function.update_of_ne hsi]
    exact hall s hs u (List.mem_cons_of_mem _ hu)

theorem inv_apply (h : Inv peer f c) {env : CommitEnv} (hok : InStep peer c (.apply i env))
    (hs : step peer c (.apply i env) = some c') : ∃ f', Inv peer f' c' := by
  have hi := h.nodes i
  simp only [step] at hs
  split at hs
  · rename_i t ts hpulled
    split at hs
    · cases hs
      exact ⟨f, h.set_same hi.drop rfl⟩
    · rename_i hid
      cases hs
      have hid := not_not.mp hid
      obtain ⟨hp, hall⟩ := hi.pulled _ hpulled
      obtain ⟨s, hs, -⟩ := hi.source hp
      have hw := (h.nodes s).table.writable _ _ (hall s hs t List.mem_cons_self)
      have hc := commit_logged (c.nodes i).table 0 t false hw.item hok
      rw [show stamp 0 t false ((c.nodes i).table.logcounter + 1) = t by rw [← hid]; rfl] at hc
      refine inv_applied h hpulled hid hc (commit_master _ _ _ _ _) fun us hus => ?_
      split at hus
      · exact (Option.some.inj hus).symm
      · cases hus
  · cases hs
    exact ⟨f, h.set_same hi.drop rfl⟩
  · cases hs

/-- The calls to `R_REGISTER`, between the two loops. -/
theorem inv_register (h : Inv peer f c) (hs : step peer c (.register i) = some c') :
    Inv peer f c' := by
  simp only [step] at hs
  split at hs
  · rename_i s hsrc
    split at hs
    · rename_i hguard
      obtain ⟨hphase, hpulled, -⟩ := hguard
      have hi := h.nodes i
      have hin : ∀ id, (c.nodes i).inflight id = none := by
        intro id
        cases hx : (c.nodes i).inflight id with
        | none => rfl
        | some x =>
          have hrun := (hi.inflight id x.1 x.2 hx).2.1
          rw [hrun] at hphase
          rcases hphase with hp | hp <;> cases hp
      split at hs
      · cases hs
        refine h.set_same (.of_idle hi.table hin hpulled ?_) rfl
        rintro ⟨hp | hp, -⟩ <;> cases hp
      · cases hs
        refine h.set_same (.of_idle (hi.table.of_same rfl rfl rfl) hin hpulled ?_) rfl
        rintro ⟨hp | hp, -⟩ <;> cases hp
    · cases hs
  · cases hs

/-- A slave becomes a master. -/
theorem inv_promote (h : Inv peer f c) (hs : step peer c (.promote i) = some c') :
    Inv peer f c' := by
  simp only [step] at hs
  split at hs
  · rename_i hguard
    obtain ⟨-, hslave, hpulled⟩ := hguard
    cases hs
    have hi := h.nodes i
    have hin : ∀ id, (c.nodes i).inflight id = none := by
      intro id
      cases hx : (c.nodes i).inflight id with
      | none => rfl
      | some x =>
        have hm := (hi.inflight id x.1 x.2 hx).2.2
        rw [hslave] at hm
        cases hm
    exact h.set_same (.of_idle (hi.table.of_same rfl rfl rfl) hin hpulled
      (not_pulls_of_master rfl)) rfl
  · cases hs

/-- A slave that follows another node shares its whole log with it. -/
theorem inv_follow (h : Inv peer f c) {newmaster : Bytes}
    (hok : InStep peer c (.follow i newmaster))
    (hs : step peer c (.follow i newmaster) = some c') : Inv peer f c' := by
  simp only [step] at hs
  split at hs
  · rename_i s hsrc
    split at hs
    · rename_i hguard
      obtain ⟨hsi, -, -, hslave, hpulled⟩ := hguard
      cases hs
      have hi := h.nodes i
      refine h.set_same ⟨hi.table.of_same rfl rfl rfl, fun id stage t ht => ?_, fun _ => ?_,
        fun ts hts => ?_⟩ rfl
      · have hm := (hi.inflight id stage t ht).2.2
        rw [hslave] at hm
        cases hm
      · exact ⟨s, hsrc, hsi, (h.prefixOf_iff i s).mp (hok s hsrc)⟩
      · have hts' : (c.nodes i).pulled = some ts := hts
        rw [hpulled] at hts'
        cases hts'
    · cases hs
  · cases hs

/-- **The step lemma.** -/
theorem inv_step {l : Label ι} (h : Inv peer f c) (hok : InStep peer c l)
    (hs : step peer c l = some c') : ∃ f', Inv peer f' c' := by
  cases l with
  | begin i items updater now => exact ⟨f, inv_begin h hok hs⟩
  | writeLog i id => exact inv_writeLog h hs
  | writeData i id => exact ⟨f, inv_writeData h hs⟩
  | finish i id pushOk indexFails => exact ⟨f, inv_finish h hs⟩
  | crash i => exact ⟨f, inv_crash h hs⟩
  | restart i noXapian isMaster master => exact ⟨f, inv_restart h hs⟩
  | syncFirst i => exact ⟨f, inv_syncFirst h hok hs⟩
  | pull i limit now there => exact ⟨f, inv_pull h hs⟩
  | apply i env => exact inv_apply h hok hs
  | register i => exact ⟨f, inv_register h hs⟩
  | syncFromMaster i => exact ⟨f, inv_syncFromMaster h hok hs⟩
  | promote i => exact ⟨f, inv_promote h hs⟩
  | follow i newmaster => exact ⟨f, inv_follow h hok hs⟩

end Runs

theorem inv_init {ι : Type*} [DecidableEq ι] {peer : Bytes → Option ι} {c : Cluster ι}
    (hi : (machine peer).init c) : Inv peer (fun _ _ => none) c := by
  refine ⟨fun i => ?_, nofun, fun i id t ht => ?_⟩
  · obtain ⟨hmain, hlog, hholds, hn, hinflight, hpulled, hphase⟩ := hi i
    refine .of_idle ⟨hmain, hlog, hholds, fun _ _ => rfl, rfl, nofun⟩ hinflight hpulled ?_
    rintro ⟨hp, hslave⟩
    rw [hslave, if_neg Bool.false_ne_true] at hphase
    rcases hphase with hphase | hphase
    · rw [hphase] at hp
      rcases hp with hp | hp <;> cases hp
    · rw [hphase] at hp
      rcases hp with hp | hp <;> cases hp
  · obtain ⟨-, -, -, -, hinflight, -, -⟩ := hi i
    rw [hinflight id] at ht
    cases ht

/-- **The check at a rejoin**, in runs in which nobody joins while the logs part at its last entry and
    no two nodes stamp different entries alike: what `CompareLog` accepts is a prefix of the other log
    exactly when the logs do not part there, and whoever pulls has a prefix of the log it pulls from. -/
theorem rejoin_sound_iff {ι : Type*} [DecidableEq ι] {peer : Bytes → Option ι} {c : Cluster ι}
    (h : (machine peer).ReachWhere (InStep peer) c) (i : ι) :
    (∀ j, i ≠ j →
      ((compareLog (c.nodes i).table (c.nodes j).table = .ok true →
          PrefixOf (c.nodes i).table (c.nodes j).table) ↔
        ¬ PartsAtLast (c.nodes i).table (c.nodes j).table)) ∧
      ((c.nodes i).Pulls → ∃ s, peer (c.nodes i).table.master = some s ∧
        PrefixOf (c.nodes i).table (c.nodes s).table) := by
  have hinv : ∃ f, Inv peer f c :=
    h.invariant (I := fun c => ∃ f, Inv peer f c) (fun c hc => ⟨_, inv_init hc⟩)
      fun c l c' ⟨f, hf⟩ hok hs => inv_step hf hok hs
  obtain ⟨f, hf⟩ := hinv
  refine ⟨fun j hij => hf.compareLog_sound_iff hij, fun hp => ?_⟩
  obtain ⟨s, hs, -, hshared⟩ := (hf.nodes i).source hp
  exact ⟨s, hs, (hf.prefixOf_iff i s).mpr hshared⟩

/-! ## An old master -/

/-- Two nodes. -/
def peerTwo (address : Bytes) : Option (Fin 2) :=
  if address = str "a" then some 0 else if address = str "b" then some 1 else none

/-- `a` is the master, `b` is about to sync with it. -/
def startTwo : Cluster (Fin 2) where
  nodes
    | 0 =>
      { table := { thisurl := str "a", isMaster := true, maindb := freshDb, logdb := freshLog }
        phase := .running }
    | 1 =>
      { table := { thisurl := str "b", master := str "a", maindb := freshDb, logdb := freshLog }
        phase := .opened }

theorem startTwo_init : (machine peerTwo).init startTwo := by
  intro i
  match i with
  | 0 =>
    exact ⟨onDisk_fresh.main, onDisk_fresh.log, holdsEntries_fresh, rfl, fun _ => rfl, rfl, rfl⟩
  | 1 =>
    exact ⟨onDisk_fresh.main, onDisk_fresh.log, holdsEntries_fresh, rfl, fun _ => rfl, rfl,
      Or.inr rfl⟩

/-- A commit of one user record on node `i`. -/
def commitSteps (i : Fin 2) (user id now : Nat) : List (Label (Fin 2)) :=
  [.begin i [{ key := encodePrimaryKey kUserdata user, value := .user { id := user } }] [] now,
    .writeLog i id, .writeData i id, .finish i id true none]

/-- `b` syncs with `a` after one commit. -/
def sync : List (Label (Fin 2)) :=
  commitSteps 0 2 1 1000 ++
    [.syncFirst 1, .pull 1 5 1010 1010, .apply 1 {}, .apply 1 {}, .register 1,
      .syncFromMaster 1]

/-- `a` dies, `b` is promoted and commits, `a` starts again with `b` as its master. -/
def takeOver : List (Label (Fin 2)) :=
  [.crash 0, .promote 1] ++ commitSteps 1 4 2 3000 ++ [.restart 0 false false (str "b")]

set_option maxRecDepth 10000 in
/-- **The old master comes back** with an entry nobody pulled, and is accepted. -/
theorem old_master_accepted : ¬ ∀ c : Cluster (Fin 2), (machine peerTwo).Reach c → ∀ i j, i ≠ j →
    compareLog (c.nodes i).table (c.nodes j).table = .ok true →
      PrefixOf (c.nodes i).table (c.nodes j).table := by
  intro h
  have hrun : ((machine peerTwo).exec startTwo (sync ++ commitSteps 0 3 2 1020 ++ takeOver)).map
      (fun c => decide (compareLog (c.nodes 0).table (c.nodes 1).table = .ok true ∧
        ¬ PrefixOf (c.nodes 0).table (c.nodes 1).table)) = some true := by
    decide +kernel
  obtain ⟨c, hc, hd⟩ := Option.map_eq_some_iff.mp hrun
  obtain ⟨ha, hnot⟩ := of_decide_eq_true hd
  exact hnot (h c (Machine.Reach.of_exec startTwo_init hc) 0 1 (by decide) ha)

instance {ι : Type*} [Fintype ι] [DecidableEq ι] (c : Cluster ι) (i : ι) (id now : Nat) :
    Decidable (c.Unmarked i id now) :=
  inferInstanceAs (Decidable (∀ j, j ≠ i → _ ∧ _))

/-- Whether a step is in step can be computed. -/
instance {ι : Type*} [Fintype ι] [DecidableEq ι] (peer : Bytes → Option ι) (c : Cluster ι) :
    (l : Label ι) → Decidable (InStep peer c l)
  | .syncFirst i => inferInstanceAs (Decidable (∀ s, peer (c.nodes i).table.master = some s → _))
  | .syncFromMaster i => inferInstanceAs (Decidable (∀ s, peer (c.nodes i).table.master = some s → _))
  | .follow _ newmaster => inferInstanceAs (Decidable (∀ s, peer newmaster = some s → _))
  | .begin _ _ _ _ => inferInstanceAs (Decidable (c.Unmarked _ _ _))
  | .writeLog _ _ => .isTrue trivial
  | .writeData _ _ => .isTrue trivial
  | .finish _ _ _ _ => .isTrue trivial
  | .crash _ => .isTrue trivial
  | .restart _ _ _ _ => .isTrue trivial
  | .pull _ _ _ _ => .isTrue trivial
  | .apply _ env => inferInstanceAs (Decidable (env.logOk = true))
  | .register _ => .isTrue trivial
  | .promote _ => .isTrue trivial

set_option maxRecDepth 10000 in
/-- An old master all of whose entries were pulled is accepted, and has a prefix of the new log. -/
theorem rejoin_sound_takeOver : ∃ c, (machine peerTwo).exec startTwo (sync ++ takeOver) = some c ∧
    compareLog (c.nodes 0).table (c.nodes 1).table = .ok true ∧
    PrefixOf (c.nodes 0).table (c.nodes 1).table := by
  have hok : (machine peerTwo).StepsOk (InStep peerTwo) startTwo (sync ++ takeOver) := by
    decide +kernel
  have hrun : ((machine peerTwo).exec startTwo (sync ++ takeOver)).map
      (fun c => decide (compareLog (c.nodes 0).table (c.nodes 1).table = .ok true ∧
        ¬ PartsAtLast (c.nodes 0).table (c.nodes 1).table)) = some true := by
    decide +kernel
  obtain ⟨c, hc, hd⟩ := Option.map_eq_some_iff.mp hrun
  obtain ⟨ha, hparts⟩ := of_decide_eq_true hd
  have hreach := (Machine.ReachWhere.init startTwo_init).exec hok hc
  exact ⟨c, hc, ha, ((rejoin_sound_iff hreach 0).1 1 (by decide)).mpr hparts ha⟩

end Zapdos.Hrpc.Failover
