/-
  When a request is accepted — everything that can make the payloads of a request fail.

  The loop over the payloads stops at the first failure, and what a payload leaves behind (its
  reservation, a step of the counter) can make a later one fail.  `Accepts` says the same without the
  loop: each payload on its own is acceptable, no two of them have the same name, and the ids that
  the counter will hand out are free.
-/
import Zapdos.Store.ManageLaws

namespace Zapdos.Store.Service

open Zapdos.Lib

variable {T : Type} (s : Service T)

/-- `refuses` is exactly when `PrepareData` fails; what it prepares is marked as not found only if
    the stored record is, and is admitted if the payload is. -/
structure Decides (refuses : PrepEnv → DataDb → Manage → T → Prop) : Prop where
  readFirst : s.readFirst = true
  prepare : ∀ {env db m data}, s.TableOk db →
    ((∃ out, s.prepare env db m data = .ok out) ↔ ¬ refuses env db m data)
  notfound : ∀ {env db m data found r}, s.TableOk db → s.prepare env db m data = .ok (found, r) →
    ∀ id, s.table.notfound (s.fill m data found id r) =
      ((s.stored db data).map s.table.notfound).getD false
  mayInsert : ∀ {env db m data found r}, s.TableOk db → s.prepare env db m data = .ok (found, r) →
    s.mayInsert r = s.mayInsert data

/-- No record is stored under the name of the payload. -/
def isNew (db : DataDb) (p : T × PrepEnv) : Bool := (s.stored db p.1).isNone

variable (refuses : PrepEnv → DataDb → Manage → T → Prop)

/-- One payload is acceptable where the request stands. -/
structure AcceptsOne (m : Manage) (w : Work T) (p : T × PrepEnv) : Prop where
  check : s.check p.1 = .ok ()
  prepare : ¬ refuses p.2 w.table.maindb m p.1
  unused : s.lock p.1 ∉ w.nc.inset
  free : w.table.tmpcache.get (s.lock p.1) = none
  new : s.stored w.table.maindb p.1 = none → s.mayInsert p.1 = .ok () ∧
    w.table.maindb.get (encodePrimaryKey s.table.primaryKey (w.table.maincounter + 1)) = none
  stored : ∀ old, s.stored w.table.maindb p.1 = some old → s.table.notfound old = false

/-- All payloads are acceptable. -/
structure Accepts (m : Manage) (w : Work T) (input : List (T × PrepEnv)) : Prop where
  check : ∀ p ∈ input, s.check p.1 = .ok ()
  prepare : ∀ p ∈ input, ¬ refuses p.2 w.table.maindb m p.1
  unused : ∀ p ∈ input, s.lock p.1 ∉ w.nc.inset
  free : ∀ p ∈ input, w.table.tmpcache.get (s.lock p.1) = none
  distinct : input.Pairwise (fun p q => s.key p.1 ≠ s.key q.1)
  mayInsert : ∀ p ∈ input, s.stored w.table.maindb p.1 = none → s.mayInsert p.1 = .ok ()
  stored : ∀ p ∈ input, ∀ old, s.stored w.table.maindb p.1 = some old → s.table.notfound old = false
  ids : ∀ j, w.table.maincounter < j →
    j ≤ w.table.maincounter + input.countP (s.isNew w.table.maindb) →
    w.table.maindb.get (encodePrimaryKey s.table.primaryKey j) = none

/-- Where the request stands after a payload. -/
structure Next (w w' : Work T) (p : T × PrepEnv) : Prop where
  maindb : w'.table.maindb = w.table.maindb
  tmpcache : w'.table.tmpcache = w.table.tmpcache.put (s.lock p.1) []
  inset : w'.nc.inset = w.nc.inset.insert (s.lock p.1)
  maincounter : w'.table.maincounter =
    w.table.maincounter + if s.isNew w.table.maindb p then 1 else 0

variable {s refuses}

namespace Lawful

variable (h : s.Lawful) (hd : s.Decides refuses)

include h hd

/-- The last stage of a prepared payload. -/
theorem add_ok_iff {st : SharedTable} (hok : s.TableOk st.maindb) {m : Manage} {env : PrepEnv}
    {data cdata : T} {found : Bool} (hp : s.prepare env st.maindb m data = .ok (found, cdata))
    (items : List TransItemT) :
    (∃ st' r items', s.add st m data found cdata items = (st', .ok (r, items')) ∧
        st' = { st with
          maincounter := st.maincounter + if s.isNew st.maindb (data, env) then 1 else 0 }) ↔
      (s.stored st.maindb data = none → s.mayInsert data = .ok () ∧
        st.maindb.get (encodePrimaryKey s.table.primaryKey (st.maincounter + 1)) = none) ∧
      ∀ old, s.stored st.maindb data = some old → s.table.notfound old = false := by
  obtain ⟨hkey, hfound, hid⟩ := h.prepare hok hp
  have hnf := hd.notfound hok hp
  have hadm := hd.mayInsert hok hp
  have hkt := h.single.keytype_ukey data
  cases hst : s.stored st.maindb data with
  | none =>
    rw [hst] at hfound hnf
    obtain rfl : found = false := hfound
    have hname : st.maindb.get (s.key cdata) = none := by
      rw [hkey]
      exact (h.single.find_eq_none hok hkt).mp hst
    rw [h.add_new hok, hadm]
    cases hadm' : s.mayInsert data with
    | error e => simp
    | ok =>
      have hnf' : s.table.notfound (s.fill m data false (st.maincounter + 1) cdata) = false :=
        hnf _
      simp only [hnf', hname, and_true, true_and, isNew, hst, Option.isNone_none, if_true,
        forall_const, reduceCtorEq, false_imp_iff, implies_true]
      by_cases hfree : st.maindb.get
          (encodePrimaryKey s.table.primaryKey (st.maincounter + 1)) = none
      · simp [hfree]
      · simp [hfree, badData]
  | some old =>
    rw [hst] at hfound hnf
    obtain rfl : found = true := hfound
    have hst' : s.stored st.maindb cdata = some old := (congrArg _ hkey).trans hst
    have hnf' : s.table.notfound (s.fill m data true 0 cdata) = s.table.notfound old := hnf 0
    rw [h.add_found hok hst' (hid old hst), hnf']
    simp only [reduceCtorEq, false_imp_iff, true_and, Option.some.injEq, forall_eq', isNew, hst,
      Option.isNone_some, Bool.false_eq_true, if_false, Nat.add_zero]
    cases s.table.notfound old with
    | false => simp
    | true => simp [badData]

omit hd in
/-- A last stage that succeeds steps the counter for a new record. -/
theorem add_counter {st st' : SharedTable} (hok : s.TableOk st.maindb) {m : Manage} {env : PrepEnv}
    {data cdata r : T} {found : Bool} {items items' : List TransItemT}
    (hp : s.prepare env st.maindb m data = .ok (found, cdata))
    (ha : s.add st m data found cdata items = (st', .ok (r, items'))) :
    st' = { st with
      maincounter := st.maincounter + if s.isNew st.maindb (data, env) then 1 else 0 } := by
  obtain ⟨-, hfound, -⟩ := h.prepare hok hp
  rw [isNew, ← Option.not_isSome, ← hfound]
  have hst := congrArg Prod.fst ha
  rw [Service.add] at ha hst
  cases found with
  | true => exact hst.symm
  | false =>
    simp only [Bool.false_eq_true, if_false] at ha hst
    cases hadm : s.mayInsert cdata with
    | error e => simp [hadm] at ha
    | ok =>
      rw [hadm] at hst
      exact hst.symm

/-- **One payload** succeeds only if it is acceptable, -/
theorem accepts_of_payload {m : Manage} {w w' : Work T} (hok : s.TableOk w.table.maindb) {data : T}
    {env : PrepEnv} (hrun : s.payload m w data env = (w', .ok ())) :
    s.AcceptsOne refuses m w (data, env) := by
  obtain ⟨hcheck, found, cdata, locked, st₁, nc, st₂, r, items, payloads, hp, hlocked, hr, ha, -⟩ :=
    h.payload_ok hok hrun
  obtain ⟨hunused, hfree, rfl, -⟩ := h.reserve_eq_ok.mp hr
  have hlock : s.lock locked = s.lock data := h.lock_eq_iff.mpr hlocked
  have hok₁ : s.TableOk { w.table with
      tmpcache := w.table.tmpcache.put (s.lock locked) [] }.maindb := hok
  obtain ⟨hnew, hstored⟩ := (h.add_ok_iff hd hok₁ hp w.items).mp
    ⟨st₂, r, items, ha, h.add_counter hok₁ hp ha⟩
  exact ⟨hcheck, (hd.prepare hok).mp ⟨_, hp⟩, hlock ▸ hunused, hlock ▸ hfree, hnew, hstored⟩

/-- and if it is. -/
theorem payload_of_accepts {m : Manage} {w : Work T} (hok : s.TableOk w.table.maindb) {data : T}
    {env : PrepEnv} (hacc : s.AcceptsOne refuses m w (data, env)) :
    ∃ w', s.payload m w data env = (w', .ok ()) ∧ s.Next w w' (data, env) := by
  obtain ⟨hcheck, hprep, hunused, hfree, hnew, hstored⟩ := hacc
  obtain ⟨⟨found, cdata⟩, hp⟩ := (hd.prepare hok).mpr hprep
  have hlock : s.lock cdata = s.lock data := h.lock_eq_iff.mpr (h.prepare hok hp).1
  have hr : s.reserve w.table w.nc cdata =
      .ok ({ w.table with tmpcache := w.table.tmpcache.put (s.lock cdata) [] },
        { inset := w.nc.inset.insert (s.lock cdata) }) :=
    h.reserve_eq_ok.mpr ⟨hlock ▸ hunused, hlock ▸ hfree, rfl, rfl⟩
  have hok₁ : s.TableOk { w.table with
      tmpcache := w.table.tmpcache.put (s.lock cdata) [] }.maindb := hok
  obtain ⟨st', r, items', ha, hst'⟩ := (h.add_ok_iff hd hok₁ hp w.items).mpr ⟨hnew, hstored⟩
  refine ⟨⟨st', { inset := w.nc.inset.insert (s.lock cdata) }, items', w.payloads ++ [r]⟩, ?_, ?_⟩
  · rw [Service.payload, if_pos hd.readFirst]
    simp only [hcheck, hp, hr, ha]
  · subst hst'
    exact ⟨rfl, by rw [hlock], by rw [hlock], rfl⟩

omit hd in
/-- The first payload takes its name away from the others, and an id if it is new. -/
theorem accepts_cons {m : Manage} {w w' : Work T} {p : T × PrepEnv} {rest : List (T × PrepEnv)}
    (hone : s.AcceptsOne refuses m w p) (hnext : s.Next w w' p) :
    s.Accepts refuses m w (p :: rest) ↔ s.Accepts refuses m w' rest := by
  have hlock : ∀ q : T × PrepEnv, s.lock q.1 ≠ s.lock p.1 ↔ s.key p.1 ≠ s.key q.1 := fun q => by
    rw [ne_comm, ne_eq, h.lock_eq_iff]
  have hcount : (p :: rest).countP (s.isNew w.table.maindb) =
      rest.countP (s.isNew w.table.maindb) + if s.isNew w.table.maindb p then 1 else 0 :=
    List.countP_cons
  constructor
  · intro hacc
    obtain ⟨hhead, htail⟩ := List.pairwise_cons.mp hacc.distinct
    refine ⟨fun q hq => hacc.check q (List.mem_cons_of_mem _ hq), fun q hq => ?_, fun q hq => ?_,
      fun q hq => ?_, htail, fun q hq => ?_, fun q hq => ?_, fun j hj hj' => ?_⟩
    · rw [hnext.maindb]
      exact hacc.prepare q (List.mem_cons_of_mem _ hq)
    · rw [hnext.inset, List.mem_insert_iff, not_or]
      exact ⟨(hlock q).mpr (hhead q hq), hacc.unused q (List.mem_cons_of_mem _ hq)⟩
    · rw [hnext.tmpcache, OrdMap.get_put_ne _ ((hlock q).mpr (hhead q hq))]
      exact hacc.free q (List.mem_cons_of_mem _ hq)
    · rw [hnext.maindb]
      exact hacc.mayInsert q (List.mem_cons_of_mem _ hq)
    · rw [hnext.maindb]
      exact hacc.stored q (List.mem_cons_of_mem _ hq)
    · rw [hnext.maindb, hnext.maincounter] at *
      exact hacc.ids j (by omega) (by rw [hcount]; omega)
  · intro hacc
    have hhead : ∀ q ∈ rest, s.key p.1 ≠ s.key q.1 := by
      intro q hq
      have hun := hacc.unused q hq
      rw [hnext.inset, List.mem_insert_iff, not_or] at hun
      exact (hlock q).mp hun.1
    refine ⟨?_, ?_, ?_, ?_, List.pairwise_cons.mpr ⟨hhead, hacc.distinct⟩, ?_, ?_, fun j hj hj' => ?_⟩
    · exact List.forall_mem_cons.mpr ⟨hone.check, hacc.check⟩
    · exact List.forall_mem_cons.mpr ⟨hone.prepare, fun q hq => hnext.maindb ▸ hacc.prepare q hq⟩
    · refine List.forall_mem_cons.mpr ⟨hone.unused, fun q hq => ?_⟩
      have hun := hacc.unused q hq
      rw [hnext.inset, List.mem_insert_iff, not_or] at hun
      exact hun.2
    · refine List.forall_mem_cons.mpr ⟨hone.free, fun q hq => ?_⟩
      have hfree := hacc.free q hq
      rwa [hnext.tmpcache, OrdMap.get_put_ne _ ((hlock q).mpr (hhead q hq))] at hfree
    · exact List.forall_mem_cons.mpr ⟨fun hst => (hone.new hst).1,
        fun q hq => hnext.maindb ▸ hacc.mayInsert q hq⟩
    · exact List.forall_mem_cons.mpr ⟨hone.stored, fun q hq => hnext.maindb ▸ hacc.stored q hq⟩
    · rw [hcount] at hj'
      have hids := hacc.ids j
      rw [hnext.maindb, hnext.maincounter] at hids
      by_cases hfirst : s.isNew w.table.maindb p = true ∧ j = w.table.maincounter + 1
      · rw [hfirst.2]
        exact (hone.new (Option.isNone_iff_eq_none.mp hfirst.1)).2
      · refine hids ?_ (by omega)
        by_cases hnew : s.isNew w.table.maindb p = true
        · have hne : j ≠ w.table.maincounter + 1 := fun he => hfirst ⟨hnew, he⟩
          rw [if_pos hnew]
          omega
        · rw [if_neg hnew]
          omega

omit h hd in
theorem acceptsOne_of_accepts {m : Manage} {w : Work T} {p : T × PrepEnv}
    {rest : List (T × PrepEnv)} (hacc : s.Accepts refuses m w (p :: rest)) :
    s.AcceptsOne refuses m w p where
  check := hacc.check p List.mem_cons_self
  prepare := hacc.prepare p List.mem_cons_self
  unused := hacc.unused p List.mem_cons_self
  free := hacc.free p List.mem_cons_self
  new hst := by
    refine ⟨hacc.mayInsert p List.mem_cons_self hst, hacc.ids _ (Nat.lt_succ_self _) ?_⟩
    have hnew : s.isNew w.table.maindb p = true := Option.isNone_iff_eq_none.mpr hst
    rw [List.countP_cons_of_pos hnew]
    omega
  stored := hacc.stored p List.mem_cons_self

/-- **All payloads** succeed exactly when they are acceptable together. -/
theorem payloads_ok_iff {m : Manage} {w : Work T} (hok : s.TableOk w.table.maindb)
    {input : List (T × PrepEnv)} :
    (∃ w', s.payloads m input w = (w', .ok ())) ↔ s.Accepts refuses m w input := by
  induction input generalizing w with
  | nil =>
    refine ⟨fun _ => ?_, fun _ => ⟨w, rfl⟩⟩
    have hno : ∀ P : T × PrepEnv → Prop, ∀ p ∈ ([] : List (T × PrepEnv)), P p :=
      fun P p hp => absurd hp List.not_mem_nil
    exact ⟨hno _, hno _, hno _, hno _, .nil, hno _, hno _, fun j hj hj' => by
      rw [List.countP_nil] at hj'
      omega⟩
  | cons p rest ih =>
    obtain ⟨data, env⟩ := p
    constructor
    · rintro ⟨w', hrun⟩
      rw [Service.payloads] at hrun
      split at hrun
      · simp at hrun
      · rename_i w₁ hstep
        have hone := h.accepts_of_payload hd hok hstep
        obtain ⟨w₂, hstep', hnext⟩ := h.payload_of_accepts hd hok hone
        rw [hstep, Prod.mk.injEq, and_iff_left rfl] at hstep'
        subst hstep'
        have hok₁ : s.TableOk w₁.table.maindb := by rw [hnext.maindb]; exact hok
        exact (h.accepts_cons hone hnext).mpr ((ih hok₁).mp ⟨w', hrun⟩)
    · intro hacc
      have hone := acceptsOne_of_accepts hacc
      obtain ⟨w₁, hstep, hnext⟩ := h.payload_of_accepts hd hok hone
      have hok₁ : s.TableOk w₁.table.maindb := by rw [hnext.maindb]; exact hok
      obtain ⟨w', hrun⟩ := (ih hok₁).mpr ((h.accepts_cons hone hnext).mp hacc)
      refine ⟨w', ?_⟩
      rw [Service.payloads, hstep]
      exact hrun

end Lawful

end Zapdos.Store.Service
