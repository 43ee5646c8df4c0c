/-
  The records of a node — how they come about, and what no stored record is.

  The records of a new node are blank; `AdminCreateAction` makes the first accounts, and from then on
  all that is stored goes through the write requests, any number of them at once.

  THE CRUX.  No service ever sets `can_add_profiles`: none of the field bits opens it, so each change
  keeps what the stored record has, and a new record has it off.
-/
import Zapdos.Store.AdminAccounts
import Zapdos.Store.RequestInvariant

namespace Zapdos.Store

open Zapdos.Lib

/-! ## Plain records -/

/-- The flag `can_add_profiles`, which only exters have a use for. -/
def RecKind.canAddProfiles : (k : RecKind) → k.Rec → Bool
  | .exter, r => UserDataT.canAddProfiles r
  | _, _ => false

/-- The record is not flagged as absent, and cannot add profiles. -/
structure RecKind.Plain (k : RecKind) (r : k.Rec) : Prop where
  notfound : k.service.table.notfound r = false
  canAddProfiles : k.canAddProfiles r = false

/-- All stored records are plain. -/
def PlainRecords (db : DataDb) : Prop :=
  ∀ (k : RecKind) (i : Nat) (r : k.Rec),
    db.get (encodePrimaryKey k.pkey i) = some (k.service.table.serialize r) → k.Plain r

/-- What the table finds is plain. -/
theorem PlainRecords.find {db : DataDb} (hok : StoreOk db) (h : PlainRecords db) {k : RecKind}
    {key : Key} (hkey : key.keytype = k.ukey) {r : k.Rec}
    (hr : k.service.table.find db key = some r) : k.Plain r := by
  obtain ⟨-, -, hrow, -⟩ := (k.service_lawful.single.find_eq_some (hok k) hkey).mp hr
  exact h k _ r hrow

/-- An empty store has plain records. -/
theorem plainRecords_freshDb : PlainRecords freshDb := by
  intro k i r hrow
  -- a new database has the blank rows of the fences only
  rw [get_freshDb] at hrow
  split at hrow
  · cases k <;> cases hrow
  · cases hrow

namespace RecChange

/-- The change writes a plain record. -/
def Plain (c : RecChange) : Prop := c.kind.Plain c.change.record

/-- The only row of a change under a primary key is the record's own. -/
theorem primary_row {c : RecChange} {i : TransItemT} (hi : i ∈ c.rows) {kt : KeyTypeE} {n : Nat}
    (hk : i.key = encodePrimaryKey kt n) :
    i.key = c.row ∧ i.value = c.kind.service.table.serialize c.change.record := by
  rw [rows, StoreTable.rows] at hi
  split at hi
  · rw [List.mem_singleton.mp hi]
    exact ⟨rfl, rfl⟩
  · rcases List.mem_cons.mp hi with hindex | hrecord
    · rw [hindex] at hk
      exact absurd hk (c.single.ukey_ne_primary c.change.record kt n)
    · rw [List.mem_singleton.mp hrecord]
      exact ⟨rfl, rfl⟩

/-- Plain changes leave plain records. -/
theorem plainRecords_write {db : DataDb} (h : PlainRecords db) {cs : List RecChange}
    (hcs : ∀ c ∈ cs, c.Plain) : PlainRecords (db.write (dataBatch (batch cs))) := by
  intro k i r hrow
  rcases OrdMap.get_write_some hrow with hold | hput
  · exact h k i r hold
  · obtain ⟨item, hitem, hop⟩ := List.mem_map.mp hput
    obtain ⟨c, hc, hrows⟩ := List.mem_flatMap.mp hitem
    have hsame : item.key = encodePrimaryKey k.pkey i ∧
        item.value = k.service.table.serialize r := by
      split at hop
      · cases hop
      · exact OrdMap.BatchOp.put.inj hop
    obtain ⟨hkey, hvalue⟩ := primary_row hrows hsame.1
    have hkind : k = c.kind := by
      apply RecKind.pkey_inj
      exact congrArg Key.keytype (hsame.1.symm.trans hkey)
    have hplain := hcs c hc
    obtain ⟨kind, change⟩ := c
    have hkind' : k = kind := hkind
    subst hkind'
    have hser : k.service.table.serialize r = k.service.table.serialize change.record :=
      hsame.2.symm.trans hvalue
    have hrec : r = change.record := by
      have hparse := congrArg k.service.table.parse hser
      rw [k.service_lawful.single.parse_serialize, k.service_lawful.single.parse_serialize] at hparse
      exact Option.some.inj hparse
    rw [hrec]
    exact hplain

end RecChange

/-! ## What the services make of a record -/

/-- `PrepareData` of an exter leaves `can_add_profiles` as it is stored. -/
theorem ExterDataService.prepareData_canAddProfiles {env : PrepEnv} {db : DataDb}
    {updater data : UserDataT} {action fields : Nat} {merge found : Bool} {out : ExterDataT}
    (hok : StoreTable.TableOk exterDataTable uExterdataName db)
    (h : ExterDataService.prepareData env db updater data action fields merge = .ok (found, out)) :
    out.canAddProfiles =
      ((ExterDataService.service.stored db data).getD { name := data.name }).canAddProfiles := by
  obtain ⟨-, -, hp⟩ := (ExterDataService.prepareData_eq_ok hok).mp h
  obtain ⟨-, -, ⟨-, rfl⟩ | ⟨-, c, hc, rfl⟩⟩ := ExterDataService.prepareFound_eq_ok.mp hp
  · rfl
  · -- the field is in no group, so the frame of the groups covers it
    have hrest := congrArg UserDataT.canAddProfiles
      (setFields_frame (ExterDataService.fieldParts_staysIn env merge) hc).1
    rw [UserDataService.assigned]
    split <;> exact hrest

namespace RecKind

/-- `PrepareData` does not set the flag. -/
theorem prepare_canAddProfiles {k : RecKind} {db : DataDb} (hok : StoreOk db)
    (h : PlainRecords db) {env : PrepEnv} {m : Manage} {data cdata : k.Rec} {found : Bool}
    (hp : k.service.prepare env db m data = .ok (found, cdata)) :
    k.canAddProfiles cdata = false := by
  cases k with
  | exter =>
    have hkept := ExterDataService.prepareData_canAddProfiles (hok .exter) hp
    cases hstored : ExterDataService.service.stored db data with
    | none =>
      rw [hstored] at hkept
      exact hkept
    | some old =>
      rw [hstored] at hkept
      exact hkept.trans (h.find hok (k := .exter) rfl hstored).canAddProfiles
  | user => rfl
  | localdata => rfl
  | wikidata => rfl
  | tag => rfl
  | category => rfl

/-- Nor does what is filled in after it. -/
theorem fill_canAddProfiles (k : RecKind) (m : Manage) (data : k.Rec) (found : Bool) (id : Nat)
    (cdata : k.Rec) :
    k.canAddProfiles (k.service.fill m data found id cdata) = k.canAddProfiles cdata := by
  cases k with
  | exter => cases found <;> rfl
  | user => rfl
  | localdata => rfl
  | wikidata => rfl
  | tag => rfl
  | category => rfl

end RecKind

/-- `AddRecord` returns false for a record with the flag. -/
theorem StoreTable.addRecord_notfound {T : Type} {t : StoreTable T} {db : DataDb} {r : T}
    {items items' : List TransItemT} {upsert : Bool}
    (h : t.addRecord db r items upsert = .ok (some items')) : t.notfound r = false := by
  rw [StoreTable.addRecord] at h
  cases hflag : t.notfound r with
  | false => rfl
  | true =>
    rw [hflag, if_pos rfl] at h
    cases h

/-! ## Requests at once -/

namespace Requests

open PasswordReset (stored renewed)

/-- The record a thread has read and not yet added. -/
def Thread.CanAddProfiles : Thread → Prop
  | .manage k _ task =>
    match task.stage with
    | .read _ cdata => k.canAddProfiles cdata = true
    | .ready _ cdata => k.canAddProfiles cdata = true
    | .numbered _ cdata => k.canAddProfiles cdata = true
    | _ => False
  | _ => False

/-- **What keeps the records plain**, with the changes `cs` of the threads. -/
structure PlainInv (requests : ℕ → Option Request) (s : Sys) (cs : ℕ → List RecChange) : Prop where
  inv : Inv requests s cs
  records : PlainRecords s.table.maindb
  changes : ∀ o, ∀ c ∈ cs o, c.Plain
  read : ∀ o, ¬ (s.threads o).CanAddProfiles

/-- The new password leaves the rest of the account. -/
theorem resetChange_plain {k : Privileges.Kind} {db : DataDb} (hok : StoreOk db)
    (h : PlainRecords db) {name : Bytes} {old : UserDataT} (hold : stored k db name = some old)
    (currtime : ℕ) (resp : ResetRespT) : (resetChange k (renewed currtime resp old)).Plain := by
  cases k with
  | user => exact ⟨(h.find hok (k := .user) rfl hold).notfound, rfl⟩
  | exter =>
    have hplain := h.find hok (k := .exter) rfl hold
    exact ⟨hplain.notfound, hplain.canAddProfiles⟩

/-- A step among the payloads writes nothing yet. -/
theorem advance_maindb {k : RecKind} {m : Manage} {st st' : SharedTable} {task task' : Progress k.Rec}
    {adds : List (Change k.Rec)} (hadv : k.service.Advances m st task st' task' adds) :
    st'.maindb = st.maindb := by
  have hreserved : ∀ {r : k.Rec} {nc : TempNameCache},
      k.service.reserve st task.nc r = .ok (st', nc) → st'.maindb = st.maindb := by
    intro r nc hr
    obtain ⟨⟨tmpcache, maincounter, -, rfl⟩, -⟩ := k.service_lawful.reserve_same hr
    rfl
  cases hadv with
  | read hrest hstage hfirst hcheck hprepare => rfl
  | reserve hrest hstage hfirst hcheck hreserve => exact hreserved hreserve
  | reserveRead hrest hstage hreserve => exact hreserved hreserve
  | readReserved hrest hstage hprepare => rfl
  | number hrest hstage hmay => rfl
  | add hrest hstage hadd => rfl

/-- One step among the payloads adds plain changes, and reads a record that cannot add profiles. -/
theorem advance_plain {k : RecKind} {m : Manage} {st st' : SharedTable} {task task' : Progress k.Rec}
    {adds : List (Change k.Rec)} (hok : StoreOk st.maindb) (h : PlainRecords st.maindb)
    (hread : ¬ (Thread.manage k m task).CanAddProfiles)
    (hadv : k.service.Advances m st task st' task' adds) :
    (∀ c ∈ adds.map (RecChange.mk k), c.Plain) ∧ ¬ (Thread.manage k m task').CanAddProfiles := by
  cases hadv with
  | read hrest hstage hfirst hcheck hprepare =>
    refine ⟨by simp, ?_⟩
    simp [Thread.CanAddProfiles, RecKind.prepare_canAddProfiles hok h hprepare]
  | reserve hrest hstage hfirst hcheck hreserve =>
    refine ⟨by simp, ?_⟩
    simp [Thread.CanAddProfiles]
  | reserveRead hrest hstage hreserve =>
    refine ⟨by simp, ?_⟩
    simpa [Thread.CanAddProfiles, hstage] using hread
  | readReserved hrest hstage hprepare =>
    refine ⟨by simp, ?_⟩
    simp [Thread.CanAddProfiles, RecKind.prepare_canAddProfiles hok h hprepare]
  | number hrest hstage hmay =>
    refine ⟨by simp, ?_⟩
    simpa [Thread.CanAddProfiles, hstage] using hread
  | @add data env rest found id cdata items hrest hstage hadd =>
    refine ⟨?_, by simp [Thread.CanAddProfiles]⟩
    rw [List.map_singleton, List.forall_mem_singleton]
    refine ⟨StoreTable.addRecord_notfound hadd, ?_⟩
    show k.canAddProfiles (k.service.fill m data found id cdata) = false
    rw [RecKind.fill_canAddProfiles]
    rcases hstage with ⟨-, -, hstage⟩ | ⟨-, hstage⟩
    · simpa [Thread.CanAddProfiles, hstage] using hread
    · simpa [Thread.CanAddProfiles, hstage] using hread

/-- **One step keeps the records plain.** -/
theorem plainInv_moves {requests : ℕ → Option Request} {s : Sys} {cs : ℕ → List RecChange}
    (h : PlainInv requests s cs) {o : ℕ} {env : CommitEnv} {st' : SharedTable} {th th' : Thread}
    {adds : List RecChange} (ho : s.threads o = th)
    (hm : Moves (requests o) s.table env th st' th' adds) :
    PlainInv requests ⟨st', Function.update s.threads o th'⟩
      (Function.update cs o (cs o ++ adds)) := by
  have hinv := inv_moves h.inv ho hm
  have hok := h.inv.store
  have hread := h.read o
  rw [ho] at hread
  have hstep : PlainRecords st'.maindb ∧ (∀ c ∈ adds, c.Plain) ∧ ¬ th'.CanAddProfiles := by
    cases hm with
    | start hr => exact ⟨h.records, by simp, by simp [Thread.CanAddProfiles]⟩
    | reset hr hold =>
      exact ⟨h.records, List.forall_mem_singleton.mpr (resetChange_plain hok h.records hold _ _),
        by simp [Thread.CanAddProfiles]⟩
    | refuse hr => exact ⟨h.records, by simp, by simp [Thread.CanAddProfiles]⟩
    | advance hadv =>
      refine ⟨?_, advance_plain hok h.records hread hadv⟩
      rw [advance_maindb hadv]
      exact h.records
    | fail => exact ⟨h.records, by simp, by simp [Thread.CanAddProfiles]⟩
    | finish hrest => exact ⟨h.records, by simp, by simp [Thread.CanAddProfiles]⟩
    | empty hitem => exact ⟨h.records, by simp, by simp [Thread.CanAddProfiles]⟩
    | number hitem => exact ⟨h.records, by simp, by simp [Thread.CanAddProfiles]⟩
    | log => exact ⟨h.records, by simp, by simp [Thread.CanAddProfiles]⟩
    | @write now nc t =>
      refine ⟨?_, by simp, by simp [Thread.CanAddProfiles]⟩
      obtain ⟨r, -, hcol⟩ := h.inv.live o nc t.item (by rw [ho]; rfl)
      rw [hcol.items]
      exact RecChange.plainRecords_write h.records (h.changes o)
    | @push now nc t =>
      refine ⟨?_, by simp, by simp [Thread.CanAddProfiles]⟩
      rw [(commitTail_same s.table t true env).maindb]
      exact h.records
    | leave => exact ⟨h.records, by simp, by simp [Thread.CanAddProfiles]⟩
  obtain ⟨hrecords, hadds, hth⟩ := hstep
  refine ⟨hinv, hrecords, fun o' => ?_, fun o' => ?_⟩
  · by_cases he : o' = o
    · subst he
      rw [Function.update_self]
      exact List.forall_mem_append.mpr ⟨h.changes o', hadds⟩
    · rw [Function.update_of_ne he]
      exact h.changes o'
  · show ¬ (Function.update s.threads o th' o').CanAddProfiles
    by_cases he : o' = o
    · subst he
      rw [Function.update_self]
      exact hth
    · rw [Function.update_of_ne he]
      exact h.read o'

/-- **The run lemma**: requests at once leave the tables in order and the records plain. -/
theorem plainRecords_reach {requests : ℕ → Option Request} {σ : IdleMaster} {s : Sys}
    (h : PlainRecords σ.st.maindb) (hreach : (machine requests σ).Reach s) :
    StoreOk s.table.maindb ∧ PlainRecords s.table.maindb := by
  have hinv : ∃ cs, PlainInv requests s cs := by
    refine hreach.invariant (I := fun s => ∃ cs, PlainInv requests s cs) ?_ ?_
    · rintro s rfl
      refine ⟨fun _ => [], inv_init requests σ, h, by simp, ?_⟩
      simp [Thread.CanAddProfiles]
    · rintro s l s' ⟨cs, hi⟩ - hs
      obtain ⟨out, hout, rfl⟩ := Option.map_eq_some_iff.mp hs
      obtain ⟨adds, hm⟩ := threadStep_moves hi.inv.store hout
      exact ⟨_, plainInv_moves hi rfl hm⟩
  obtain ⟨cs, hi⟩ := hinv
  exact ⟨hi.inv.store, hi.records⟩

end Requests

/-! ## The records of a node -/

/-- **How the records of a node come about**: those of a new node, an account made at a start, and
    whatever a master's requests have written, in any order of their steps. -/
inductive Recorded : DataDb → Prop
  | fresh : Recorded freshDb
  | created {st : SharedTable} (h : Recorded st.maindb) (currtime : Nat) (signkey : SignKeyT)
      (user : ExterDataT) (update isAdmin hasProfile : Bool) (env : CommitEnv) :
      Recorded (ExterDataService.adminCreateAction st currtime signkey user update isAdmin hasProfile
        env).1.maindb
  | served {requests : ℕ → Option Requests.Request} {σ : Requests.IdleMaster} {s : Requests.Sys}
      (h : Recorded σ.st.maindb) (hreach : (Requests.machine requests σ).Reach s) :
      Recorded s.table.maindb

/-- **The records of a node are in order and plain.** -/
theorem Recorded.plain {db : DataDb} (h : Recorded db) : StoreOk db ∧ PlainRecords db := by
  induction h with
  | fresh => exact ⟨storeOk_freshDb, plainRecords_freshDb⟩
  | created h currtime signkey user update isAdmin hasProfile env ih =>
    obtain ⟨hok, hplain⟩ := ih
    rcases ExterDataService.adminCreateAction_maindb (hok .exter) currtime signkey user update
      isAdmin hasProfile env with hsame | ⟨c, hc, hdb⟩
    · rw [hsame]
      exact ⟨hok, hplain⟩
    · have hflag : c.record.canAddProfiles = false := by
        rcases hc.canAddProfiles with hoff | ⟨old, hold, hkept⟩
        · exact hoff
        · exact hkept.trans (hplain.find hok (k := .exter) rfl hold).canAddProfiles
      rw [hdb]
      refine ⟨RecChange.storeOk_write hok (c := ⟨.exter, c⟩) hc.fits, ?_⟩
      have hone : ∀ d ∈ ([⟨.exter, c⟩] : List RecChange), d.Plain :=
        List.forall_mem_singleton.mpr ⟨hc.notfound, hflag⟩
      have hwrite := RecChange.plainRecords_write hplain hone
      rwa [RecChange.batch, List.flatMap_singleton] at hwrite
  | served h hreach ih => exact Requests.plainRecords_reach ih.2 hreach

end Zapdos.Store
