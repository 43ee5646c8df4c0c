/-
  What the services have in common — the laws of a `Service`, and what its stages do.

  A service keeps its records under the unique key of its table, reserves exactly that name, and a
  record it prepares has the key of the payload and the id of the stored record, if there is one.
-/
import Zapdos.Lib.CString
import Zapdos.Store.ExterDataService
import Zapdos.Store.ItemDataService
import Zapdos.Store.TagDataService

namespace Zapdos.Store

open Zapdos.Lib

namespace Service

variable {T : Type}

/-- The unique key of a record. -/
def key (s : Service T) (r : T) : Key := s.table.getKey r s.ukey

/-- The key a name is reserved under. -/
def lock (s : Service T) (r : T) : Key := encodeSecondaryKey s.ukey (s.reserved r)

/-- The stored record with the key of `r`. -/
def stored (s : Service T) (db : DataDb) (r : T) : Option T := s.table.find db (s.key r)

/-- The table of the service is in order. -/
def TableOk (s : Service T) (db : DataDb) : Prop := StoreTable.TableOk s.table s.ukey db

/-- The laws of a service. -/
structure Lawful (s : Service T) : Prop where
  single : s.table.SingleKey s.ukey
  makeKey : ∀ name, TempNameCache.makeKey s.keytype name = .ok (encodeSecondaryKey s.ukey name)
  reserved : ∀ r r', s.reserved r = s.reserved r' ↔ s.key r = s.key r'
  prepare : ∀ {env db m data found r}, s.TableOk db →
    s.prepare env db m data = .ok (found, r) →
      s.key r = s.key data ∧ found = (s.stored db data).isSome ∧
        ∀ old, s.stored db data = some old → s.table.id r = s.table.id old
  fill_key : ∀ m data found id r, s.key (s.fill m data found id r) = s.key r
  fill_id : ∀ m data found id r,
    s.table.id (s.fill m data found id r) = if found then s.table.id r else id

namespace Lawful

variable {s : Service T} (h : s.Lawful)

include h

/-- Names are reserved under one key exactly when they are one name. -/
theorem lock_eq_iff {r r' : T} : s.lock r = s.lock r' ↔ s.key r = s.key r' := by
  rw [← h.reserved]
  simp [Service.lock, encodeSecondaryKey]

/-- **The reservation stage** succeeds when the name is neither in this request nor taken. -/
theorem reserve_eq_ok {st st' : SharedTable} {nc nc' : TempNameCache} {r : T} :
    s.reserve st nc r = .ok (st', nc') ↔
      s.lock r ∉ nc.inset ∧ st.tmpcache.get (s.lock r) = none ∧
        st' = { st with tmpcache := st.tmpcache.put (s.lock r) [] } ∧
        nc' = { inset := nc.inset.insert (s.lock r) } := by
  simp only [Service.reserve, TempNameCache.checkLocal, TempNameCache.reserveName, h.makeKey,
    bind, Except.bind, pure, Except.pure, Bool.false_and, Bool.false_eq_true, if_false]
  by_cases hin : s.lock r ∈ nc.inset
  · -- an earlier payload of the request has the name
    simp [show encodeSecondaryKey s.ukey (s.reserved r) ∈ nc.inset from hin, badDataOf, hin]
  · by_cases hc : st.tmpcache.get (s.lock r) = none
    · simp [show encodeSecondaryKey s.ukey (s.reserved r) ∉ nc.inset from hin,
        TempNameCache.acquire, CacheContainer.checkAssoc, CacheContainer.setAssoc,
        show st.tmpcache.get (encodeSecondaryKey s.ukey (s.reserved r)) = none from hc,
        Service.lock, eq_comm]
    · -- another request has it
      have hsome : (st.tmpcache.get (encodeSecondaryKey s.ukey (s.reserved r))).isSome = true :=
        Option.isSome_iff_ne_none.mpr hc
      simp [show encodeSecondaryKey s.ukey (s.reserved r) ∉ nc.inset from hin, hc,
        TempNameCache.acquire, CacheContainer.checkAssoc, hsome, badDataOf]

/-- The last stage for a record that is stored already. -/
theorem add_found {st : SharedTable} (hok : s.TableOk st.maindb) {m : Manage} {data r old : T}
    (hold : s.stored st.maindb r = some old) (hid : s.table.id r = s.table.id old)
    (items : List TransItemT) :
    s.add st m data true r items =
      (st, if s.table.notfound (s.fill m data true 0 r) = false then
          .ok (s.fill m data true 0 r, items ++ s.table.updateRows (s.fill m data true 0 r))
        else badData s.insertMsg) := by
  have hold' : s.table.find st.maindb (s.table.getKey (s.fill m data true 0 r) s.ukey) = some old :=
    (congrArg _ (h.fill_key m data true 0 r)).trans hold
  have hid' : s.table.id (s.fill m data true 0 r) = s.table.id old := by
    rw [h.fill_id, if_pos rfl, hid]
  simp only [Service.add, if_true, h.single.addRecord_update hok hold' hid']
  by_cases hnf : s.table.notfound (s.fill m data true 0 r) = false
  · simp only [if_pos hnf]
  · simp only [if_neg hnf]

/-- The last stage for a new record. -/
theorem add_new {st : SharedTable} (hok : s.TableOk st.maindb) {m : Manage} {data r : T}
    (items : List TransItemT) :
    s.add st m data false r items =
      match s.mayInsert r with
      | .error e => (st, .error e)
      | .ok () =>
        let r' := s.fill m data false (st.maincounter + 1) r
        ({ st with maincounter := st.maincounter + 1 },
          if s.table.notfound r' = false ∧
              st.maindb.get (encodePrimaryKey s.table.primaryKey (st.maincounter + 1)) = none ∧
              st.maindb.get (s.key r) = none then
            .ok (r', items ++ s.table.insertRows s.ukey r')
          else badData s.insertMsg) := by
  -- the counter gives the id, whatever the payload says
  have hid : s.table.id (s.fill m data false (st.maincounter + 1) r) = st.maincounter + 1 := by
    rw [h.fill_id, if_neg Bool.false_ne_true]
  have hkey : s.table.getKey (s.fill m data false (st.maincounter + 1) r) s.ukey = s.key r :=
    h.fill_key m data false (st.maincounter + 1) r
  simp only [Service.add, Bool.false_eq_true, if_false]
  cases s.mayInsert r with
  | error e => rfl
  | ok =>
    simp only [SharedTable.maincounterGetNext, h.single.addRecord_insert hok, hid, hkey, ne_eq,
      Nat.succ_ne_zero, not_false_eq_true, true_and]
    by_cases hfree : s.table.notfound (s.fill m data false (st.maincounter + 1) r) = false ∧
        st.maindb.get (encodePrimaryKey s.table.primaryKey (st.maincounter + 1)) = none ∧
        st.maindb.get (s.key r) = none
    · simp only [if_pos hfree]
    · simp only [if_neg hfree]

end Lawful

end Service

/-! ## The services -/

/-- The start of the `PrepareData` functions: look the record up by its name. -/
theorem getOne_bind_eq {T A : Type} {t : StoreTable T} {u : KeyTypeE} (ht : t.SingleKey u)
    {db : DataDb} (hok : StoreTable.TableOk t u db) (q : T) (next : Bool → T → Except Exc A) :
    (do
      let (found, r) ← t.getOne db q u
      next found r) =
      next (t.find db (t.getKey q u)).isSome ((t.find db (t.getKey q u)).getD q) := by
  rw [ht.getOne_unique hok]
  cases t.find db (t.getKey q u) <;> rfl

/-- A record made from the stored one, or from a blank one under the name. -/
theorem Service.prepare_same {T : Type} {s : Service T} (hs : s.table.SingleKey s.ukey)
    {db : DataDb} (hok : s.TableOk db) {data q r : T} (hq : s.key q = s.key data)
    {found : Bool} (hf : found = (s.stored db data).isSome)
    (hkey : s.key r = s.key ((s.stored db data).getD q))
    (hid : s.table.id r = s.table.id ((s.stored db data).getD q)) :
    s.key r = s.key data ∧ found = (s.stored db data).isSome ∧
      ∀ old, s.stored db data = some old → s.table.id r = s.table.id old := by
  cases hold : s.stored db data with
  | none =>
    rw [hold] at hkey hf
    exact ⟨hkey.trans hq, hf, nofun⟩
  | some old =>
    -- the stored record has the key it was found under
    rw [hold] at hkey hid hf
    obtain ⟨hk, -⟩ := (hs.find_eq_some hok (hs.keytype_ukey data)).mp hold
    refine ⟨hkey.trans hk, hf, ?_⟩
    rintro _ ⟨⟩
    exact hid

namespace UserDataService

/-- Assigning the other fields leaves name, id, admin flag and manager. -/
theorem assigned_same (found : Bool) (action : Nat) (c : UserDataT) :
    (assigned found action c).name = c.name ∧ (assigned found action c).id = c.id ∧
      (assigned found action c).isAdmin = c.isAdmin ∧
      (assigned found action c).manager = c.manager := by
  rw [assigned]
  split <;> exact ⟨rfl, rfl, rfl, rfl⟩

/-- A prepared user keeps name, id, admin flag and manager of the record it was made from. -/
theorem prepareFound_same {env : PrepEnv} {updater data : UserDataT} {action fields : Nat}
    {merge found f : Bool} {cdata out : UserDataT}
    (h : prepareFound env updater data action fields merge found cdata = .ok (f, out)) :
    f = found ∧ out.name = cdata.name ∧ out.id = cdata.id ∧ out.isAdmin = cdata.isAdmin ∧
      out.manager = cdata.manager := by
  obtain ⟨-, -, hf, ⟨-, rfl⟩ | ⟨-, c, hc, rfl⟩⟩ := prepareFound_eq_ok.mp h
  · exact ⟨hf, rfl, rfl, rfl, rfl⟩
  · -- the parts of the fields leave what is not a field
    obtain ⟨g1, g2, g3, g4, -⟩ :=
      UdField.rest_eq (setFields_frame (fieldParts_staysIn env merge) hc).1
    obtain ⟨h1, h2, h3, h4⟩ := assigned_same found action c
    exact ⟨hf, h1.trans g1, h2.trans g2, h3.trans g3, h4.trans g4⟩

/-- `PrepareData` in terms of the record the table finds. -/
theorem prepareData_eq_ok {env : PrepEnv} {db : DataDb} {updater data : UserDataT}
    {action fields : Nat} {merge : Bool} {out : Bool × UserDataT}
    (hok : StoreTable.TableOk userDataTable uUserdataName db) :
    prepareData env db updater data action fields merge = .ok out ↔
      updater.id ≠ 0 ∧ data.name ≠ [] ∧
        prepareFound env updater data action fields merge (service.stored db data).isSome
          ((service.stored db data).getD { name := data.name }) = .ok out := by
  rw [prepareData]
  split_ifs with h1 h2
  · simp [h1, badData]
  · simp [h2, badData]
  · rw [and_iff_right h1, and_iff_right h2]
    exact iff_of_eq (congrArg (· = .ok out)
      (getOne_bind_eq StoreTable.userDataTable_singleKey hok { name := data.name }
        (prepareFound env updater data action fields merge)))

/-- Filling in leaves the name, and the id of a stored user. -/
theorem fillRecord_same (m : Manage) (data : UserDataT) (found : Bool) (id : Nat) (r : UserDataT) :
    (fillRecord m data found id r).name = r.name ∧
      (fillRecord m data found id r).id = (if found then r.id else id) ∧
      (fillRecord m data found id r).notfound = r.notfound := by
  cases found <;> exact ⟨rfl, rfl, rfl⟩

/-- A user is stored under the name. -/
theorem key_eq (r : UserDataT) : service.key r = encodeSecondaryKey uUserdataName r.name := rfl

/-- A prepared user has the name of the payload and the id of the stored one. -/
theorem service_prepare {env : PrepEnv} {db : DataDb} {m : Manage} {data r : UserDataT}
    {found : Bool} (hok : service.TableOk db) (hp : service.prepare env db m data = .ok (found, r)) :
    service.key r = service.key data ∧ found = (service.stored db data).isSome ∧
      ∀ old, service.stored db data = some old → r.id = old.id := by
  have hp' : prepareData env db m.updater data m.action m.fields m.merge = .ok (found, r) := hp
  obtain ⟨-, -, hp'⟩ := (prepareData_eq_ok hok).mp hp'
  obtain ⟨hf, hname, hid, -⟩ := prepareFound_same hp'
  have hq : service.key { name := data.name } = service.key data := rfl
  exact Service.prepare_same StoreTable.userDataTable_singleKey hok hq hf
    (by rw [key_eq, key_eq, hname]) hid

/-- **The laws hold for users.** -/
theorem service_lawful : service.Lawful where
  single := StoreTable.userDataTable_singleKey
  makeKey _ := rfl
  reserved r r' := by
    simp only [key_eq, encodeSecondaryKey, Key.secondary.injEq, List.cons.injEq,
      KeyPart.text.injEq, and_true, true_and]
    rfl
  prepare hok hp := service_prepare hok hp
  fill_key m data found id r := by
    rw [key_eq, key_eq]
    exact congrArg _ (fillRecord_same m data found id r).1
  fill_id m data found id r := (fillRecord_same m data found id r).2.1

end UserDataService

/-- **What a password reset is made of**: the row of the stored record with the new password.  Of the
    two credentials the empty one is not tested, and none is if both are given. -/
theorem resetPassRows_eq_ok {pkey ukey : KeyTypeE} (ht : (userTable pkey ukey).SingleKey ukey)
    {db : DataDb} (hok : StoreTable.TableOk (userTable pkey ukey) ukey db) {currtime : Nat}
    {resp : ResetRespT} {items : List TransItemT} :
    resetPassRows (userTable pkey ukey) ukey db currtime resp = .ok items ↔
      resp.username ≠ [] ∧ resp.newpass ≠ [] ∧ ¬ (resp.oldpass = [] ∧ resp.otp = []) ∧
        ∃ old, (userTable pkey ukey).find db (encodeSecondaryKey ukey resp.username) = some old ∧
          (resp.otp = [] → old.passkey = resp.oldpass) ∧
          (resp.oldpass = [] → old.lastOtp = resp.otp) ∧ old.notfound = false ∧
          items = (userTable pkey ukey).updateRows
            { old with passkey := resp.newpass, updatedAt := currtime } := by
  have hkey : ∀ r, (userTable pkey ukey).getKey r ukey = encodeSecondaryKey ukey r.name :=
    fun r => if_pos rfl
  rw [resetPassRows]
  split_ifs with hname hnew hboth
  · simp [hname, badData]
  · simp [hnew, badData]
  · simp [hboth, badData]
  · rw [and_iff_right hname, and_iff_right hnew, and_iff_right hboth, ht.getOne_unique hok, hkey]
    cases hold : (userTable pkey ukey).find db (encodeSecondaryKey ukey resp.username) with
    | none => simp [bind, Except.bind, badData]
    | some old =>
      obtain ⟨hk, -⟩ := (ht.find_eq_some hok rfl).mp hold
      -- the new password leaves the key, so the record is replaced
      have hsame : (userTable pkey ukey).find db ((userTable pkey ukey).getKey
          { old with passkey := resp.newpass, updatedAt := currtime } ukey) = some old := by
        rw [hkey]
        rw [hkey] at hk
        rw [hk]
        exact hold
      have hadd := ht.addRecord_update hok hsame rfl []
      simp only [bind, Except.bind, Bool.not_true, Bool.false_eq_true, if_false,
        Option.some.injEq, exists_eq_left']
      -- the old password counts only when no one-time password is given, and the other way round
      by_cases hpass : resp.otp = [] ∧ old.passkey ≠ resp.oldpass
      · rw [if_pos hpass]
        simp [hpass, badData]
      · rw [if_neg hpass]
        have hpass' : resp.otp = [] → old.passkey = resp.oldpass := by
          intro ho
          by_contra hne
          exact hpass ⟨ho, hne⟩
        rw [and_iff_right hpass']
        by_cases hotp : resp.oldpass = [] ∧ old.lastOtp ≠ resp.otp
        · rw [if_pos hotp]
          simp [hotp, badData]
        · rw [if_neg hotp]
          have hotp' : resp.oldpass = [] → old.lastOtp = resp.otp := by
            intro ho
            by_contra hne
            exact hotp ⟨ho, hne⟩
          rw [and_iff_right hotp', hadd]
          have hnf : (userTable pkey ukey).notfound
              { old with passkey := resp.newpass, updatedAt := currtime } = old.notfound := rfl
          rw [hnf]
          cases hflag : old.notfound
          · simp [pure, Except.pure, eq_comm]
          · simp [badData]

/-- **The rows of a password reset**: those of the stored record with the new password. -/
theorem resetPassRows_ok {pkey ukey : KeyTypeE} (ht : (userTable pkey ukey).SingleKey ukey)
    {db : DataDb} (hok : StoreTable.TableOk (userTable pkey ukey) ukey db) {currtime : Nat}
    {resp : ResetRespT} {items : List TransItemT}
    (h : resetPassRows (userTable pkey ukey) ukey db currtime resp = .ok items) :
    ∃ old, (userTable pkey ukey).find db (encodeSecondaryKey ukey resp.username) = some old ∧
      items = (userTable pkey ukey).updateRows
        { old with passkey := resp.newpass, updatedAt := currtime } := by
  obtain ⟨-, -, -, old, hold, -, -, -, hitems⟩ := (resetPassRows_eq_ok ht hok).mp h
  exact ⟨old, hold, hitems⟩

namespace ExterDataService

/-- A prepared exter keeps name, id, admin flag and manager of the record it was made from. -/
theorem prepareFound_same {env : PrepEnv} {updater data : ExterDataT} {action fields : Nat}
    {merge found f : Bool} {cdata out : ExterDataT}
    (h : prepareFound env updater data action fields merge found cdata = .ok (f, out)) :
    f = found ∧ out.name = cdata.name ∧ out.id = cdata.id ∧ out.isAdmin = cdata.isAdmin ∧
      out.manager = cdata.manager := by
  obtain ⟨-, hf, ⟨-, rfl⟩ | ⟨-, c, hc, rfl⟩⟩ := prepareFound_eq_ok.mp h
  · exact ⟨hf, rfl, rfl, rfl, rfl⟩
  · obtain ⟨g1, g2, g3, g4, -⟩ :=
      UdField.rest_eq (setFields_frame (fieldParts_staysIn env merge) hc).1
    obtain ⟨h1, h2, h3, h4⟩ := UserDataService.assigned_same found action c
    exact ⟨hf, h1.trans g1, h2.trans g2, h3.trans g3, h4.trans g4⟩

/-- `PrepareData` in terms of the record the table finds. -/
theorem prepareData_eq_ok {env : PrepEnv} {db : DataDb} {updater data : ExterDataT}
    {action fields : Nat} {merge : Bool} {out : Bool × ExterDataT}
    (hok : StoreTable.TableOk exterDataTable uExterdataName db) :
    prepareData env db updater data action fields merge = .ok out ↔
      updater.id ≠ 0 ∧ data.name ≠ [] ∧
        prepareFound env updater data action fields merge (service.stored db data).isSome
          ((service.stored db data).getD { name := data.name }) = .ok out := by
  rw [prepareData]
  split_ifs with h1 h2
  · simp [h1, badData]
  · simp [h2, badData]
  · rw [and_iff_right h1, and_iff_right h2]
    exact iff_of_eq (congrArg (· = .ok out)
      (getOne_bind_eq StoreTable.exterDataTable_singleKey hok { name := data.name }
        (prepareFound env updater data action fields merge)))

/-- An exter is stored under the name. -/
theorem key_eq (r : ExterDataT) : service.key r = encodeSecondaryKey uExterdataName r.name := rfl

/-- A prepared exter has the name of the payload and the id of the stored one. -/
theorem service_prepare {env : PrepEnv} {db : DataDb} {m : Manage} {data r : ExterDataT}
    {found : Bool} (hok : service.TableOk db) (hp : service.prepare env db m data = .ok (found, r)) :
    service.key r = service.key data ∧ found = (service.stored db data).isSome ∧
      ∀ old, service.stored db data = some old → r.id = old.id := by
  have hp' : prepareData env db m.updater data m.action m.fields m.merge = .ok (found, r) := hp
  obtain ⟨-, -, hp'⟩ := (prepareData_eq_ok hok).mp hp'
  obtain ⟨hf, hname, hid, -⟩ := prepareFound_same hp'
  have hq : service.key { name := data.name } = service.key data := rfl
  exact Service.prepare_same StoreTable.exterDataTable_singleKey hok hq hf
    (by rw [key_eq, key_eq, hname]) hid

/-- **The laws hold for exters.** -/
theorem service_lawful : service.Lawful where
  single := StoreTable.exterDataTable_singleKey
  makeKey _ := rfl
  reserved r r' := by
    simp only [key_eq, encodeSecondaryKey, Key.secondary.injEq, List.cons.injEq,
      KeyPart.text.injEq, and_true, true_and]
    rfl
  prepare hok hp := service_prepare hok hp
  fill_key m data found id r := by
    rw [key_eq, key_eq]
    exact congrArg _ (UserDataService.fillRecord_same m data found id r).1
  fill_id m data found id r := (UserDataService.fillRecord_same m data found id r).2.1

end ExterDataService

namespace ItemDataService

/-- Assigning the other fields leaves unique id, id and manager. -/
theorem assigned_same (found : Bool) (action : Nat) (c : ItemDataT) :
    (assigned found action c).uniqueId = c.uniqueId ∧ (assigned found action c).id = c.id ∧
      (assigned found action c).manager = c.manager := by
  rw [assigned]
  split <;> exact ⟨rfl, rfl, rfl⟩

/-- The copy of the old item is no part of it. -/
theorem rememberOld_same (found : Bool) (c : ItemDataT) : SameItem c (rememberOld found c) := by
  rw [rememberOld]
  split <;> exact ⟨rfl, rfl, rfl, rfl⟩

/-- A prepared item keeps unique id, id and manager of the record it was made from. -/
theorem prepareFound_same {env : PrepEnv} {db : DataDb} {keytype : KeyTypeE}
    {updater : ExterDataT} {data : ItemDataT} {action fields : Nat} {merge found f : Bool}
    {cdata out : ItemDataT}
    (h : prepareFound env db keytype updater data action fields merge found cdata = .ok (f, out)) :
    f = found ∧ out.uniqueId = cdata.uniqueId ∧ out.id = cdata.id ∧
      out.manager = cdata.manager := by
  obtain ⟨-, hf, ⟨-, rfl⟩ | ⟨-, c, hc, rfl⟩⟩ := prepareFound_eq_ok.mp h
  · exact ⟨hf, rfl, rfl, rfl⟩
  · -- `SameItem` goes through the parts one by one
    have hkeep : SameItem cdata c :=
      setFields_keeps (fun part hpart _ _ x x' hset hx =>
        hx.trans (fieldParts_same env db keytype merge part hpart data x x' hset)) hc
        (rememberOld_same found cdata)
    obtain ⟨g1, g2, g3, -⟩ := hkeep
    obtain ⟨h1, h2, h3⟩ := assigned_same found action c
    exact ⟨hf, h1.trans g2, h2.trans g1, h3.trans g3⟩

/-- `PrepareData` in terms of the record the table finds. -/
theorem prepareData_eq_ok {t : StoreTable ItemDataT} {u : KeyTypeE} (ht : t.SingleKey u)
    {env : PrepEnv} {db : DataDb} {updater : ExterDataT} {data : ItemDataT} {action fields : Nat}
    {merge : Bool} {out : Bool × ItemDataT} (hok : StoreTable.TableOk t u db)
    (hkey : ∀ r, t.getKey r u = encodeSecondaryKey u r.uniqueId) :
    prepareData t u env db updater data action fields merge = .ok out ↔
      updater.id ≠ 0 ∧ data.uniqueId ≠ [] ∧
        prepareFound env db t.primaryKey updater data action fields merge
          ((service t u).stored db data).isSome
          (((service t u).stored db data).getD { uniqueId := data.uniqueId }) = .ok out := by
  rw [prepareData]
  split_ifs with h1 h2
  · simp [h1, badData]
  · simp [h2, badData]
  · -- the code looks up a blank record with the unique id only
    have hq : t.getKey { uniqueId := data.uniqueId } u = t.getKey data u := by rw [hkey, hkey]
    have hstored : t.find db (t.getKey { uniqueId := data.uniqueId } u) =
        (service t u).stored db data := congrArg _ hq
    rw [and_iff_right h1, and_iff_right h2, getOne_bind_eq ht hok { uniqueId := data.uniqueId }
      (prepareFound env db t.primaryKey updater data action fields merge), hstored]

/-- Filling in leaves the unique id, and the id of a stored item. -/
theorem fillRecord_same (m : Manage) (data : ItemDataT) (found : Bool) (id : Nat) (r : ItemDataT) :
    (fillRecord m data found id r).uniqueId = r.uniqueId ∧
      (fillRecord m data found id r).id = (if found then r.id else id) ∧
      (fillRecord m data found id r).notfound = r.notfound := by
  cases found <;> exact ⟨rfl, rfl, rfl⟩

/-- Both services of items, over their tables. -/
theorem service_lawful {pkey ukey : Nat} (hp : kNonode < pkey ∧ pkey < kLognode)
    (hu : kMaxnode < ukey)
    (hmake : ∀ name, TempNameCache.makeKey pkey name = .ok (encodeSecondaryKey ukey name)) :
    (service (itemTable pkey ukey) ukey).Lawful := by
  have ht := StoreTable.itemTable_singleKey hp hu
  have hkey : ∀ r, (itemTable pkey ukey).getKey r ukey = encodeSecondaryKey ukey r.uniqueId :=
    fun r => if_pos rfl
  have hkey' : ∀ r, (service (itemTable pkey ukey) ukey).key r =
      encodeSecondaryKey ukey r.uniqueId := hkey
  refine { single := ht, makeKey := hmake, reserved := ?_, prepare := ?_, fill_key := ?_,
           fill_id := fun m data found id r => (fillRecord_same m data found id r).2.1 }
  · intro r r'
    rw [hkey', hkey']
    simp only [encodeSecondaryKey, Key.secondary.injEq, List.cons.injEq, KeyPart.text.injEq,
      and_true, true_and]
    rfl
  · intro env db m data found r hok hprep
    have hprep' : prepareData (itemTable pkey ukey) ukey env db m.updater data m.action m.fields
        m.merge = .ok (found, r) := hprep
    obtain ⟨-, -, hprep'⟩ := (prepareData_eq_ok ht hok hkey).mp hprep'
    obtain ⟨hf, hname, hid, -⟩ := prepareFound_same hprep'
    have hq : (service (itemTable pkey ukey) ukey).key { uniqueId := data.uniqueId } =
        (service (itemTable pkey ukey) ukey).key data := by rw [hkey', hkey']
    exact Service.prepare_same ht hok hq hf (by rw [hkey', hkey', hname]) hid
  · intro m data found id r
    rw [hkey', hkey']
    exact congrArg _ (fillRecord_same m data found id r).1

/-- **The laws hold for local items.** -/
theorem localService_lawful : localService.Lawful :=
  service_lawful (by decide) (by decide) fun _ => rfl

/-- **The laws hold for wiki items.** -/
theorem wikiService_lawful : wikiService.Lawful :=
  service_lawful (by decide) (by decide) fun _ => rfl

end ItemDataService

namespace TagDataService

/-- A prepared tag is the record it was made from. -/
theorem prepareFound_same {m : Manage} {data tdata out : TagDataT} {found f : Bool}
    (h : prepareFound m data found tdata = .ok (f, out)) : f = found ∧ out = tdata := by
  rw [prepareFound] at h
  split_ifs at h
  · cases h
  · cases h
  · cases h
  · cases h
    exact ⟨rfl, rfl⟩

/-- The read of the stored tag in terms of the record the table finds. -/
theorem prepare_eq {db : DataDb} {m : Manage} {data : TagDataT}
    (hok : StoreTable.TableOk tagDataTable uTagdataKeytypeName db) :
    prepare db m data = prepareFound m data (service.stored db data).isSome
      ((service.stored db data).getD { name := data.name, keytype := data.keytype }) :=
  getOne_bind_eq StoreTable.tagDataTable_singleKey hok
    { name := data.name, keytype := data.keytype } (prepareFound m data)

/-- A tag is stored under key type and name. -/
theorem key_eq (r : TagDataT) :
    service.key r = encodeSecondaryKeyNum uTagdataKeytypeName r.keytype r.name := rfl

/-- A digit, as a byte, keeps its number, and is no bar. -/
theorem digit_toNat {c : Char} (h : c.isDigit = true) :
    (chr c).toNat = c.toNat ∧ chr c ≠ 124 := by
  have hr : 48 ≤ c.toNat ∧ c.toNat ≤ 57 := by
    simp only [Char.isDigit, Bool.and_eq_true, decide_eq_true_eq, UInt32.le_iff_toNat_le] at h
    exact h
  have hn : (chr c).toNat = c.toNat := by
    rw [chr, UInt8.toNat_ofNat']
    omega
  refine ⟨hn, fun he => ?_⟩
  have := congrArg UInt8.toNat he
  rw [hn] at this
  have h124 : (124 : UInt8).toNat = 124 := rfl
  omega

/-- A number is read off its digits. -/
theorem decimal_injective {m n : Nat} (h : decimal m = decimal n) : m = n := by
  have hdig : ∀ k, ∀ c ∈ Nat.toDigits 10 k, c.isDigit = true := fun k c hc =>
    Nat.isDigit_of_mem_toDigits (by decide) (by decide) hc
  -- the bytes go back to the digits, and the digits to the number
  have hback : ∀ k, (decimal k).map (fun b => Char.ofNat b.toNat) = Nat.toDigits 10 k := by
    intro k
    rw [decimal, List.map_map]
    conv_rhs => rw [← List.map_id (Nat.toDigits 10 k)]
    refine List.map_congr_left fun c hc => ?_
    show Char.ofNat (chr c).toNat = c
    rw [(digit_toNat (hdig k c hc)).1, Char.ofNat_toNat]
  have hd : Nat.toDigits 10 m = Nat.toDigits 10 n := by rw [← hback, ← hback, h]
  rw [← Nat.ofDigitChars_ten_toDigits (n := m), hd, Nat.ofDigitChars_ten_toDigits]

/-- No digit is a bar. -/
theorem bar_not_mem_decimal (n : Nat) : (124 : UInt8) ∉ decimal n := by
  intro h
  obtain ⟨c, hc, he⟩ := List.mem_map.mp h
  exact (digit_toNat (Nat.isDigit_of_mem_toDigits (by decide) (by decide) hc)).2 he

/-- Key type and name can be read off `taginfo`: the digits end at the bar. -/
theorem taginfo_eq_iff {r r' : TagDataT} :
    taginfo r = taginfo r' ↔ r.keytype = r'.keytype ∧ r.name = r'.name := by
  constructor
  · intro h
    -- the first bar is the one after the key type; the name may have others
    have hbar : str "|" = [124] := rfl
    simp only [taginfo, hbar, List.append_assoc, List.singleton_append] at h
    obtain ⟨hd, hn⟩ := CString.append_sep_inj (bar_not_mem_decimal _) (bar_not_mem_decimal _) h
    exact ⟨decimal_injective hd, hn⟩
  · rintro ⟨hk, hn⟩
    rw [taginfo, taginfo, hk, hn]

/-- Filling in leaves key type and name, and the id of a stored tag. -/
theorem fillRecord_same (m : Manage) (data : TagDataT) (found : Bool) (id : Nat) (r : TagDataT) :
    (fillRecord m data found id r).keytype = r.keytype ∧
      (fillRecord m data found id r).name = r.name ∧
      (fillRecord m data found id r).id = (if found then r.id else id) := by
  rw [fillRecord]
  split <;> cases found <;> exact ⟨rfl, rfl, rfl⟩

/-- A prepared tag has the key of the payload and the id of the stored one. -/
theorem service_prepare {env : PrepEnv} {db : DataDb} {m : Manage} {data r : TagDataT}
    {found : Bool} (hok : service.TableOk db) (hp : service.prepare env db m data = .ok (found, r)) :
    service.key r = service.key data ∧ found = (service.stored db data).isSome ∧
      ∀ old, service.stored db data = some old → r.id = old.id := by
  have hp' : prepare db m data = .ok (found, r) := hp
  rw [prepare_eq hok] at hp'
  obtain ⟨hf, hr⟩ := prepareFound_same hp'
  have hq : service.key { name := data.name, keytype := data.keytype } = service.key data := rfl
  exact Service.prepare_same StoreTable.tagDataTable_singleKey hok hq hf (by rw [hr])
    (congrArg _ hr)

/-- **The laws hold for tags**; the name that is reserved holds the key type. -/
theorem service_lawful : service.Lawful where
  single := StoreTable.tagDataTable_singleKey
  makeKey _ := rfl
  reserved r r' := by
    simp only [key_eq, encodeSecondaryKeyNum, Key.secondary.injEq, List.cons.injEq,
      KeyPart.text.injEq, KeyPart.num.injEq, and_true, true_and]
    exact taginfo_eq_iff.trans (and_congr_left' Int.natCast_inj.symm)
  prepare hok hp := service_prepare hok hp
  fill_key m data found id r := by
    obtain ⟨hk, hn, -⟩ := fillRecord_same m data found id r
    rw [key_eq, key_eq]
    exact congrArg₂ (fun n s => encodeSecondaryKeyNum uTagdataKeytypeName (n : Nat) s) hk hn
  fill_id m data found id r := (fillRecord_same m data found id r).2.2

end TagDataService

namespace CategoryService

/-- A prepared category is the record it was made from. -/
theorem prepareFound_same {m : Manage} {data tdata out : CategoryT} {found f : Bool}
    (h : prepareFound m data found tdata = .ok (f, out)) : f = found ∧ out = tdata := by
  rw [prepareFound] at h
  split_ifs at h
  · cases h
  · cases h
  · cases h
  · cases h
    exact ⟨rfl, rfl⟩

/-- The read of the stored category in terms of the record the table finds. -/
theorem prepare_eq {db : DataDb} {m : Manage} {data : CategoryT}
    (hok : StoreTable.TableOk categoryTable uCategoryName db) :
    prepare db m data = prepareFound m data (service.stored db data).isSome
      ((service.stored db data).getD { name := data.name }) :=
  getOne_bind_eq StoreTable.categoryTable_singleKey hok { name := data.name }
    (prepareFound m data)

/-- A category is stored under the name. -/
theorem key_eq (r : CategoryT) : service.key r = encodeSecondaryKey uCategoryName r.name := rfl

/-- Filling in leaves the name, and the id of a stored category. -/
theorem fillRecord_same (m : Manage) (data : CategoryT) (found : Bool) (id : Nat) (r : CategoryT) :
    (fillRecord m data found id r).name = r.name ∧
      (fillRecord m data found id r).id = (if found then r.id else id) := by
  rw [fillRecord]
  split <;> cases found <;> exact ⟨rfl, rfl⟩

/-- A prepared category has the name of the payload and the id of the stored one. -/
theorem service_prepare {env : PrepEnv} {db : DataDb} {m : Manage} {data r : CategoryT}
    {found : Bool} (hok : service.TableOk db) (hp : service.prepare env db m data = .ok (found, r)) :
    service.key r = service.key data ∧ found = (service.stored db data).isSome ∧
      ∀ old, service.stored db data = some old → r.id = old.id := by
  have hp' : prepare db m data = .ok (found, r) := hp
  rw [prepare_eq hok] at hp'
  obtain ⟨hf, hr⟩ := prepareFound_same hp'
  have hq : service.key { name := data.name } = service.key data := rfl
  exact Service.prepare_same StoreTable.categoryTable_singleKey hok hq hf (by rw [hr])
    (congrArg _ hr)

/-- **The laws hold for categories.** -/
theorem service_lawful : service.Lawful where
  single := StoreTable.categoryTable_singleKey
  makeKey _ := rfl
  reserved r r' := by
    simp only [key_eq, encodeSecondaryKey, Key.secondary.injEq, List.cons.injEq,
      KeyPart.text.injEq, and_true, true_and]
    rfl
  prepare hok hp := service_prepare hok hp
  fill_key m data found id r := by
    rw [key_eq, key_eq]
    exact congrArg _ (fillRecord_same m data found id r).1
  fill_id m data found id r := (fillRecord_same m data found id r).2

end CategoryService

end Zapdos.Store
