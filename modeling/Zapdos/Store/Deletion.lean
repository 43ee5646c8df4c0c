/-
  What a request makes of a stored record, and what a deletion makes of it.

  The services delete in two ways.  Tags and categories set the deleted flag of the stored record.
  Users, exters and items take three flags from the payload, where an absent flag is `false`: a payload
  with nothing but the name of a record marks it as not deleted, and unlocks it.
-/
import Zapdos.Store.BatchRequest

namespace Zapdos.Store

open Zapdos.Lib

/-! ## What a request makes of a stored record -/

/-- A user is what `PrepareData` makes of the stored one, with a new time. -/
theorem UserDataService.made_found {db : DataDb} (hok : service.TableOk db) {m : Manage}
    {p old : UserDataT} {penv : PrepEnv} {c : Change UserDataT}
    (hc : service.Made m db (p, penv) c) (hold : service.stored db p = some old) :
    ∃ out, prepareFound penv m.updater p m.action m.fields m.merge true old = .ok (true, out) ∧
      c.record = { out with updatedAt := m.currtime } := by
  obtain ⟨cdata, id, hp, hfill⟩ := service_lawful.made_found hok hc hold
  have hp' : prepareData penv db m.updater p m.action m.fields m.merge = .ok (true, cdata) := hp
  obtain ⟨-, -, hfound⟩ := (prepareData_eq_ok hok).mp hp'
  rw [hold] at hfound
  exact ⟨cdata, hfound, hfill⟩

/-- And so is an exter. -/
theorem ExterDataService.made_found {db : DataDb} (hok : service.TableOk db) {m : Manage}
    {p old : ExterDataT} {penv : PrepEnv} {c : Change ExterDataT}
    (hc : service.Made m db (p, penv) c) (hold : service.stored db p = some old) :
    ∃ out, prepareFound penv m.updater p m.action m.fields m.merge true old = .ok (true, out) ∧
      c.record = { out with updatedAt := m.currtime } := by
  obtain ⟨cdata, id, hp, hfill⟩ := service_lawful.made_found hok hc hold
  have hp' : prepareData penv db m.updater p m.action m.fields m.merge = .ok (true, cdata) := hp
  obtain ⟨-, -, hfound⟩ := (prepareData_eq_ok hok).mp hp'
  rw [hold] at hfound
  exact ⟨cdata, hfound, hfill⟩

/-- And an item. -/
theorem ItemDataService.made_found {pkey ukey : KeyTypeE}
    (hlaw : (service (itemTable pkey ukey) ukey).Lawful) {db : DataDb}
    (hok : (service (itemTable pkey ukey) ukey).TableOk db) {m : Manage} {p old : ItemDataT}
    {penv : PrepEnv} {c : Change ItemDataT}
    (hc : (service (itemTable pkey ukey) ukey).Made m db (p, penv) c)
    (hold : (service (itemTable pkey ukey) ukey).stored db p = some old) :
    ∃ out, prepareFound penv db pkey m.updater p m.action m.fields m.merge true old =
        .ok (true, out) ∧ c.record = { out with updatedAt := m.currtime } := by
  obtain ⟨cdata, id, hp, hfill⟩ := hlaw.made_found hok hc hold
  have hp' : prepareData (itemTable pkey ukey) ukey penv db m.updater p m.action m.fields m.merge =
      .ok (true, cdata) := hp
  have hkey : ∀ r, (itemTable pkey ukey).getKey r ukey = encodeSecondaryKey ukey r.uniqueId := by
    intro r
    exact if_pos rfl
  have hst : (itemTable pkey ukey).find db ((itemTable pkey ukey).getKey p ukey) = some old := hold
  obtain ⟨-, -, hfound⟩ := (prepareData_eq_ok hlaw.single hok hkey).mp hp'
  simp only [Service.stored, Service.key, service, hst] at hfound
  exact ⟨cdata, hfound, hfill⟩

/-- A tag is filled in from the stored one. -/
theorem TagDataService.made_found {db : DataDb} (hok : service.TableOk db) {m : Manage}
    {p old : TagDataT} {penv : PrepEnv} {c : Change TagDataT}
    (hc : service.Made m db (p, penv) c) (hold : service.stored db p = some old) :
    c.record = fillRecord m p true 0 old := by
  obtain ⟨cdata, id, hp, hfill⟩ := service_lawful.made_found hok hc hold
  have hp' : prepare db m p = .ok (true, cdata) := hp
  rw [prepare_eq hok] at hp'
  obtain ⟨-, hcdata⟩ := prepareFound_same hp'
  rw [hold] at hcdata
  rw [hfill, hcdata]
  rfl

/-- And so is a category. -/
theorem CategoryService.made_found {db : DataDb} (hok : service.TableOk db) {m : Manage}
    {p old : CategoryT} {penv : PrepEnv} {c : Change CategoryT}
    (hc : service.Made m db (p, penv) c) (hold : service.stored db p = some old) :
    c.record = fillRecord m p true 0 old := by
  obtain ⟨cdata, id, hp, hfill⟩ := service_lawful.made_found hok hc hold
  have hp' : prepare db m p = .ok (true, cdata) := hp
  rw [prepare_eq hok] at hp'
  obtain ⟨-, hcdata⟩ := prepareFound_same hp'
  rw [hold] at hcdata
  rw [hfill, hcdata]
  rfl

/-! ## Deletion -/

namespace RecKind

/-- The record a deletion should leave: the old one, deleted, with a new time. -/
def Deleted : (k : RecKind) → k.Rec → k.Rec → Prop
  | user, (old : UserDataT), (new : UserDataT) =>
    new = { old with isDeleted := true, updatedAt := new.updatedAt }
  | exter, (old : UserDataT), (new : UserDataT) =>
    new = { old with isDeleted := true, updatedAt := new.updatedAt }
  | localdata, (old : ItemDataT), (new : ItemDataT) =>
    new = { old with isDeleted := true, updatedAt := new.updatedAt }
  | wikidata, (old : ItemDataT), (new : ItemDataT) =>
    new = { old with isDeleted := true, updatedAt := new.updatedAt }
  | tag, (old : TagDataT), (new : TagDataT) =>
    new = { old with isDeleted := true, updatedAt := new.updatedAt }
  | category, (old : CategoryT), (new : CategoryT) =>
    new = { old with isDeleted := true, updatedAt := new.updatedAt }

/-- The payload of a deletion repeats the flags that the record has, and has the deleted flag itself;
    for tags and categories it does not matter what the payload has. -/
def RepeatsFlags : (k : RecKind) → k.Rec → k.Rec → Prop
  | user, (p : UserDataT), (old : UserDataT) =>
    p.isDeleted = true ∧ p.expired = old.expired ∧ p.locked = old.locked
  | exter, (p : UserDataT), (old : UserDataT) =>
    p.isDeleted = true ∧ p.expired = old.expired ∧ p.locked = old.locked
  | localdata, (p : ItemDataT), (old : ItemDataT) =>
    p.isDeleted = true ∧ p.expired = old.expired ∧ p.locked = old.locked
  | wikidata, (p : ItemDataT), (old : ItemDataT) =>
    p.isDeleted = true ∧ p.expired = old.expired ∧ p.locked = old.locked
  | tag, _, _ => True
  | category, _, _ => True

end RecKind

/-- Flags taken over from a payload. -/
theorem UserDataService.deleted_iff (p old : UserDataT) (t : Nat) :
    { deleted p old with updatedAt := t } = { old with isDeleted := true, updatedAt := t } ↔
      p.isDeleted = true ∧ p.expired = old.expired ∧ p.locked = old.locked := by
  simp only [deleted, UserDataT.mk.injEq, true_and, and_true]
  exact ⟨fun h => ⟨h.2.2, h.1, h.2.1⟩, fun h => ⟨h.2.1, h.2.2, h.1⟩⟩

theorem ItemDataService.deleted_iff (p old : ItemDataT) (t : Nat) :
    { deleted p old with updatedAt := t } = { old with isDeleted := true, updatedAt := t } ↔
      p.isDeleted = true ∧ p.expired = old.expired ∧ p.locked = old.locked := by
  simp only [deleted, ItemDataT.mk.injEq, true_and, and_true]
  exact ⟨fun h => ⟨h.2.2, h.1, h.2.1⟩, fun h => ⟨h.2.1, h.2.2, h.1⟩⟩

/-- A prepared deletion has taken over the flags. -/
theorem UserDataService.prepareFound_delete {env : PrepEnv} {updater p old out : UserDataT}
    {fields : Nat} {merge : Bool}
    (h : prepareFound env updater p uactionDelete fields merge true old = .ok (true, out)) :
    out = deleted p old := by
  obtain ⟨-, -, -, ⟨-, hout⟩ | ⟨hne, -⟩⟩ := prepareFound_eq_ok.mp h
  · exact hout
  · exact absurd rfl hne

theorem ExterDataService.prepareFound_delete {env : PrepEnv} {updater p old out : ExterDataT}
    {fields : Nat} {merge : Bool}
    (h : prepareFound env updater p uactionDelete fields merge true old = .ok (true, out)) :
    out = UserDataService.deleted p old := by
  obtain ⟨-, -, ⟨-, hout⟩ | ⟨hne, -⟩⟩ := prepareFound_eq_ok.mp h
  · exact hout
  · exact absurd rfl hne

theorem ItemDataService.prepareFound_delete {env : PrepEnv} {db : DataDb} {keytype : KeyTypeE}
    {updater : ExterDataT} {p old out : ItemDataT} {fields : Nat} {merge : Bool}
    (h : prepareFound env db keytype updater p uactionDelete fields merge true old =
      .ok (true, out)) : out = deleted p old := by
  obtain ⟨-, -, ⟨-, hout⟩ | ⟨hne, -⟩⟩ := prepareFound_eq_ok.mp h
  · exact hout
  · exact absurd rfl hne

/-- **One payload of a deletion**, by kinds. -/
theorem RecKind.deleted_iff {k : RecKind} {db : DataDb} (hok : StoreOk db) {m : Manage}
    (hact : m.action = uactionDelete) {p old : k.Rec} {penv : PrepEnv} {c : Change k.Rec}
    (hc : k.service.Made m db (p, penv) c) (hold : k.service.stored db p = some old) :
    k.Deleted old c.record ↔ k.RepeatsFlags p old := by
  cases k with
  | user =>
    obtain ⟨out, hout, hrec⟩ := UserDataService.made_found (hok .user) hc hold
    rw [hact] at hout
    rw [Deleted, RepeatsFlags, hrec, UserDataService.prepareFound_delete hout]
    exact UserDataService.deleted_iff p old m.currtime
  | exter =>
    obtain ⟨out, hout, hrec⟩ := ExterDataService.made_found (hok .exter) hc hold
    rw [hact] at hout
    rw [Deleted, RepeatsFlags, hrec, ExterDataService.prepareFound_delete hout]
    exact UserDataService.deleted_iff p old m.currtime
  | localdata =>
    obtain ⟨out, hout, hrec⟩ := ItemDataService.made_found ItemDataService.localService_lawful
      (hok .localdata) hc hold
    rw [hact] at hout
    rw [Deleted, RepeatsFlags, hrec, ItemDataService.prepareFound_delete hout]
    exact ItemDataService.deleted_iff p old m.currtime
  | wikidata =>
    obtain ⟨out, hout, hrec⟩ := ItemDataService.made_found ItemDataService.wikiService_lawful
      (hok .wikidata) hc hold
    rw [hact] at hout
    rw [Deleted, RepeatsFlags, hrec, ItemDataService.prepareFound_delete hout]
    exact ItemDataService.deleted_iff p old m.currtime
  | tag =>
    have hrec := TagDataService.made_found (hok .tag) hc hold
    rw [Deleted, RepeatsFlags, hrec, TagDataService.fillRecord]
    simp [hact]
  | category =>
    have hrec := CategoryService.made_found (hok .category) hc hold
    rw [Deleted, RepeatsFlags, hrec, CategoryService.fillRecord]
    simp [hact]

/-- **Exactly these deletions delete.**  After a successful delete request, a record that one of its
    payloads names is the old one marked as deleted if and only if the payload repeats the flags. -/
theorem delete_iff (k : RecKind) (s : OrderedStore) (env : ActionEnv) (resp : RespT k.Rec)
    (hact : resp.action = .wDelete) {out : StatusT × List k.Rec}
    (hres : (k.manageDataAction env s.st resp).result = .ok out) {p old : k.Rec}
    (hp : p ∈ k.head.payloadsOf resp) (hold : k.service.stored s.st.maindb p = some old) :
    (∃ new, k.service.stored (k.manageDataAction env s.st resp).table.maindb p = some new ∧
      k.Deleted old new) ↔ k.RepeatsFlags p old := by
  obtain ⟨action, merge, dbcache, updater, penv, c, hfilter, -, hc, -, hstored⟩ :=
    RecKind.written_of_ok s.tables hres hp
  rw [hact] at hfilter
  cases hfilter
  rw [hstored, ← RecKind.deleted_iff s.tables rfl hc hold]
  constructor
  · rintro ⟨new, hnew, hdel⟩
    cases hnew
    exact hdel
  · intro hdel
    exact ⟨c.record, rfl, hdel⟩

/-- A store with a user. -/
def annStore : OrderedStore :=
  (OrderedStore.withExter desk).manageDataAction (k := .user) deskEnv (createUsers ["ann"])

/-- Its deletion. -/
def deleteAnn (ann : UserDataT) : RespT UserDataT where
  username := str "desk"
  sessionkey := str "k"
  action := .wDelete
  keytype := kExterdata
  payload := ann

/-- A delete request with nothing but the name of a user succeeds, and the user is not deleted. -/
theorem delete_keeps_user :
    ¬ ∀ (k : RecKind) (s : OrderedStore) (env : ActionEnv) (resp : RespT k.Rec),
      resp.action = .wDelete → ∀ out, (k.manageDataAction env s.st resp).result = .ok out →
      ∀ p ∈ k.head.payloadsOf resp, ∀ old, k.service.stored s.st.maindb p = some old →
      ∃ new, k.service.stored (k.manageDataAction env s.st resp).table.maindb p = some new ∧
        k.Deleted old new := by
  intro hall
  have hok : (RecKind.user.manageDataAction deskEnv annStore.st
      (deleteAnn { name := str "ann" })).result.isOk = true := by decide
  have hflag : ((RecKind.user.service.stored (RecKind.user.manageDataAction deskEnv annStore.st
      (deleteAnn { name := str "ann" })).table.maindb { name := str "ann" }).map
        UserDataT.isDeleted) = some false := by decide
  have hold : (RecKind.user.service.stored annStore.st.maindb { name := str "ann" }).isSome =
      true := by decide
  obtain ⟨out, hout⟩ := exists_of_isOk hok
  obtain ⟨old, hold⟩ := Option.isSome_iff_exists.mp hold
  obtain ⟨new, hnew, hdel⟩ := hall .user annStore deskEnv (deleteAnn { name := str "ann" }) rfl out
    hout { name := str "ann" } (List.mem_singleton_self _) old hold
  have htrue : new.isDeleted = true := congrArg UserDataT.isDeleted hdel
  rw [hnew] at hflag
  have hfalse : new.isDeleted = false := Option.some.inj hflag
  rw [htrue] at hfalse
  cases hfalse

/-- With the deleted flag in the payload the user is deleted. -/
theorem delete_iff_ann :
    ∃ old new, RecKind.user.service.stored annStore.st.maindb { name := str "ann" } = some old ∧
      RecKind.user.service.stored (RecKind.user.manageDataAction deskEnv annStore.st
        (deleteAnn { name := str "ann", isDeleted := true })).table.maindb
        { name := str "ann", isDeleted := true } = some new ∧ RecKind.user.Deleted old new := by
  have hok : (RecKind.user.manageDataAction deskEnv annStore.st
      (deleteAnn { name := str "ann", isDeleted := true })).result.isOk = true := by decide
  have hstored : (RecKind.user.service.stored annStore.st.maindb
      { name := str "ann", isDeleted := true }).map (fun r => (r.expired, r.locked)) =
        some (false, false) := by decide
  obtain ⟨out, hout⟩ := exists_of_isOk hok
  obtain ⟨old, hold, hflags⟩ := Option.map_eq_some_iff.mp hstored
  obtain ⟨hexp, hlock⟩ := Prod.mk.inj hflags
  obtain ⟨new, hnew, hdel⟩ := (delete_iff .user annStore deskEnv
    (deleteAnn { name := str "ann", isDeleted := true }) rfl hout (List.mem_singleton_self _)
    hold).mpr ⟨rfl, hexp.symm, hlock.symm⟩
  exact ⟨old, new, hold, hnew, hdel⟩

end Zapdos.Store
