/-
  Password reset — what `ResetPassAction` asks for before it replaces a passkey, and the `resetpass`
  endpoint of `LoginService`, which runs the action here or sends the request to the master.

  A request brings the old password or a one-time password.  Each of the two is compared only when
  the other is empty (`Passes`).

  THE CRUX.  The two comparisons together are a credential check unless both values are present:
  then neither is looked at, and the request passes without a credential (`BothWrong`).
-/
import Zapdos.Store.Privileges
import Zapdos.Store.RecordKinds

namespace Zapdos.Store.PasswordReset

open Zapdos.Lib Privileges

/-- The record with this name. -/
def stored (k : Kind) (db : DataDb) (name : Bytes) : Option UserDataT :=
  k.table.find db (encodeSecondaryKey k.ukey name)

/-- The request brings a valid credential for this record: its passkey, or its last one-time
    password if there is one. -/
def Credential (resp : ResetRespT) (data : UserDataT) : Prop :=
  (resp.oldpass ≠ [] ∧ resp.oldpass = data.passkey) ∨
    (resp.otp ≠ [] ∧ data.lastOtp ≠ [] ∧ resp.otp = data.lastOtp)

/-- The request brings a valid credential for the record it names. -/
def Valid (k : Kind) (db : DataDb) (resp : ResetRespT) : Prop :=
  ∃ data, stored k db resp.username = some data ∧ Credential resp data

/-- **A reset needs a credential**: a passkey changes only in the record the request names, and only
    on a valid credential; without one the request fails and no record changes. -/
structure Guarded (k : Kind) (resp : ResetRespT) (db db' : DataDb) (failed : Prop) : Prop where
  change : ∀ name, (stored k db' name).map UserDataT.passkey ≠
    (stored k db name).map UserDataT.passkey → name = resp.username ∧ Valid k db resp
  otherwise : ¬ Valid k db resp → failed ∧ db' = db

/-! ## The action -/

/-- `ResetPassAction` of one of the two services. -/
def resetPassAction : Kind → SharedTable → Nat → ResetRespT → CommitEnv →
    SharedTable × Except Exc Unit
  | .user => UserDataService.resetPassAction
  | .exter => ExterDataService.resetPassAction

theorem resetPassAction_eq (k : Kind) : resetPassAction k = resetPass k.table k.ukey := by
  cases k <;> rfl

/-- The record with the new password. -/
def renewed (currtime : Nat) (resp : ResetRespT) (old : UserDataT) : UserDataT :=
  { old with passkey := resp.newpass, updatedAt := currtime }

/-- What the action tests of a request and the record it names. -/
structure Passes (resp : ResetRespT) (old : UserDataT) : Prop where
  username : resp.username ≠ []
  newpass : resp.newpass ≠ []
  present : ¬ (resp.oldpass = [] ∧ resp.otp = [])
  oldpass : resp.otp = [] → old.passkey = resp.oldpass
  otp : resp.oldpass = [] → old.lastOtp = resp.otp
  notfound : old.notfound = false

/-- The tests make sure of a credential, except when both values are present and both are wrong. -/
theorem Passes.credential {resp : ResetRespT} {old : UserDataT} (h : Passes resp old) :
    Credential resp old ∨ (resp.oldpass ≠ [] ∧ resp.otp ≠ [] ∧ resp.oldpass ≠ old.passkey ∧
      resp.otp ≠ old.lastOtp) := by
  by_cases ho : resp.oldpass = []
  · -- only the one-time password is present, and it was compared
    have hotp : resp.otp ≠ [] := fun he => h.present ⟨ho, he⟩
    have he := h.otp ho
    exact Or.inl (Or.inr ⟨hotp, he ▸ hotp, he.symm⟩)
  · by_cases ht : resp.otp = []
    · exact Or.inl (Or.inl ⟨ho, (h.oldpass ht).symm⟩)
    · by_cases hp : resp.oldpass = old.passkey
      · exact Or.inl (Or.inl ⟨ho, hp⟩)
      · by_cases hl : resp.otp = old.lastOtp
        · exact Or.inl (Or.inr ⟨ht, hl ▸ ht, hl⟩)
        · exact Or.inr ⟨ho, ht, hp, hl⟩

theorem rows_eq_ok {k : Kind} {db : DataDb} (hok : StoreTable.TableOk k.table k.ukey db)
    {currtime : Nat} {resp : ResetRespT} {items : List TransItemT} :
    resetPassRows k.table k.ukey db currtime resp = .ok items ↔
      ∃ old, stored k db resp.username = some old ∧ Passes resp old ∧
        items = k.table.rows k.ukey ⟨true, renewed currtime resp old⟩ := by
  have hiff : resetPassRows k.table k.ukey db currtime resp = .ok items ↔
      resp.username ≠ [] ∧ resp.newpass ≠ [] ∧ ¬ (resp.oldpass = [] ∧ resp.otp = []) ∧
        ∃ old, stored k db resp.username = some old ∧
          (resp.otp = [] → old.passkey = resp.oldpass) ∧
          (resp.oldpass = [] → old.lastOtp = resp.otp) ∧ old.notfound = false ∧
          items = k.table.updateRows (renewed currtime resp old) := by
    cases k
    · exact resetPassRows_eq_ok StoreTable.userDataTable_singleKey hok
    · exact resetPassRows_eq_ok StoreTable.exterDataTable_singleKey hok
  rw [hiff]
  constructor
  · rintro ⟨h1, h2, h3, old, hold, h4, h5, h6, hitems⟩
    exact ⟨old, hold, ⟨h1, h2, h3, h4, h5, h6⟩, hitems⟩
  · rintro ⟨old, hold, ⟨h1, h2, h3, h4, h5, h6⟩, hitems⟩
    exact ⟨h1, h2, h3, old, hold, h4, h5, h6, hitems⟩

/-- The record with the new password replaces the stored one. -/
theorem renewed_fits {k : Kind} {db : DataDb} (hok : StoreTable.TableOk k.table k.ukey db)
    {name : Bytes} {old : UserDataT} (hold : stored k db name = some old) (currtime : Nat)
    (resp : ResetRespT) :
    StoreTable.Fits k.table k.ukey db ⟨true, renewed currtime resp old⟩ ∧
      k.table.getKey (renewed currtime resp old) k.ukey = encodeSecondaryKey k.ukey name := by
  obtain ⟨hk, -⟩ := (k.singleKey.find_eq_some hok rfl).mp hold
  have hkey : k.table.getKey (renewed currtime resp old) k.ukey =
      encodeSecondaryKey k.ukey name := by
    rw [← hk]
    cases k <;> rfl
  refine ⟨⟨old, ?_, ?_⟩, hkey⟩
  · rw [hkey]
    exact hold
  · cases k <;> rfl

/-- What the table finds once a new password is written. -/
theorem stored_write {k : Kind} {db : DataDb} (hok : StoreTable.TableOk k.table k.ukey db)
    {name : Bytes} {old : UserDataT} (hold : stored k db name = some old) (currtime : Nat)
    (resp : ResetRespT) (name' : Bytes) :
    stored k (db.write (dataBatch (k.table.rows k.ukey ⟨true, renewed currtime resp old⟩))) name' =
      if name' = name then some (renewed currtime resp old) else stored k db name' := by
  obtain ⟨hfit, hkey⟩ := renewed_fits hok hold currtime resp
  rw [stored, k.singleKey.find_write hok hfit rfl, hkey]
  simp only [encodeSecondaryKey, Key.secondary.injEq, List.cons.injEq, KeyPart.text.injEq,
    and_true, true_and]
  rfl

/-- Writing a stored record again changes nothing. -/
theorem write_stored {k : Kind} {db : DataDb} (hok : StoreTable.TableOk k.table k.ukey db)
    {name : Bytes} {old : UserDataT} (hold : stored k db name = some old) :
    db.write (dataBatch (k.table.rows k.ukey ⟨true, old⟩)) = db := by
  obtain ⟨-, -, hget, -⟩ := (k.singleKey.find_eq_some hok rfl).mp hold
  refine OrdMap.ext fun key => ?_
  rw [StoreTable.rows, if_pos rfl, StoreTable.get_write_updateRows]
  split
  · rename_i hkey
    rw [hkey, hget]
  · rfl

/-- No index takes rows of these tables, so none can refuse them. -/
theorem cacheTakes_rows (k : Kind) {noXapian : Bool} (r : UserDataT) (env : CommitEnv) :
    CacheTakes noXapian env (k.table.rows k.ukey ⟨true, r⟩) := by
  refine cacheTakes_of_not_indexed env fun i hi => ?_
  rw [StoreTable.rows, if_pos rfl, StoreTable.updateRows, List.mem_singleton] at hi
  subst hi
  cases k
  · exact indexedItem_of_keytype (by decide : kUserdata ≠ kLocaldata) (by decide : kUserdata ≠ kWikidata)
  · exact indexedItem_of_keytype (by decide : kExterdata ≠ kLocaldata)
      (by decide : kExterdata ≠ kWikidata)

/-- **Everything `ResetPassAction` can do**: fail and leave the records, or replace the passkey of a
    record that passes its tests. -/
theorem resetPassAction_cases {k : Kind} {st : SharedTable}
    (hok : StoreTable.TableOk k.table k.ukey st.maindb) (currtime : Nat) (resp : ResetRespT)
    (env : CommitEnv) :
    ((∃ e, (resetPassAction k st currtime resp env).2 = .error e) ∧
        (resetPassAction k st currtime resp env).1.maindb = st.maindb ∧
        ¬ (st.isMaster = true ∧ env.logOk = true ∧ env.dataOk = true ∧
          ∃ old, stored k st.maindb resp.username = some old ∧ Passes resp old)) ∨
      ((resetPassAction k st currtime resp env).2 = .ok () ∧ st.isMaster = true ∧
        env.logOk = true ∧ env.dataOk = true ∧
        ∃ old, stored k st.maindb resp.username = some old ∧ Passes resp old ∧
          (resetPassAction k st currtime resp env).1.maindb =
            st.maindb.write (dataBatch (k.table.rows k.ukey ⟨true, renewed currtime resp old⟩))) := by
  rw [resetPassAction_eq, resetPass]
  cases hm : st.isMaster with
  | false => exact Or.inl ⟨⟨_, rfl⟩, rfl, fun h => Bool.false_ne_true h.1⟩
  | true =>
    cases hrows : resetPassRows k.table k.ukey st.maindb currtime resp with
    | error e =>
      refine Or.inl ⟨⟨e, rfl⟩, rfl, ?_⟩
      rintro ⟨-, -, -, old, hold, hpass⟩
      rw [(rows_eq_ok hok).mpr ⟨old, hold, hpass, rfl⟩] at hrows
      cases hrows
    | ok items =>
      obtain ⟨old, hold, hpass, rfl⟩ := (rows_eq_ok hok).mp hrows
      have hcommit := commit_result hm currtime
        { item := k.table.rows k.ukey ⟨true, renewed currtime resp old⟩, updater := defaultAdmin }
        true env
      simp only [Bool.not_true, Bool.false_eq_true, if_false]
      generalize (commit st currtime
        { item := k.table.rows k.ukey ⟨true, renewed currtime resp old⟩, updater := defaultAdmin }
        true env).result = res at hcommit
      cases hcommit with
      | empty hitem => cases hitem
      | noLog hitem henv hdb =>
        exact Or.inl ⟨⟨_, rfl⟩, hdb, fun h => by simp [henv] at h⟩
      | noData hitem henv hdb =>
        exact Or.inl ⟨⟨_, rfl⟩, hdb, fun h => by simp [henv] at h⟩
      | thrown hitem henv hno => exact absurd (cacheTakes_rows k _ env) hno
      | done hitem henv htakes hdb =>
        exact Or.inr ⟨rfl, trivial, henv.1, henv.2, old, hold, hpass, hdb⟩

/-- **The gap**: both values are present, neither is right, and nothing else stands in the way. -/
def BothWrong (k : Kind) (st : SharedTable) (resp : ResetRespT) (env : CommitEnv) : Prop :=
  st.isMaster = true ∧ env.logOk = true ∧ env.dataOk = true ∧
    resp.username ≠ [] ∧ resp.newpass ≠ [] ∧ resp.oldpass ≠ [] ∧ resp.otp ≠ [] ∧
    ∃ old, stored k st.maindb resp.username = some old ∧ old.notfound = false ∧
      resp.oldpass ≠ old.passkey ∧ resp.otp ≠ old.lastOtp

theorem BothWrong.not_valid {k : Kind} {st : SharedTable} {resp : ResetRespT} {env : CommitEnv}
    (h : BothWrong k st resp env) : ¬ Valid k st.maindb resp := by
  obtain ⟨-, -, -, -, -, -, -, old, hold, -, hp, hl⟩ := h
  rintro ⟨data, hdata, hcred⟩
  rw [hold, Option.some.injEq] at hdata
  subst hdata
  rcases hcred with ⟨-, he⟩ | ⟨-, -, he⟩
  · exact hp he
  · exact hl he

theorem BothWrong.passes {k : Kind} {st : SharedTable} {resp : ResetRespT} {env : CommitEnv}
    (h : BothWrong k st resp env) :
    ∃ old, stored k st.maindb resp.username = some old ∧ Passes resp old := by
  obtain ⟨-, -, -, hname, hnew, ho, ht, old, hold, hnf, -, -⟩ := h
  exact ⟨old, hold, hname, hnew, fun hb => ho hb.1, fun he => absurd he ht,
    fun he => absurd he ho, hnf⟩

theorem Guarded.mono {k : Kind} {resp : ResetRespT} {db db' : DataDb} {failed failed' : Prop}
    (h : Guarded k resp db db' failed) (hf : failed → failed') : Guarded k resp db db' failed' :=
  ⟨h.change, fun hno => ⟨hf (h.otherwise hno).1, (h.otherwise hno).2⟩⟩

/-- Nothing written, and an exception: the request is guarded. -/
theorem guarded_of_same {k : Kind} {resp : ResetRespT} {db db' : DataDb} {failed : Prop}
    (hf : failed) (hdb : db' = db) : Guarded k resp db db' failed :=
  ⟨fun name hne => absurd (by rw [hdb]) hne, fun _ => ⟨hf, hdb⟩⟩

/-- A new password that was written on a valid credential. -/
theorem guarded_of_valid {k : Kind} {resp : ResetRespT} {db : DataDb} {failed : Prop}
    (hok : StoreTable.TableOk k.table k.ukey db) {old : UserDataT}
    (hold : stored k db resp.username = some old) (hcred : Credential resp old) (currtime : Nat) :
    Guarded k resp db
      (db.write (dataBatch (k.table.rows k.ukey ⟨true, renewed currtime resp old⟩))) failed := by
  have hvalid : Valid k db resp := ⟨old, hold, hcred⟩
  refine ⟨fun name hne => ⟨?_, hvalid⟩, fun hno => absurd hvalid hno⟩
  by_contra hother
  rw [stored_write hok hold, if_neg hother] at hne
  exact hne rfl

/-- The action is guarded exactly outside the gap. -/
theorem resetPassAction_guarded_iff {k : Kind} {st : SharedTable}
    (hok : StoreTable.TableOk k.table k.ukey st.maindb) (currtime : Nat) (resp : ResetRespT)
    (env : CommitEnv) :
    Guarded k resp st.maindb (resetPassAction k st currtime resp env).1.maindb
        (∃ e, (resetPassAction k st currtime resp env).2 = .error e) ↔
      ¬ BothWrong k st resp env := by
  rcases resetPassAction_cases hok currtime resp env with
    ⟨hfail, hdb, hno⟩ | ⟨hres, hm, hlog, hdata, old, hold, hpass, hdb⟩
  · refine iff_of_true (guarded_of_same hfail hdb) fun hgap => hno ?_
    exact ⟨hgap.1, hgap.2.1, hgap.2.2.1, hgap.passes⟩
  · rw [hdb, hres]
    constructor
    · intro hguard hgap
      obtain ⟨⟨e, he⟩, -⟩ := hguard.otherwise hgap.not_valid
      cases he
    · intro hgap
      rcases hpass.credential with hcred | ⟨ho, ht, hp, hl⟩
      · exact guarded_of_valid hok hold hcred currtime
      · exact absurd ⟨hm, hlog, hdata, hpass.username, hpass.newpass, ho, ht, old, hold,
          hpass.notfound, hp, hl⟩ hgap

end Zapdos.Store.PasswordReset

/-! ## Stores in order -/

namespace Zapdos.Store

open Zapdos.Lib Privileges PasswordReset

theorem StoreOk.table {db : DataDb} (hok : StoreOk db) (k : Kind) :
    StoreTable.TableOk k.table k.ukey db := by
  cases k
  · exact hok .user
  · exact hok .exter

/-- A new password keeps all tables in order. -/
theorem StoreOk.write_renewed {db : DataDb} (hok : StoreOk db) {k : Kind} {name : Bytes}
    {old : UserDataT} (hold : stored k db name = some old) (currtime : Nat) (resp : ResetRespT) :
    StoreOk (db.write (dataBatch (k.table.rows k.ukey ⟨true, renewed currtime resp old⟩))) := by
  have hfit := (renewed_fits (StoreOk.table hok k) hold currtime resp).1
  have hone : k.table.rows k.ukey ⟨true, renewed currtime resp old⟩ =
      [(⟨true, renewed currtime resp old⟩ : Change UserDataT)].flatMap (k.table.rows k.ukey) :=
    (List.flatMap_singleton _ _).symm
  rw [hone]
  cases k
  · exact @StoreOk.write db hok .user [⟨true, renewed currtime resp old⟩]
      (List.forall_mem_singleton.mpr hfit) (List.pairwise_singleton _ _)
  · exact @StoreOk.write db hok .exter [⟨true, renewed currtime resp old⟩]
      (List.forall_mem_singleton.mpr hfit) (List.pairwise_singleton _ _)

/-- A reset takes a store in order to a store in order. -/
def OrderedStore.resetPass (s : OrderedStore) (k : Kind) (currtime : Nat) (resp : ResetRespT)
    (env : CommitEnv) : OrderedStore where
  st := (resetPassAction k s.st currtime resp env).1
  tables := by
    rcases resetPassAction_cases (StoreOk.table s.tables k) currtime resp env with
      ⟨-, hdb, -⟩ | ⟨-, -, -, -, old, hold, -, hdb⟩
    · rw [hdb]
      exact s.tables
    · rw [hdb]
      exact StoreOk.write_renewed s.tables hold currtime resp
  log := by
    rw [resetPassAction_eq, Zapdos.Store.resetPass]
    cases hm : s.st.isMaster with
    | false => exact s.log
    | true =>
      cases hrows : resetPassRows k.table k.ukey s.st.maindb currtime resp with
      | error e => exact s.log
      | ok items =>
        exact (commit_result hm currtime { item := items, updater := defaultAdmin } true env).log
          s.log

end Zapdos.Store
