/-
  Deleted accounts — what the flags `is_deleted` and `expired` do to sessions.

  `GetSession` compares the passkey and `CheckSession` what the session key decodes to; `Pack` keeps
  both flags in the cache, and neither of the two looks at them.  So a deletion shuts out only accounts
  that are shut out anyway: those that never got a passkey, and those whose signing key
  `CryptoTraits::Create` refuses (`Open`).

  Runs are of whole requests: writes of all kinds, password resets, logins and session checks.  The
  block cipher and `ParseFromString` are parameters, as for session keys.

  THE CRUX.  A session key can only be issued to an account with a passkey, and no request takes a
  passkey away again (`Kept.passkey`).  So nothing has to be known of the keys that were issued before
  a deletion: an account without passkey has none.
-/
import Zapdos.Crypto.SessionLife
import Zapdos.Lib.Runs
import Zapdos.Store.Access
import Zapdos.Store.CredCache

namespace Zapdos.Store.DeletedAccounts

open Zapdos.Lib Zapdos.Crypto Privileges PasswordReset

/-! ## The machine -/

/-- A node, with the session keys it has issued: the kind and name of the account and the key. -/
structure State where
  store : CachedStore
  issued : List (Kind × Bytes × Bytes)

/-- The record of an account. -/
def State.account (s : State) (k : Kind) (name : Bytes) : Option UserDataT :=
  stored k s.store.st.maindb name

/-- A request, with what the outside answers. -/
inductive Request
  | manage (rk : RecKind) (env : ActionEnv) (resp : RespT rk.Rec)
  | resetPass (k : Kind) (currtime : Nat) (resp : ResetRespT) (env : CommitEnv)
  /-- `iv` is the initial vector that `Encode` draws -/
  | getSession (k : Kind) (iv : Block) (currtime : Nat) (username password : Bytes)
  | checkSession (k : Kind) (currtime : Nat) (data : UserDataT)

/-- A login only touches the cache, and keeps it sound. -/
theorem getSession_read (s : CachedStore) (k : Kind) (encode : Encode) (currtime : Nat)
    (username password : Bytes) :
    ∃ dbcache, (credGetSession k.get encode currtime s.st username password).1 =
        { s.st with dbcache := dbcache } ∧ CacheOk { s.st with dbcache := dbcache } := by
  obtain ⟨r', dbcache, hget, hc, -⟩ :=
    k.get_spec (s.tables.table k) s.cache { name := username }
  rw [credGetSession, hget]
  split
  · exact ⟨s.st.dbcache, rfl, s.cache⟩
  · split
    · exact ⟨s.st.dbcache, rfl, s.cache⟩
    · exact ⟨dbcache, rfl, hc⟩

section

variable (aes : Bytes → Equiv.Perm Block) (parse : Bytes → UserDataT)

/-- `GetSession` on a node: the key it issues goes to the record of issued keys. -/
def State.getSession (s : State) (k : Kind) (iv : Block) (currtime : Nat)
    (username password : Bytes) : State where
  store := s.store.read _ (getSession_read s.store k (encodeSession aes iv) currtime username password)
  issued :=
    match (credGetSession k.get (encodeSession aes iv) currtime s.store.st username password).2 with
    | .ok sessionkey => (k, username, sessionkey) :: s.issued
    | .error _ => s.issued

/-- A request runs to its end, successful or not. -/
def step (s : State) : Request → Option State
  | .manage _ env resp => some { s with store := s.store.manageDataAction env resp }
  | .resetPass k currtime resp env =>
    some { s with store := s.store.resetPassAction k currtime resp env }
  | .getSession k iv currtime username password =>
    some (s.getSession aes k iv currtime username password)
  | .checkSession k currtime data =>
    some { s with
      store := s.store.read _ (credCheckSession_cacheOk k (s.store.tables.table k) s.store.cache
        (decodeSession aes parse) currtime data) }

/-- The record is marked as deleted or as expired. -/
def Flagged (r : UserDataT) : Prop := r.isDeleted = true ∨ r.expired = true

/-- Runs start before any session is issued and any account is deleted. -/
def machine : Machine State Request where
  init s := s.issued = [] ∧
    ∀ k name r, s.account k name = some r → r.notfound = false ∧ ¬ Flagged r
  step := step aes parse

/-- **The account cannot act**: no login with its name and password succeeds, and no check of a session
    key that was issued to it. -/
def CannotAct (s : State) (k : Kind) (r : UserDataT) : Prop :=
  (∀ iv currtime, ∃ e,
    (credGetSession k.get (encodeSession aes iv) currtime s.store.st r.name r.passkey).2 =
      .error e) ∧
  ∀ data, data.name = r.name → (k, r.name, data.sessionkey) ∈ s.issued → ∀ currtime, ∃ e,
    (credCheckSession k.get (decodeSession aes parse) currtime s.store.st data).2 = .error e

/-- No deleted account can act. -/
def DeletedCannotAct (s : State) : Prop :=
  ∀ k name r, s.account k name = some r → Flagged r → CannotAct aes parse s k r

/-- A login is possible: the account has a name, a passkey, and a signing key that
    `CryptoTraits::Create` takes. -/
def Open (r : UserDataT) : Prop :=
  r.name ≠ [] ∧ r.passkey ≠ [] ∧ ∃ seckey, create r.signkey = .ok seckey

/-- **The condition on a request**: no account that it leaves deleted is written open. -/
def WritesShut (s : State) (req : Request) : Prop :=
  ∀ s', step aes parse s req = some s' → ∀ k name r, s'.account k name = some r → Flagged r →
    s.account k name ≠ some r → ¬ Open r

end

/-! ## What a request makes of an account -/

/-- What all requests keep of an account. -/
structure Kept (old new : Option UserDataT) : Prop where
  notfound : ∀ r', new = some r' → (∀ r, old = some r → r.notfound = false) → r'.notfound = false
  passkey : ∀ r, old = some r → r.passkey ≠ [] → ∃ r', new = some r' ∧ r'.passkey ≠ []

theorem Kept.refl (old : Option UserDataT) : Kept old old :=
  ⟨fun _ hr h => h _ hr, fun r hr hpass => ⟨r, hr, hpass⟩⟩

/-- A part of `PrepareData` that does not take a passkey away. -/
def KeepsPasskey (part : FieldPart UserDataT) : Prop :=
  ∀ data c c', part.set data c = .ok c' → c.passkey ≠ [] → c'.passkey ≠ []

theorem KeepsPasskey.ofOk {bit m : Nat} {set : UserDataT → UserDataT → UserDataT}
    (hset : ∀ data c, (set data c).passkey = c.passkey) :
    KeepsPasskey ⟨bit, m, fun data c => .ok (set data c)⟩ := by
  intro data c c' h hpass
  rw [← Except.ok.inj h, hset]
  exact hpass

theorem KeepsPasskey.ofBind {A : Type} {bit m : Nat} {ask : UserDataT → UserDataT → Except Exc A}
    {set : UserDataT → A → UserDataT} (hset : ∀ c a, (set c a).passkey = c.passkey) :
    KeepsPasskey ⟨bit, m, fun data c => do
      let a ← ask data c
      pure (set c a)⟩ := by
  intro data c c' h hpass
  obtain ⟨a, -, ha⟩ := bind_eq_ok.mp h
  rw [← Except.ok.inj ha, hset]
  exact hpass

/-- The part that sets it refuses a blank one. -/
theorem KeepsPasskey.passkey (bit m ecode : Nat) (merge : Bool) :
    KeepsPasskey ⟨bit, m, fun data cdata =>
      if data.passkey = [] then badData "Passkey is blank" ecode
      else .ok { cdata with passkey := handleString merge data.passkey cdata.passkey }⟩ := by
  intro data c c' h hpass
  simp only [badData] at h
  split at h
  · cases h
  · rename_i hnew
    rw [← Except.ok.inj h]
    show handleString merge data.passkey c.passkey ≠ []
    rw [handleString]
    split
    · exact hnew
    · exact hpass

theorem user_fieldParts_passkey (env : PrepEnv) (merge : Bool) :
    ∀ part ∈ UserDataService.fieldParts env merge, KeepsPasskey part := by
  simp only [UserDataService.fieldParts, List.forall_mem_cons, List.not_mem_nil, false_imp_iff,
    implies_true, and_true]
  exact ⟨.ofOk fun _ _ => rfl, .passkey _ _ _ _, .ofOk fun _ _ => rfl, .ofOk fun _ _ => rfl,
    .ofOk fun _ _ => rfl, .ofOk fun _ _ => rfl, .ofOk fun _ _ => rfl, .ofBind fun _ _ => rfl,
    .ofOk fun _ _ => rfl, .ofBind fun _ _ => rfl, .ofBind fun _ _ => rfl⟩

theorem exter_fieldParts_passkey (env : PrepEnv) (merge : Bool) :
    ∀ part ∈ ExterDataService.fieldParts env merge, KeepsPasskey part := by
  simp only [ExterDataService.fieldParts, List.forall_mem_cons, List.not_mem_nil, false_imp_iff,
    implies_true, and_true]
  exact ⟨.ofOk fun _ _ => rfl, .passkey _ _ _ _, .ofOk fun _ _ => rfl, .ofOk fun _ _ => rfl,
    .ofOk fun _ _ => rfl, .ofOk fun _ _ => rfl, .ofOk fun _ _ => rfl, .ofBind fun _ _ => rfl,
    .ofBind fun _ _ => rfl⟩

/-- The parts together. -/
theorem setFields_passkey {parts : List (FieldPart UserDataT)}
    (hparts : ∀ part ∈ parts, KeepsPasskey part) {fields perms : Nat} {data c c' : UserDataT}
    (h : setFields fields perms data parts c = .ok c') (hpass : c.passkey ≠ []) : c'.passkey ≠ [] :=
  setFields_keeps (P := fun c => UserDataT.passkey c ≠ [])
    (fun part hpart _ _ c c' hset hc => hparts part hpart data c c' hset hc) h hpass

theorem assigned_passkey (found : Bool) (action : Nat) (c : UserDataT) :
    (UserDataService.assigned found action c).passkey = c.passkey := by
  rw [UserDataService.assigned]
  split <;> rfl

/-- **`PrepareData` never takes a passkey away**, for users and for exters. -/
theorem prepare_passkey (k : Kind) {env : PrepEnv} {db : DataDb}
    (hok : StoreTable.TableOk k.table k.ukey db) {m : Manage} {data old out : UserDataT} {found : Bool}
    (hold : k.service.stored db data = some old) (hpass : old.passkey ≠ [])
    (h : k.service.prepare env db m data = .ok (found, out)) : out.passkey ≠ [] := by
  cases k with
  | user =>
    obtain ⟨-, -, hp⟩ := (UserDataService.prepareData_eq_ok hok).mp h
    rw [show UserDataService.service.stored db data = some old from hold] at hp
    obtain ⟨-, -, -, ⟨-, rfl⟩ | ⟨-, c, hc, hout⟩⟩ := UserDataService.prepareFound_eq_ok.mp hp
    · exact hpass
    · rw [hout, assigned_passkey]
      exact setFields_passkey (user_fieldParts_passkey env m.merge) hc hpass
  | exter =>
    obtain ⟨-, -, hp⟩ := (ExterDataService.prepareData_eq_ok hok).mp h
    rw [show ExterDataService.service.stored db data = some old from hold] at hp
    obtain ⟨-, -, ⟨-, rfl⟩ | ⟨-, c, hc, hout⟩⟩ := ExterDataService.prepareFound_eq_ok.mp hp
    · exact hpass
    · rw [hout, assigned_passkey]
      exact setFields_passkey (exter_fieldParts_passkey env m.merge) hc hpass

/-- The record that a payload leads to. -/
theorem made_passkey (k : Kind) {db : DataDb} (hok : StoreTable.TableOk k.table k.ukey db)
    {m : Manage} {p : UserDataT × PrepEnv} {c : Change UserDataT} (h : k.service.Made m db p c)
    {old : UserDataT} (hold : k.service.stored db p.1 = some old) (hpass : old.passkey ≠ []) :
    c.record.passkey ≠ [] := by
  obtain ⟨-, cdata, id, hp, -, hfill⟩ := h
  rw [hfill]
  have hcdata := prepare_passkey k hok hold hpass hp
  have hfilled : (k.service.fill m p.1 c.found id cdata).passkey = cdata.passkey := by
    cases k <;> cases c.found <;> rfl
  rw [hfilled]
  exact hcdata

/-- **A write request keeps what there is of an account.** -/
theorem manage_kept {rk : RecKind} {st : SharedTable} (hok : StoreOk st.maindb) (env : ActionEnv)
    (resp : RespT rk.Rec) (k : Kind) (name : Bytes) :
    Kept (stored k st.maindb name) (stored k (rk.manageDataAction env st resp).table.maindb name) := by
  have hcases : stored k (rk.manageDataAction env st resp).table.maindb name =
        stored k st.maindb name ∨
      ∃ (c : Change UserDataT) (m : Manage) (p : UserDataT × PrepEnv),
        k.service.Made m st.maindb p c ∧ c.record.notfound = false ∧
        k.service.key c.record = encodeSecondaryKey k.ukey name ∧
        stored k (rk.manageDataAction env st resp).table.maindb name = some c.record := by
    cases k
    · exact @RecKind.find_manage .user rk st hok env resp (encodeSecondaryKey uUserdataName name) rfl
    · exact @RecKind.find_manage .exter rk st hok env resp (encodeSecondaryKey uExterdataName name) rfl
  rcases hcases with hsame | ⟨c, m, p, hmade, hflag, hkey, hnew⟩
  · rw [hsame]
    exact Kept.refl _
  · have hok' : k.service.TableOk st.maindb := by
      rw [Service.TableOk, k.service_table, k.service_ukey]
      exact hok.table k
    have hstored : k.service.stored st.maindb p.1 = stored k st.maindb name := by
      rw [Service.stored, ← k.service_lawful.made_key hok' hmade, hkey, k.service_table]
      rfl
    rw [hnew]
    refine ⟨fun r' hr' _ => Option.some.inj hr' ▸ hflag, fun r hr hpass => ⟨_, rfl, ?_⟩⟩
    exact made_passkey k (hok.table k) hmade (hstored.trans hr) hpass

/-- Records of the other kind stay. -/
theorem stored_write_other {k k' : Kind} (hk : k' ≠ k) (db : DataDb) (c : Change UserDataT)
    (name : Bytes) :
    stored k' (db.write (dataBatch (k.table.rows k.ukey c))) name = stored k' db name := by
  obtain ⟨h1, h2, h3, h4⟩ := Kind.disjoint hk
  refine StoreTable.SingleKey.find_congr rfl fun key hkey => ?_
  have hother : key.keytype ≠ k.table.primaryKey ∧ key.keytype ≠ k.ukey := by
    rcases hkey with hkey | hkey <;> rw [hkey]
    · exact ⟨h1, h2⟩
    · exact ⟨h3, h4⟩
  have hone := k.singleKey.get_write_batch_other db [c] hother.1 hother.2
  rwa [List.flatMap_singleton] at hone

/-- **A password reset keeps what there is of an account.** -/
theorem reset_kept (k : Kind) {st : SharedTable} (hok : StoreOk st.maindb) (currtime : Nat)
    (resp : ResetRespT) (env : CommitEnv) (k' : Kind) (name : Bytes) :
    Kept (stored k' st.maindb name)
      (stored k' (resetPassAction k st currtime resp env).1.maindb name) := by
  rcases resetPassAction_cases (hok.table k) currtime resp env with
    ⟨-, hdb, -⟩ | ⟨-, -, -, -, old, hold, hpass, hdb⟩
  · rw [hdb]
    exact Kept.refl _
  · rw [hdb]
    by_cases hk : k' = k
    · subst hk
      rw [stored_write (hok.table k') hold]
      split
      · rename_i hname
        rw [hname, hold]
        refine ⟨fun r' hr' h => ?_, fun r _ _ => ⟨_, rfl, hpass.newpass⟩⟩
        rw [← Option.some.inj hr']
        exact h old rfl
      · exact Kept.refl _
    · rw [stored_write_other hk]
      exact Kept.refl _

/-- A login changes no account. -/
theorem State.getSession_account (aes : Bytes → Equiv.Perm Block) (s : State) (k : Kind) (iv : Block)
    (currtime : Nat) (username password : Bytes) :
    (s.getSession aes k iv currtime username password).account = s.account := by
  obtain ⟨dbcache, hst, -⟩ :=
    getSession_read s.store k (encodeSession aes iv) currtime username password
  funext k' name
  simp only [State.account, State.getSession, CachedStore.read]
  rw [hst]

/-- **A request keeps what there is of an account.** -/
theorem step_kept (aes : Bytes → Equiv.Perm Block) (parse : Bytes → UserDataT) {s s' : State}
    {req : Request} (hs : step aes parse s req = some s') (k : Kind) (name : Bytes) :
    Kept (s.account k name) (s'.account k name) := by
  cases req with
  | manage rk env resp =>
    cases hs
    exact manage_kept s.store.tables env resp k name
  | resetPass k' currtime resp env =>
    cases hs
    exact reset_kept k' s.store.tables currtime resp env k name
  | getSession k' iv currtime username password =>
    cases hs
    rw [s.getSession_account]
    exact Kept.refl _
  | checkSession k' currtime data =>
    cases hs
    obtain ⟨dbcache, hst, -⟩ := credCheckSession_cacheOk k' (s.store.tables.table k') s.store.cache
      (decodeSession aes parse) currtime data
    simp only [State.account, CachedStore.read]
    rw [hst]
    exact Kept.refl _

/-! ## The two checks on a stored account -/

/-- **`GetSession` of a stored account** looks at its name, its passkey and its signing key. -/
theorem getSession_eq {s : CachedStore} {k : Kind} {name : Bytes} {r : UserDataT}
    (hr : stored k s.st.maindb name = some r) (hfound : r.notfound = false) (encode : Encode)
    (currtime : Nat) (password : Bytes) :
    (credGetSession k.get encode currtime s.st name password).2 =
      if name = [] then initialExc "username variable needed for exter session" mInvalidParam
      else if password = [] then
        initialExc "password variable needed for exter session" mInvalidParam
      else if r.passkey ≠ password then badData "No such user or Invalid passkey" mInvalidParam
      else encode r.signkey { name := r.name, updatedAt := currtime } := by
  obtain ⟨r', dbcache, hget, -, hr'⟩ := k.get_spec (s.tables.table k) s.cache { name := name }
  rw [credGetSession, hget]
  by_cases hname : name = []
  · rw [if_pos hname, if_pos hname]
  · rw [if_neg hname, if_neg hname]
    by_cases hpass : password = []
    · rw [if_pos hpass, if_pos hpass]
    · rw [if_neg hpass, if_neg hpass]
      rcases hr' with ⟨hnone, -⟩ | ⟨r₀, hr₀, hfetched⟩
      · rw [hr] at hnone
        cases hnone
      · have he : r = r₀ := Option.some.inj (hr.symm.trans hr₀)
        subst he
        obtain ⟨hn, hp, hsign⟩ := hfetched.same
        -- neither the record nor its copy has the flag
        have hnf : r'.notfound = false := by
          obtain ⟨kt, rfl | rfl⟩ := hfetched
          · exact hfound
          · cases k <;> rfl
        simp only [hnf, Bool.false_eq_true, false_or, hn, hp, hsign]

/-- A login that succeeds was made with the passkey of the stored record, which is not empty. -/
theorem getSession_ok {s : CachedStore} {k : Kind} {encode : Encode} {currtime : Nat}
    {username password sessionkey : Bytes}
    (h : (credGetSession k.get encode currtime s.st username password).2 = .ok sessionkey) :
    password ≠ [] ∧ ∃ r, stored k s.st.maindb username = some r ∧ r.passkey = password := by
  obtain ⟨r', dbcache, hget, -, hr⟩ :=
    k.get_spec (s.tables.table k) s.cache { name := username }
  rw [credGetSession, hget] at h
  split at h
  · cases h
  · split at h
    · cases h
    · rename_i hpass
      refine ⟨hpass, ?_⟩
      simp only at h
      split at h
      · cases h
      · rename_i hmatch
        rw [not_or, not_not] at hmatch
        rcases hr with ⟨-, hnf⟩ | ⟨r, hr, hf⟩
        · exact absurd hnf hmatch.1
        · exact ⟨r, hr, hf.same.2.1.symm.trans hmatch.2⟩

/-- A session check that succeeds was made with a signing key that `Create` takes. -/
theorem checkSession_create {aes : Bytes → Equiv.Perm Block} {parse : Bytes → UserDataT}
    {s : CachedStore} {k : Kind} {currtime : Nat} {data out : UserDataT}
    (h : (credCheckSession k.get (decodeSession aes parse) currtime s.st data).2 = .ok out) :
    data.name ≠ [] ∧ ∃ r, stored k s.st.maindb data.name = some r ∧
      ∃ seckey, create r.signkey = .ok seckey := by
  obtain ⟨r', dbcache, hget, -, hr⟩ := k.get_spec (s.tables.table k) s.cache data
  rw [credCheckSession, hget] at h
  split at h
  · cases h
  · rename_i hname
    refine ⟨hname, ?_⟩
    split at h
    · cases h
    · simp only at h
      split at h
      · cases h
      · rename_i hfound
        obtain ⟨xuser, hdec, -⟩ := bind_eq_ok.mp h
        obtain ⟨seckey, hcreate, -⟩ := bind_eq_ok.mp hdec
        rcases hr with ⟨-, hnf⟩ | ⟨r, hr, hf⟩
        · exact absurd hnf hfound
        · exact ⟨r, hr, seckey, hf.same.2.2 ▸ hcreate⟩

/-! ## Deleted accounts -/

/-- The invariant of all runs: no stored account has the flag `notfound`, and the accounts that session
    keys were issued to have passkeys. -/
structure Inv (s : State) : Prop where
  found : ∀ k name r, s.account k name = some r → r.notfound = false
  passkey : ∀ k name sessionkey, (k, name, sessionkey) ∈ s.issued →
    ∃ r, s.account k name = some r ∧ r.passkey ≠ []

section

variable {aes : Bytes → Equiv.Perm Block} {parse : Bytes → UserDataT}

/-- **A deleted account cannot act exactly if it is not open.** -/
theorem Inv.cannotAct_iff {s : State} (h : Inv s) {k : Kind} {name : Bytes} {r : UserDataT}
    (hr : s.account k name = some r) : CannotAct aes parse s k r ↔ ¬ Open r := by
  have hname : r.name = name := stored_name (s.store.tables.table k) hr
  have hr' : stored k s.store.st.maindb r.name = some r := hname.symm ▸ hr
  have hlogin := fun (iv : Block) (currtime : Nat) => getSession_eq hr' (h.found k name r hr)
    (encodeSession aes iv) currtime r.passkey
  constructor
  · rintro ⟨hget, -⟩ ⟨hne, hpass, seckey, hcreate⟩
    obtain ⟨e, he⟩ := hget 0 0
    rw [hlogin, if_neg hne, if_neg hpass, if_neg (not_not.mpr rfl), encodeSession, hcreate] at he
    cases he
  · intro hshut
    constructor
    · intro iv currtime
      rw [hlogin]
      by_cases hne : r.name = []
      · exact ⟨_, if_pos hne⟩
      · by_cases hpass : r.passkey = []
        · exact ⟨_, (if_neg hne).trans (if_pos hpass)⟩
        · cases hcreate : create r.signkey with
          | ok seckey => exact absurd ⟨hne, hpass, seckey, hcreate⟩ hshut
          | error e =>
            refine ⟨e, ?_⟩
            rw [if_neg hne, if_neg hpass, if_neg (not_not.mpr rfl), encodeSession, hcreate]
            rfl
    · intro data hdata hissued currtime
      cases hres : (credCheckSession k.get (decodeSession aes parse) currtime s.store.st data).2 with
      | error e => exact ⟨e, rfl⟩
      | ok out =>
        -- the check would need the signing key, and the session key came from a login
        obtain ⟨hne, r₁, hr₁, seckey, hcreate⟩ := checkSession_create hres
        obtain ⟨r₂, hr₂, hpass⟩ := h.passkey k r.name data.sessionkey hissued
        rw [hdata] at hne hr₁
        have he₁ : r₁ = r := Option.some.inj (hr₁.symm.trans hr')
        have he₂ : r₂ = r := Option.some.inj (hr₂.symm.trans hr')
        exact absurd ⟨hne, he₂ ▸ hpass, seckey, he₁ ▸ hcreate⟩ hshut

/-- **The step lemma** of the invariant: a key is issued on a passkey, and passkeys stay. -/
theorem Inv.step {s s' : State} (h : Inv s) {req : Request} (hs : step aes parse s req = some s') :
    Inv s' := by
  have hkept := fun k name => step_kept aes parse hs k name
  have hold : ∀ k name sessionkey, (k, name, sessionkey) ∈ s.issued →
      ∃ r, s'.account k name = some r ∧ r.passkey ≠ [] := by
    intro k name sessionkey hmem
    obtain ⟨r, hr, hpass⟩ := h.passkey k name sessionkey hmem
    exact (hkept k name).passkey r hr hpass
  refine ⟨fun k name r hr => (hkept k name).notfound r hr (h.found k name), ?_⟩
  cases req with
  | manage rk env resp =>
    cases hs
    exact hold
  | resetPass k currtime resp env =>
    cases hs
    exact hold
  | checkSession k currtime data =>
    cases hs
    exact hold
  | getSession k iv currtime username password =>
    cases hs
    intro k' name sessionkey hmem
    rw [State.getSession] at hmem
    simp only at hmem
    split at hmem
    · rename_i key hres
      rcases List.mem_cons.mp hmem with hnew | hmem
      · obtain ⟨hne, r, hr, hpass⟩ := getSession_ok hres
        obtain ⟨rfl, rfl, -⟩ : k' = k ∧ name = username ∧ sessionkey = key := by
          simpa using hnew
        exact (hkept k' name).passkey r hr (hpass.symm ▸ hne)
      · exact hold k' name sessionkey hmem
    · exact hold k' name sessionkey hmem

/-- No deleted account is open. -/
def AllShut (s : State) : Prop := ∀ k name r, s.account k name = some r → Flagged r → ¬ Open r

theorem Inv.deletedCannotAct_iff {s : State} (h : Inv s) :
    DeletedCannotAct aes parse s ↔ AllShut s :=
  forall₃_congr fun _ _ _ => forall₂_congr fun hr _ => h.cannotAct_iff hr

/-- A request that meets the condition leaves no deleted account open. -/
theorem AllShut.step {s s' : State} (h : AllShut s) {req : Request}
    (hreq : WritesShut aes parse s req) (hs : step aes parse s req = some s') : AllShut s' := by
  intro k name r hr hflag
  by_cases hsame : s.account k name = some r
  · exact h k name r hsame hflag
  · exact hreq s' hs k name r hr hflag hsame

end

theorem inv_init {aes : Bytes → Equiv.Perm Block} {parse : Bytes → UserDataT} {s : State}
    (h : (machine aes parse).init s) : Inv s ∧ AllShut s := by
  obtain ⟨hissued, haccounts⟩ := h
  refine ⟨⟨fun k name r hr => (haccounts k name r hr).1, fun k name sessionkey hmem => ?_⟩,
    fun k name r hr hflag => absurd hflag (haccounts k name r hr).2⟩
  rw [hissued] at hmem
  cases hmem

/-- **Deleted accounts cannot act** in runs whose requests write deleted accounts shut only; and after
    one more request they cannot act exactly if it meets the condition too. -/
theorem deleted_accounts_run (aes : Bytes → Equiv.Perm Block) (parse : Bytes → UserDataT) {s : State}
    (h : (machine aes parse).ReachWhere (WritesShut aes parse) s) :
    DeletedCannotAct aes parse s ∧
      ∀ req s', step aes parse s req = some s' →
        (DeletedCannotAct aes parse s' ↔ WritesShut aes parse s req) := by
  have hinv := h.invariant (I := fun s => Inv s ∧ AllShut s) (fun s hs => inv_init hs)
    fun s req s' hs hreq hstep => ⟨hs.1.step hstep, hs.2.step hreq hstep⟩
  refine ⟨hinv.1.deletedCannotAct_iff.mpr hinv.2, fun req s' hs => ?_⟩
  rw [(hinv.1.step hs).deletedCannotAct_iff]
  constructor
  · intro hshut s'' hs'' k name r hr hflag _
    rw [Option.some.inj (hs''.symm.trans hs)] at hr
    exact hshut k name r hr hflag
  · exact fun hreq => hinv.2.step hreq hs

/-! ## A deleted user -/

/-- A signing key, as `CryptoTraits::Create` makes them. -/
def goodKey : SignKeyT :=
  { algo := str "aes-128-cbc", seckey := str "MDEyMzQ1Njc4OWFiY2RlZg==" }

theorem create_goodKey : create goodKey = .ok (str "0123456789abcdef") :=
  (accountNamed (str "boss") (by decide)).created

/-- An admin. -/
def boss : ExterDataT :=
  { id := 1, name := str "boss", isAdmin := true, passkey := str "rule", signkey := goodKey }

/-- A user with a passkey and this signing key. -/
def bob (signkey : SignKeyT) : UserDataT :=
  { id := 2, name := str "bob", passkey := str "secret", signkey := signkey }

/-- The rows of both. -/
def bobRows (signkey : SignKeyT) : DataDb :=
  (OrdMap.empty.write (dataBatch (exterDataTable.rows uExterdataName ⟨false, boss⟩))).write
    (dataBatch (userDataTable.rows uUserdataName ⟨false, bob signkey⟩))

theorem bobRows_ok (signkey : SignKeyT) : StoreOk (bobRows signkey) := by
  have hboss : StoreOk (OrdMap.empty.write
      (dataBatch (exterDataTable.rows uExterdataName ⟨false, boss⟩))) :=
    @StoreOk.write _ storeOk_empty .exter [⟨false, boss⟩]
      (List.forall_mem_singleton.mpr ⟨by decide, rfl, rfl⟩) (List.pairwise_singleton _ _)
  exact @StoreOk.write _ hboss .user [⟨false, bob signkey⟩]
    (List.forall_mem_singleton.mpr ⟨(fun h => nomatch h), rfl, rfl⟩) (List.pairwise_singleton _ _)

/-- A master with both. -/
def bobNode (signkey : SignKeyT) : State where
  store :=
    { st := { isMaster := true, maindb := bobRows signkey }
      tables := bobRows_ok signkey
      log := fun _ _ => rfl
      cache := fun _ _ _ h => (nomatch h) }
  issued := []

/-- The admin's session key of 14 November 2023. -/
def bossKey (aes : Bytes → Equiv.Perm Block) : Bytes :=
  (encode aes (str "0123456789abcdef") 0 (serialize (str "boss") 1700000000000)).2

/-- The admin's request: bob is deleted. -/
def deletion (sessionkey : Bytes) : RespT UserDataT where
  username := str "boss"
  sessionkey := sessionkey
  action := .wDelete
  keytype := kExterdata
  payload := { name := str "bob", isDeleted := true }

def deleteBob (aes : Bytes → Equiv.Perm Block) : Request :=
  .manage .user { decode := decodeSession aes parseFields, sessionTime := 1700000000000 }
    (deletion (bossKey aes))

/-- What the request runs with. -/
def deleteBobManage : Manage :=
  ⟨{ boss with keytype := kExterdata }, uactionDelete, 0, false, 0⟩

/-- The records it leaves. -/
def deletedRows (signkey : SignKeyT) : DataDb :=
  (UserDataService.service.manage { isMaster := true, maindb := bobRows signkey } deleteBobManage
    [({ name := str "bob", isDeleted := true }, {})] {}).table.maindb

theorem bossKey_ne_nil (aes : Bytes → Equiv.Perm Block) : bossKey aes ≠ [] := by
  rw [bossKey, encode, if_neg (by decide)]
  exact key_ne_nil _ _

/-- The key decodes to the record of the login. -/
theorem decode_bossKey (aes : Bytes → Equiv.Perm Block) :
    decodeSession aes parseFields goodKey (bossKey aes) =
      .ok (parseFields (serialize (str "boss") 1700000000000)) := by
  rw [decodeSession, create_goodKey, bossKey]
  show Except.ok (parseFields (decode aes _ (encode aes _ 0 _).2).2) = _
  rw [decode_encode aes (by decide)]

/-- The session of the admin is accepted, whatever the cipher is. -/
theorem bossSession (aes : Bytes → Equiv.Perm Block) (signkey : SignKeyT) (c : OrdMap Key CacheV)
    (hc : c.get (encodeSecondaryKey uExterdataName (str "boss")) = none) :
    Access.sessionUpdater .user { isMaster := true, maindb := bobRows signkey, dbcache := c }
        { decode := decodeSession aes parseFields, sessionTime := 1700000000000 }
        (deletion (bossKey aes)) =
      .ok (some { boss with keytype := kExterdata }) := by
  have hget : ∃ st', exterCredGet
      { isMaster := true, maindb := bobRows signkey, dbcache := c }
      { name := str "boss", sessionkey := bossKey aes, keytype := kExterdata } =
        .ok ({ boss with keytype := kExterdata }, st') := by
    rw [exterCredGet, credGet, hc]
    exact ⟨_, rfl⟩
  obtain ⟨st', hget⟩ := hget
  have hname : ¬ str "boss" = [] := by decide
  show (credCheckSession exterCredGet (decodeSession aes parseFields) 1700000000000
    { isMaster := true, maindb := bobRows signkey, dbcache := c }
    { name := str "boss", sessionkey := bossKey aes, keytype := kExterdata }).2.map some = _
  rw [credCheckSession, if_neg hname, if_neg (bossKey_ne_nil aes), hget]
  show (do
    let xuser ← decodeSession aes parseFields goodKey (bossKey aes)
    if xuser.name ≠ str "boss" then badData "No such user or Invalid session" mInvalidParam
    else if xuser.updatedAt > 1700000000000 then
      badData "No such user or Invalid session" mInvalidParam
    else if 1700000000000 - xuser.updatedAt > sessionLifetimeMs then
      badData "Session Key has Expired" mInvalidParam
    else pure { boss with keytype := kExterdata } : Except Exc UserDataT).map some = _
  rw [decode_bossKey]
  obtain ⟨hn, ht⟩ : (parseFields (serialize (str "boss") 1700000000000)).name = str "boss" ∧
      (parseFields (serialize (str "boss") 1700000000000)).updatedAt = 1700000000000 :=
    parse_serialize parseFields_ok (validName_of_decide (by decide) (by decide)) (by norm_num)
  simp only [bind, Except.bind, hn, ht]
  rfl

/-- **The deletion is carried out**, from a cold cache of the admin. -/
theorem deleteBob_rows (aes : Bytes → Equiv.Perm Block) {signkey : SignKeyT} {s s' : State}
    {c : OrdMap Key CacheV}
    (hst : s.store.st = { isMaster := true, maindb := bobRows signkey, dbcache := c })
    (hc : c.get (encodeSecondaryKey uExterdataName (str "boss")) = none)
    (hs : step aes parseFields s (deleteBob aes) = some s') :
    s'.store.st.maindb = deletedRows signkey := by
  cases hs
  obtain ⟨dbcache, hrun⟩ := Access.manageDataAction_master (k := .user) rfl
    (bossSession aes signkey c hc)
    (show writeActionFilter .wDelete = .ok (uactionDelete, false) from rfl)
  show (RecKind.user.manageDataAction _ s.store.st _).table.maindb = _
  rw [hst]
  exact (congrArg (fun out => out.table.maindb) hrun).trans rfl

/-- Bob logs in. -/
def bobLogin : Request := .getSession .user 0 1600000000000 (str "bob") (str "secret")

/-- A check of all stored users and exters. -/
def allAccounts (p : UserDataT → Bool) (db : DataDb) : Bool :=
  db.rows.all fun row =>
    match row.2 with
    | .user r => p r
    | _ => true

theorem of_allAccounts {p : UserDataT → Bool} {s : State}
    (h : allAccounts p s.store.st.maindb = true) {k : Kind} {name : Bytes} {r : UserDataT}
    (hr : s.account k name = some r) : p r = true := by
  obtain ⟨-, -, hget, -⟩ := (k.singleKey.find_eq_some (s.store.tables.table k) rfl).mp hr
  have hser : k.table.serialize r = .user r := by cases k <;> rfl
  exact List.all_eq_true.mp h _ (hser ▸ (OrdMap.get_eq_some_iff _).mp hget)

theorem init_bobNode (aes : Bytes → Equiv.Perm Block) (signkey : SignKeyT)
    (h : allAccounts (fun r => !r.notfound && !r.isDeleted && !r.expired) (bobRows signkey) = true) :
    (machine aes parseFields).init (bobNode signkey) := by
  refine ⟨rfl, fun k name r hr => ?_⟩
  have hr := of_allAccounts (s := bobNode signkey) h hr
  simp only [Bool.and_eq_true, Bool.not_eq_true'] at hr
  refine ⟨hr.1.1, ?_⟩
  rintro (hflag | hflag)
  · rw [hr.1.2] at hflag
    cases hflag
  · rw [hr.2] at hflag
    cases hflag

/-- Bob logs in, and the admin deletes him. -/
theorem bob_deleted (aes : Bytes → Equiv.Perm Block) (signkey : SignKeyT) :
    ∃ s₁ s, (machine aes parseFields).step (bobNode signkey) bobLogin = some s₁ ∧
      (machine aes parseFields).step s₁ (deleteBob aes) = some s ∧
      s.store.st.maindb = deletedRows signkey :=
  ⟨_, _, rfl, rfl, deleteBob_rows aes rfl rfl rfl⟩

/-- Bob is deleted, and can still log in, whatever the cipher is. -/
theorem deleted_user_logs_in :
    ¬ ∃ aes, ∀ s, (machine aes parseFields).Reach s → DeletedCannotAct aes parseFields s := by
  rintro ⟨aes, h⟩
  obtain ⟨s₁, s, h₁, h₂, hdb⟩ := bob_deleted aes goodKey
  have hinit := init_bobNode aes goodKey (by decide)
  have hreach : (machine aes parseFields).Reach s :=
    .step (.step (.init hinit) trivial h₁) trivial h₂
  have hinv₁ : Inv s₁ := Inv.step (inv_init hinit).1
    (show step aes parseFields (bobNode goodKey) bobLogin = some s₁ from h₁)
  have hinv : Inv s := hinv₁.step (show step aes parseFields s₁ (deleteBob aes) = some s from h₂)
  have hbob : s.account .user (str "bob") = some { bob goodKey with isDeleted := true } := by
    rw [State.account, hdb]
    decide
  refine (hinv.cannotAct_iff hbob).mp (h s hreach _ _ _ hbob (Or.inl rfl)) ?_
  exact ⟨by decide, by decide, _, create_goodKey⟩

/-- A user with a passkey, but without a signing key, is deleted and cannot act from then on. -/
theorem deleted_accounts_run_noKey :
    ∃ s : (Bytes → Equiv.Perm Block) → State, ∀ aes,
      (machine aes parseFields).exec (bobNode {}) [bobLogin, deleteBob aes] = some (s aes) ∧
        (s aes).account .user (str "bob") = some { bob {} with isDeleted := true } ∧
        DeletedCannotAct aes parseFields (s aes) := by
  have hrun : ∀ aes, ∃ s, (machine aes parseFields).exec (bobNode {}) [bobLogin, deleteBob aes] =
      some s ∧ s.account .user (str "bob") = some { bob {} with isDeleted := true } ∧
      DeletedCannotAct aes parseFields s := by
    intro aes
    obtain ⟨s₁, s, h₁, h₂, hdb⟩ := bob_deleted aes {}
    have hinit := init_bobNode aes {} (by decide)
    have hlogin : WritesShut aes parseFields (bobNode {}) bobLogin := by
      intro s' hs' k name r hr _ hnew
      cases hs'
      rw [(bobNode {}).getSession_account] at hr
      exact absurd hr hnew
    have hdeletion : WritesShut aes parseFields s₁ (deleteBob aes) := by
      intro s' hs' k name r hr hflag _ hopen
      rw [Option.some.inj (hs'.symm.trans h₂)] at hr
      have hshut : allAccounts (fun r => !(r.isDeleted || r.expired) || !(create r.signkey).isOk)
          s.store.st.maindb = true := by
        rw [hdb]
        decide
      obtain ⟨-, -, seckey, hcreate⟩ := hopen
      have hbad := of_allAccounts hshut hr
      rw [hcreate] at hbad
      rcases hflag with hflag | hflag <;> simp [hflag, Except.isOk, Except.toBool] at hbad
    refine ⟨s, ?_, ?_, ?_⟩
    · rw [Machine.exec, h₁, Option.bind_some, Machine.exec, h₂]
      rfl
    · rw [State.account, hdb]
      decide
    · exact (deleted_accounts_run aes parseFields
        (.step (.step (.init hinit) hlogin h₁) hdeletion h₂)).1
  choose s hs using hrun
  exact ⟨s, hs⟩

end Zapdos.Store.DeletedAccounts
