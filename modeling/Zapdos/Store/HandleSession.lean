/-
  Sessions — `GetSession` and `CheckSession`, over `ExterCredService::Get` and `UserCredService::Get`.

  The updater of a request is known by name and session key.  `Get` fills in its record, from the
  shared cache (a packed copy) or from the table, and `CheckSession` compares it with what the
  session key decodes to.  The cryptography that makes and decodes session keys is code of another
  part of the system and comes in as functions.
-/
import Zapdos.Store.StoreTable

namespace Zapdos.Store

open Zapdos.Lib

/-- `ExterCredService::Pack`. -/
def exterPack (data : ExterDataT) : ExterDataT where
  id := data.id
  signkey := data.signkey
  passkey := data.passkey
  manager := data.manager
  name := data.name
  isAdmin := data.isAdmin
  canAddUsers := data.canAddUsers
  canAddTags := data.canAddTags
  canAddCategory := data.canAddCategory
  canAddItems := data.canAddItems
  profiles := data.profiles
  locked := data.locked
  expired := data.expired
  isDeleted := data.isDeleted

/-- `UserCredService::Pack`. -/
def userPack (data : UserDataT) : UserDataT where
  id := data.id
  manager := data.manager
  signkey := data.signkey
  passkey := data.passkey
  name := data.name
  lang := data.lang
  isInvited := data.isInvited
  subscription := data.subscription
  categories := data.categories
  updatedAt := data.updatedAt
  locked := data.locked
  expired := data.expired
  isDeleted := data.isDeleted

/-- `ParseFromString` of a cached record into a `UserDataT`. -/
def CacheV.parseUser : CacheV → Option UserDataT
  | .packed v => v.parseUser
  | .tsText _ => none

/-- The common part of the two `Get` functions: the record under the name of `data`, and what the
    read leaves in the cache. -/
def credGet (t : StoreTable UserDataT) (ukey keytype : KeyTypeE)
    (fill : UserDataT → OrdMap Key CacheV → OrdMap Key CacheV) (st : SharedTable)
    (data : UserDataT) : Except Exc (UserDataT × SharedTable) :=
  match st.dbcache.get (encodeSecondaryKey ukey data.name) with
  | some temp =>
    match temp.parseUser with
    | some r => .ok ({ r with keytype := keytype }, st)
    | none => .ok ({ data with notfound := true }, st)
  | none => do
    let (found, r) ← t.getOne st.maindb data ukey
    if found then pure ({ r with keytype := keytype }, { st with dbcache := fill r st.dbcache })
    else pure ({ r with notfound := true }, st)

/-- `ExterCredService::Get`. -/
def exterCredGet (st : SharedTable) (data : ExterDataT) :
    Except Exc (ExterDataT × SharedTable) :=
  credGet exterDataTable uExterdataName kExterdata
    (fun r dbcache => CacheContainer.setAssoc dbcache (encodeSecondaryKey uExterdataName r.name)
      (.packed (.user (exterPack r))) false) st data

/-- `UserCredService::Get`; the categories of the user go to the cache too. -/
def userCredGet (st : SharedTable) (data : UserDataT) : Except Exc (UserDataT × SharedTable) :=
  credGet userDataTable uUserdataName kUserdata
    (fun r dbcache => r.categories.foldl (fun c category =>
        CacheContainer.setAssoc c
          (.secondary fUserdataNameCategory [.text r.name, .text category])
          (.tsText r.updatedAt) false)
      (CacheContainer.setAssoc dbcache (encodeSecondaryKey uUserdataName r.name)
        (.packed (.user (userPack r))) false)) st data

/-- `ZPDS_SESSION_LIFETIME_MS`. -/
def sessionLifetimeMs : Nat := 10 * 86400 * 1000

/-- What `CryptoTraits::Create` with the record's keys and `Decode` make of a session key, parsed. -/
abbrev Decode := SignKeyT → Bytes → Except Exc UserDataT

/-- What `CryptoTraits::Create` with the record's keys and `Encode` make of a serialized record; a
    failed `Encode` leaves an empty session key. -/
abbrev Encode := SignKeyT → UserDataT → Except Exc Bytes

/-- `CredServiceBase::GetSession`, over one of the `Get` functions: the session key. -/
def credGetSession (get : SharedTable → UserDataT → Except Exc (UserDataT × SharedTable))
    (encode : Encode) (currtime : Nat) (st : SharedTable) (username password : Bytes) :
    SharedTable × Except Exc Bytes :=
  if username = [] then
    (st, initialExc "username variable needed for exter session" mInvalidParam)
  else if password = [] then
    (st, initialExc "password variable needed for exter session" mInvalidParam)
  else
    match get st { name := username } with
    | .error e => (st, .error e)
    | .ok (user, st) =>
      (st,
        if user.notfound ∨ user.passkey ≠ password then
          badData "No such user or Invalid passkey" mInvalidParam
        else encode user.signkey { name := user.name, updatedAt := currtime })

/-- `CredServiceBase::CheckSession`, over one of the `Get` functions. -/
def credCheckSession (get : SharedTable → UserDataT → Except Exc (UserDataT × SharedTable))
    (decode : Decode) (currtime : Nat) (st : SharedTable) (data : UserDataT) :
    SharedTable × Except Exc UserDataT :=
  if data.name = [] then (st, initialExc "username variable needed for exter check" mInvalidParam)
  else if data.sessionkey = [] then
    (st, initialExc "sessionkey variable needed for exter check" mInvalidParam)
  else
    match get st data with
    | .error e => (st, .error e)
    | .ok (r, st) =>
      (st,
        if r.notfound then badData "No such user or Invalid session" mInvalidParam
        else do
          let xuser ← decode r.signkey data.sessionkey
          if xuser.name ≠ r.name then badData "No such user or Invalid session" mInvalidParam
          else if xuser.updatedAt > currtime then
            badData "No such user or Invalid session" mInvalidParam
          else if currtime - xuser.updatedAt > sessionLifetimeMs then
            badData "Session Key has Expired" mInvalidParam
          else pure r)

/-- `HandleSession::CheckSession`: the updater's record, or `none` when it returns false. -/
def checkSession (decode : Decode) (currtime : Nat) (st : SharedTable) (data : UserDataT)
    (onlyadmin : Bool) : SharedTable × Except Exc (Option UserDataT) :=
  if data.keytype = kExterdata then
    let (st, res) := credCheckSession exterCredGet decode currtime st data
    (st, res.map some)
  else if onlyadmin then (st, .ok none)
  else if data.keytype = kUserdata then
    let (st, res) := credCheckSession userCredGet decode currtime st data
    (st, res.map some)
  else (st, .ok none)

/-! ## What a check of a session leaves -/

theorem credGet_same {t : StoreTable UserDataT} {ukey keytype : KeyTypeE}
    {fill : UserDataT → OrdMap Key CacheV → OrdMap Key CacheV} {st st' : SharedTable}
    {data r : UserDataT} (h : credGet t ukey keytype fill st data = .ok (r, st')) :
    ∃ dbcache, st' = { st with dbcache := dbcache } := by
  rw [credGet] at h
  split at h
  · split at h <;>
      · simp only [Except.ok.injEq, Prod.mk.injEq] at h
        exact ⟨st.dbcache, h.2.symm⟩
  · cases hone : t.getOne st.maindb data ukey with
    | error e => simp [hone, bind, Except.bind] at h
    | ok fr =>
      obtain ⟨found, r'⟩ := fr
      cases found <;>
        simp only [hone, bind, Except.bind, if_true, Bool.false_eq_true, if_false, pure,
          Except.pure, Except.ok.injEq, Prod.mk.injEq] at h
      · exact ⟨st.dbcache, h.2.symm⟩
      · exact ⟨_, h.2.symm⟩

theorem credCheckSession_same
    {get : SharedTable → UserDataT → Except Exc (UserDataT × SharedTable)}
    (hget : ∀ st data r st', get st data = .ok (r, st') →
      ∃ dbcache, st' = { st with dbcache := dbcache })
    (decode : Decode) (currtime : Nat) (st : SharedTable) (data : UserDataT) :
    ∃ dbcache, (credCheckSession get decode currtime st data).1 = { st with dbcache := dbcache } := by
  rw [credCheckSession]
  split
  · exact ⟨st.dbcache, rfl⟩
  · split
    · exact ⟨st.dbcache, rfl⟩
    · split
      · exact ⟨st.dbcache, rfl⟩
      · rename_i r st' hr
        exact hget _ _ _ _ hr

/-- A check of a session changes nothing but the cache. -/
theorem checkSession_same (decode : Decode) (currtime : Nat) (st : SharedTable) (data : UserDataT)
    (onlyadmin : Bool) :
    ∃ dbcache, (checkSession decode currtime st data onlyadmin).1 =
      { st with dbcache := dbcache } := by
  rw [checkSession]
  split
  · exact credCheckSession_same (fun _ _ _ _ => credGet_same) decode currtime st data
  · split
    · exact ⟨st.dbcache, rfl⟩
    · split
      · exact credCheckSession_same (fun _ _ _ _ => credGet_same) decode currtime st data
      · exact ⟨st.dbcache, rfl⟩

end Zapdos.Store
