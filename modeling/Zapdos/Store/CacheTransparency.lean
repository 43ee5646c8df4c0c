/-
  Cached and uncached reads — the same answer, whether `Get` finds a copy or reads the table.

  A copy in the cache is made by `Pack`, which keeps a hand-picked part of the record.  Callers take
  what `Get` fills in for the whole record: sessions, permissions, search profiles, and the rules of
  tags and categories are all read from it.  `Alike` is what the callers can see of a record.

  THE CRUX.  `Pack` drops the flag `notfound` too, and that flag is the first thing each caller looks
  at: a record stored with the flag set would be absent when read from the table and present when
  read from the cache.  It drops the permission `can_add_profiles` of an exter as well.  No stored
  record has either of them set (`Recorded.plain`).
-/
import Zapdos.Search.SearchBase
import Zapdos.Store.CacheCoherence
import Zapdos.Store.StoredRecords

namespace Zapdos.Store

open Zapdos.Lib

namespace CacheTransparency

open CacheCoherence (Rec table ukey key pack found missing fill Shows)

/-! ## What a `Get` tells its caller -/

/-- Every copy under the name of a user, exter, tag or category is the one `Get` makes of the record
    stored now. -/
def Filled (st : SharedTable) : Prop :=
  ∀ (k : GetKind) (hash : Key) (v : CacheV), hash.keytype = ukey k →
    st.dbcache.get hash = some v →
      ∃ r, (table k).find st.maindb hash = some r ∧
        v = .packed ((table k).serialize (pack k r))

/-- Two records that callers cannot tell apart: both are flagged, or neither is and they agree on
    what `Pack` keeps and on the permission it drops. -/
def Alike (k : GetKind) (r r' : Rec k) : Prop :=
  (table k).notfound r = (table k).notfound r' ∧
    ((table k).notfound r = false → pack k r = pack k r' ∧
      k.recKind.canAddProfiles r = k.recKind.canAddProfiles r')

/-- What the table says to a request: nothing, or a record. -/
def Tells (k : GetKind) (db : DataDb) (hash : Key) (v : Rec k) : Prop :=
  match (table k).find db hash with
  | none => (table k).notfound v = true
  | some r => k.recKind.Plain v ∧ pack k v = pack k r

/-- Two records that tell of the same key are alike. -/
theorem Tells.alike {k : GetKind} {db : DataDb} {hash : Key} {v v' : Rec k}
    (h : Tells k db hash v) (h' : Tells k db hash v') : Alike k v v' := by
  unfold Tells at h h'
  cases hfind : (table k).find db hash with
  | none =>
    simp only [hfind] at h h'
    refine ⟨h.trans h'.symm, fun hno => ?_⟩
    rw [h] at hno
    cases hno
  | some r =>
    simp only [hfind] at h h'
    obtain ⟨hplain, hpack⟩ := h
    obtain ⟨hplain', hpack'⟩ := h'
    exact ⟨hplain.notfound.trans hplain'.notfound.symm, fun _ =>
      ⟨hpack.trans hpack'.symm, hplain.canAddProfiles.trans hplain'.canAddProfiles.symm⟩⟩

/-- What is not found says so. -/
theorem notfound_missing (k : GetKind) (q : Rec k) :
    (table k).notfound (missing k q) = true := by
  cases k <;> rfl

/-- What `Get` fills in of a plain record is plain. -/
theorem plain_found {k : GetKind} {r : Rec k} (h : k.recKind.Plain r) :
    k.recKind.Plain (found k r) := by
  cases k <;> exact ⟨h.notfound, h.canAddProfiles⟩

/-- The copy that is made of a record is plain, whatever the record is. -/
theorem plain_pack (k : GetKind) (r : Rec k) : k.recKind.Plain (pack k r) := by
  cases k <;> exact ⟨rfl, rfl⟩

/-- What is found is packed as it is stored. -/
theorem pack_found (k : GetKind) (r : Rec k) : pack k (found k r) = pack k r := by
  cases k <;> rfl

/-- Packing twice keeps no less than packing once. -/
theorem pack_pack (k : GetKind) (r : Rec k) : pack k (pack k r) = pack k r := by
  cases k <;> rfl

/-- **The copy tells what the record tells**, as every stored record is plain. -/
theorem Tells.of_shows {k : GetKind} {db : DataDb} (hok : StoreOk db) (hp : PlainRecords db)
    {q v : Rec k} (h : Shows k db q v) : Tells k db (key k q) v := by
  unfold Shows at h
  unfold Tells
  cases hfind : (table k).find db (key k q) with
  | none =>
    simp only [hfind] at h ⊢
    rw [h]
    exact notfound_missing k q
  | some r =>
    simp only [hfind] at h ⊢
    have hplain : k.recKind.Plain r := hp.find hok (CacheCoherence.key_keytype k q) hfind
    rcases h with rfl | rfl
    · exact ⟨plain_found hplain, pack_found k r⟩
    · exact ⟨plain_found (plain_pack k r), (pack_found k _).trans (pack_pack k r)⟩

/-- **`Get` with a filled cache**: it tells what the table says, and the cache stays filled. -/
theorem get_filled (k : GetKind) {st : SharedTable} (hok : StoreOk st.maindb)
    (hp : PlainRecords st.maindb) (hc : Filled st) (q : Rec k) :
    ∃ v dbcache, CacheCoherence.get k st q = .ok (v, { st with dbcache := dbcache }) ∧
      Filled { st with dbcache := dbcache } ∧ Tells k st.maindb (key k q) v := by
  have hget : ∃ v dbcache, CacheCoherence.get k st q = .ok (v, { st with dbcache := dbcache }) ∧
      Filled { st with dbcache := dbcache } ∧ Shows k st.maindb q v := by
    unfold CacheCoherence.get CacheCoherence.lookup
    cases hcached : st.dbcache.get (key k q) with
    | some c =>
      obtain ⟨r, hr, rfl⟩ := hc k _ c (CacheCoherence.key_keytype k q) hcached
      refine ⟨found k (pack k r), st.dbcache, ?_, hc, ?_⟩
      · simp only [(CacheCoherence.singleKey k).parse_serialize, Option.elim_some]
      · rw [Shows, hr]
        exact Or.inr rfl
    | none =>
      simp only [CacheCoherence.dbRead_spec hok]
      cases hr : (table k).find st.maindb (key k q) with
      | none =>
        refine ⟨missing k q, st.dbcache, rfl, hc, ?_⟩
        rw [Shows, hr]
      | some r =>
        refine ⟨found k r, fill k r st.dbcache, rfl, fun k' hash v hk hv => ?_, ?_⟩
        · rw [CacheCoherence.get_fill k k' r _ hk] at hv
          split at hv
          · rename_i hhash
            have hkk : k' = k := by
              apply CacheCoherence.ukey_inj
              rw [← hk, hhash]
              exact CacheCoherence.key_keytype k r
            subst hkk
            have hname := ((CacheCoherence.singleKey k').find_eq_some (hok k'.recKind)
              (CacheCoherence.key_keytype k' q)).mp hr
            refine ⟨r, ?_, (Option.some.inj hv).symm⟩
            rw [hhash, show key k' r = key k' q from hname.1]
            exact hr
          · exact hc k' hash v hk hv
        · rw [Shows, hr]
          exact Or.inl rfl
  obtain ⟨v, dbcache, hrun, hfilled, hshows⟩ := hget
  exact ⟨v, dbcache, hrun, hfilled, Tells.of_shows hok hp hshows⟩

/-- A shared table whose records are in order and whose cache is filled from them. -/
structure Consistent (st : SharedTable) : Prop where
  tables : StoreOk st.maindb
  plain : PlainRecords st.maindb
  filled : Filled st

/-- **`Get` on a consistent cache** tells of the key and leaves a consistent cache. -/
theorem Consistent.get {st : SharedTable} (h : Consistent st) (k : GetKind) (q : Rec k) :
    ∃ v dbcache, CacheCoherence.get k st q = .ok (v, { st with dbcache := dbcache }) ∧
      Consistent { st with dbcache := dbcache } ∧ Tells k st.maindb (key k q) v := by
  obtain ⟨v, dbcache, hrun, hfilled, htells⟩ := get_filled k h.tables h.plain h.filled q
  exact ⟨v, dbcache, hrun, ⟨h.tables, h.plain, hfilled⟩, htells⟩

/-! ## Sessions, permissions and profiles -/

section Accounts

variable {st st' : SharedTable} (h : Consistent st) (h' : Consistent st')
  (hdb : st'.maindb = st.maindb)

include h h' hdb

/-- The two reads of an account. -/
theorem account_alike (k : Privileges.Kind) (data : UserDataT) :
    ∃ v c v' c', k.get st data = .ok (v, c) ∧ k.get st' data = .ok (v', c') ∧
      v.notfound = v'.notfound ∧ (v.notfound = false → k.pack v = k.pack v' ∧
        (k = .exter → v.canAddProfiles = v'.canAddProfiles)) := by
  cases k with
  | user =>
    obtain ⟨v, c, hrun, -, htells⟩ := h.get .user data
    obtain ⟨v', c', hrun', -, htells'⟩ := h'.get .user data
    rw [hdb] at htells'
    rw [CacheCoherence.get_user] at hrun hrun'
    obtain ⟨hflag, hpack⟩ := htells.alike htells'
    refine ⟨v, _, v', _, hrun, hrun', hflag, fun hno => ⟨(hpack hno).1, fun he => ?_⟩⟩
    cases he
  | exter =>
    obtain ⟨v, c, hrun, -, htells⟩ := h.get .exter data
    obtain ⟨v', c', hrun', -, htells'⟩ := h'.get .exter data
    rw [hdb] at htells'
    rw [CacheCoherence.get_exter] at hrun hrun'
    obtain ⟨hflag, hpack⟩ := htells.alike htells'
    exact ⟨v, _, v', _, hrun, hrun', hflag, fun hno => ⟨(hpack hno).1, fun _ => (hpack hno).2⟩⟩

omit h h' hdb in
/-- What sessions look at is packed, for both kinds of accounts. -/
theorem session_fields {k : Privileges.Kind} {v v' : UserDataT} (hpack : k.pack v = k.pack v') :
    v.name = v'.name ∧ v.passkey = v'.passkey ∧ v.signkey = v'.signkey := by
  cases k with
  | user =>
    have hp : userPack v = userPack v' := hpack
    simp only [userPack, UserDataT.mk.injEq] at hp
    tauto
  | exter =>
    have hp : exterPack v = exterPack v' := hpack
    simp only [exterPack, UserDataT.mk.injEq] at hp
    tauto

/-- A login does not depend on the cache. -/
theorem getSession_agree (k : Privileges.Kind) (encode : Encode) (currtime : Nat)
    (username password : Bytes) :
    (credGetSession k.get encode currtime st username password).2 =
      (credGetSession k.get encode currtime st' username password).2 := by
  obtain ⟨v, c, v', c', hrun, hrun', hflag, hpack⟩ :=
    account_alike h h' hdb k { name := username }
  rw [credGetSession, credGetSession, hrun, hrun']
  by_cases hname : username = []
  · rw [if_pos hname, if_pos hname]
  · rw [if_neg hname, if_neg hname]
    by_cases hpass : password = []
    · rw [if_pos hpass, if_pos hpass]
    · rw [if_neg hpass, if_neg hpass]
      cases hno : v.notfound with
      | true =>
        rw [hno] at hflag
        simp only [hno, ← hflag, true_or, if_true]
      | false =>
        obtain ⟨hn, hp, hs⟩ := session_fields (hpack hno).1
        simp only [← hflag, hn, hp, hs]

/-- Nor does a session check of one service. -/
theorem credCheckSession_agree (k : Privileges.Kind) (decode : Decode) (currtime : Nat)
    (data : UserDataT) :
    (credCheckSession k.get decode currtime st data).2.map k.pack =
      (credCheckSession k.get decode currtime st' data).2.map k.pack := by
  obtain ⟨v, c, v', c', hrun, hrun', hflag, hpack⟩ := account_alike h h' hdb k data
  rw [credCheckSession, credCheckSession, hrun, hrun']
  by_cases hname : data.name = []
  · rw [if_pos hname, if_pos hname]
  · rw [if_neg hname, if_neg hname]
    by_cases hkey : data.sessionkey = []
    · rw [if_pos hkey, if_pos hkey]
    · rw [if_neg hkey, if_neg hkey]
      cases hno : v.notfound with
      | true =>
        rw [hno] at hflag
        simp only [hno, ← hflag, if_true]
      | false =>
        obtain ⟨hn, -, hs⟩ := session_fields (hpack hno).1
        rw [hno] at hflag
        simp only [hno, ← hflag, hn, hs, Bool.false_eq_true, if_false, bind, Except.bind]
        cases decode v'.signkey data.sessionkey with
        | error e => rfl
        | ok xuser =>
          simp only
          split
          · rfl
          · split
            · rfl
            · split
              · rfl
              · exact congrArg Except.ok (hpack hno).1

/-- What `HandleSession::CheckSession` leaves of an updater, as far as it is packed. -/
def keptOf (keytype : KeyTypeE) : UserDataT → UserDataT :=
  if keytype = kExterdata then exterPack else userPack

/-- Nor does the session check of a request. -/
theorem checkSession_agree (decode : Decode) (currtime : Nat) (data : UserDataT)
    (onlyadmin : Bool) :
    (checkSession decode currtime st data onlyadmin).2.map (Option.map (keptOf data.keytype)) =
      (checkSession decode currtime st' data onlyadmin).2.map
        (Option.map (keptOf data.keytype)) := by
  have hsome : ∀ (k : Privileges.Kind), keptOf data.keytype = k.pack →
      ((credCheckSession k.get decode currtime st data).2.map some).map
          (Option.map (keptOf data.keytype)) =
        ((credCheckSession k.get decode currtime st' data).2.map some).map
          (Option.map (keptOf data.keytype)) := by
    intro k hk
    have hagree := congrArg (Except.map some) (credCheckSession_agree h h' hdb k decode currtime data)
    rw [hk]
    cases hres : (credCheckSession k.get decode currtime st data).2 <;>
      cases hres' : (credCheckSession k.get decode currtime st' data).2 <;>
        rw [hres, hres'] at hagree <;> exact hagree
  rw [checkSession, checkSession]
  by_cases hexter : data.keytype = kExterdata
  · rw [if_pos hexter, if_pos hexter]
    exact hsome .exter (if_pos hexter)
  · rw [if_neg hexter, if_neg hexter]
    cases onlyadmin with
    | true => rfl
    | false =>
      simp only [Bool.false_eq_true, if_false]
      by_cases huser : data.keytype = kUserdata
      · rw [if_pos huser, if_pos huser]
        exact hsome .user (if_neg hexter)
      · rw [if_neg huser, if_neg huser]

/-- The permission flags of an exter. -/
structure Permissions where
  isAdmin : Bool
  canAddUsers : Bool
  canAddTags : Bool
  canAddCategory : Bool
  canAddItems : Bool
  canAddProfiles : Bool
  deriving DecidableEq, Repr

/-- What `Get` says of an exter's permissions; `none` when there is no such exter. -/
def permissions (user : ExterDataT) : Option Permissions :=
  if (user : UserDataT).notfound then none
  else some ⟨user.isAdmin, user.canAddUsers, user.canAddTags, user.canAddCategory, user.canAddItems,
    user.canAddProfiles⟩

/-- Nor do the permissions of a third party. -/
theorem permissions_agree (name : Bytes) :
    (exterCredGet st { name := name }).map (fun out => permissions out.1) =
      (exterCredGet st' { name := name }).map (fun out => permissions out.1) := by
  obtain ⟨v, c, v', c', hrun, hrun', hflag, hpack⟩ :=
    account_alike h h' hdb .exter { name := name }
  have hget : exterCredGet st { name := name } = .ok (v, c) := hrun
  have hget' : exterCredGet st' { name := name } = .ok (v', c') := hrun'
  rw [hget, hget']
  refine congrArg Except.ok ?_
  show permissions v = permissions v'
  unfold permissions
  cases hno : v.notfound with
  | true =>
    rw [hno] at hflag
    rw [← hflag, if_pos rfl, if_pos rfl]
  | false =>
    obtain ⟨hp, hprofiles⟩ := hpack hno
    have hprofiles : v.canAddProfiles = v'.canAddProfiles := hprofiles rfl
    have hp : exterPack v = exterPack v' := hp
    simp only [exterPack, UserDataT.mk.injEq] at hp
    rw [← hflag, hno]
    simp only [Bool.false_eq_true, if_false, Option.some.injEq, Permissions.mk.injEq]
    tauto

/-- Nor does its search profile. -/
theorem profile_agree (name : Bytes) (queryType : Int) :
    (exterCredGet st { name := name }).map (fun out => Search.getExterProfile out.1 queryType) =
      (exterCredGet st' { name := name }).map
        (fun out => Search.getExterProfile out.1 queryType) := by
  obtain ⟨v, c, v', c', hrun, hrun', hflag, hpack⟩ :=
    account_alike h h' hdb .exter { name := name }
  have hget : exterCredGet st { name := name } = .ok (v, c) := hrun
  have hget' : exterCredGet st' { name := name } = .ok (v', c') := hrun'
  rw [hget, hget']
  refine congrArg Except.ok ?_
  show Search.getExterProfile v queryType = Search.getExterProfile v' queryType
  unfold Search.getExterProfile
  cases hno : v.notfound with
  | true =>
    rw [hno] at hflag
    rw [← hflag, if_pos rfl, if_pos rfl]
  | false =>
    have hp : exterPack v = exterPack v' := (hpack hno).1
    have hprofiles := congrArg UserDataT.profiles hp
    have hsame : v.profiles = v'.profiles := hprofiles
    rw [← hflag, hno, hsame]

end Accounts

/-! ## Tags and categories, with the cache passed along -/

/-- The reference of a tag in `HandleUserTags`: `ref` is filled in anew for each key type. -/
def tagRefIn (name : Bytes) :
    List KeyTypeE → TagDataT → SharedTable → Except Exc (TagDataT × SharedTable)
  | [], ref, st => .ok (ref, st)
  | ktype :: keytypes, ref, st => do
    let (ref, st) ← TagDataService.get st { ref with name := name, keytype := ktype }
    if ref.notfound then tagRefIn name keytypes ref st else pure (ref, st)

/-- The loop of `HandleUserTags` over the old tags. -/
def oldTagsIn (keytypes : List KeyTypeE) :
    List TagDataT → Nat → OrdMap Key Nat → SharedTable →
      Except Exc (OrdMap Key Nat × SharedTable)
  | [], _, kmap, st => .ok (kmap, st)
  | var :: odata, i, kmap, st => do
    let (ref, st) ← tagRefIn var.name keytypes {} st
    if ref.notfound then badData "Old data has bad tag, corrupted"
    else oldTagsIn keytypes odata (i + 1) (kmap.put (tagUsekey ref var) i) st

/-- The loop of `HandleUserTags` over the request. -/
def userTagsIn (keytypes : List KeyTypeE) :
    List TagDataT → OrdMap Key Nat → List TagDataT → SharedTable →
      Except Exc (List TagDataT × SharedTable)
  | [], _, odata, st => .ok (odata, st)
  | var :: idata, kmap, odata, st => do
    let (ref, st) ← tagRefIn var.name keytypes {} st
    if ref.notfound || !ref.isAllowed || ref.isDeleted then
      userTagsIn keytypes idata kmap odata st
    else
      let usekey := tagUsekey ref var
      let overwrite (tag : TagDataT) : TagDataT :=
        { tag with value := var.value, isSearchable := ref.isSearchable }
      match kmap.get usekey with
      | none =>
        userTagsIn keytypes idata (kmap.put usekey odata.length)
          (odata ++ [overwrite { name := var.name }]) st
      | some i => userTagsIn keytypes idata kmap (odata.modify i overwrite) st

/-- `HandleUserTags`, each tag looked up by `TagDataService::Get`. -/
def handleUserTagsIn (st : SharedTable) (idata odata : List TagDataT) (keytypes : List KeyTypeE)
    (merge : Bool) : Except Exc (List TagDataT × SharedTable) :=
  if merge then do
    let (kmap, st) ← oldTagsIn keytypes odata 0 OrdMap.empty st
    userTagsIn keytypes idata kmap odata st
  else userTagsIn keytypes idata OrdMap.empty [] st

/-- The loop of `HandleUserCategories` over the request. -/
def userCategoriesIn :
    List Bytes → List Bytes → SharedTable → Except Exc (List Bytes × SharedTable)
  | [], odata, st => .ok (odata, st)
  | var :: idata, odata, st =>
    if var = [] ∨ var ∈ odata then userCategoriesIn idata odata st
    else do
      let (ref, st) ← CategoryService.get st { name := var }
      if ref.notfound || ref.isDeleted then badDataOf "Category absent or deleted: " var
      else userCategoriesIn idata (odata ++ [var]) st

/-- `HandleUserCategories`, each category looked up by `CategoryService::Get`. -/
def handleUserCategoriesIn (st : SharedTable) (idata odata : List Bytes) (merge : Bool) :
    Except Exc (List Bytes × SharedTable) :=
  userCategoriesIn idata (if merge then odata else []) st

/-- The tag rules in the records: the stored tag, or a flagged one. -/
def tagRules (db : DataDb) (ktype : KeyTypeE) (name : Bytes) : TagDataT :=
  (tagDataTable.find db (encodeSecondaryKeyNum uTagdataKeytypeName ktype name)).getD
    { name := name, keytype := ktype, notfound := true }

/-- The category rules in the records. -/
def categoryRules (db : DataDb) (name : Bytes) : CategoryT :=
  (categoryTable.find db (encodeSecondaryKey uCategoryName name)).getD
    { name := name, notfound := true }

/-- A run that passes the cache along comes out as `out`, which does not know of the cache. -/
def Computes {α : Type} (st : SharedTable) (run : Except Exc (α × SharedTable))
    (out : Except Exc α) : Prop :=
  match out with
  | .error e => run = .error e
  | .ok a => ∃ dbcache, run = .ok (a, { st with dbcache := dbcache }) ∧
      Consistent { st with dbcache := dbcache }

/-- The outcome of a run that computes one. -/
theorem Computes.outcome {α : Type} {st : SharedTable} {run : Except Exc (α × SharedTable)}
    {out : Except Exc α} (h : Computes st run out) : run.map Prod.fst = out := by
  cases out with
  | error e =>
    have hrun : run = .error e := h
    rw [hrun]
    rfl
  | ok a =>
    obtain ⟨dbcache, hrun, -⟩ := h
    rw [hrun]
    rfl

/-- What the handlers look at is packed with a tag. -/
theorem tag_fields {ref ref' : TagDataT} (h : Alike .tag ref ref') :
    ref.notfound = ref'.notfound ∧ (ref.notfound = false →
      ref.isAllowed = ref'.isAllowed ∧ ref.isRepeated = ref'.isRepeated ∧
        ref.isSearchable = ref'.isSearchable ∧ ref.isDeleted = ref'.isDeleted) := by
  refine ⟨h.1, fun hno => ?_⟩
  have hp : TagDataService.pack ref = TagDataService.pack ref' := (h.2 hno).1
  simp only [TagDataService.pack, TagDataT.mk.injEq] at hp
  tauto

/-- The rules of a tag tell of it. -/
theorem tells_tagRules {db : DataDb} (hok : StoreOk db) (hp : PlainRecords db) (q : TagDataT) :
    Tells .tag db (key .tag q) (tagRules db q.keytype q.name) := by
  have hkey : key .tag q = encodeSecondaryKeyNum uTagdataKeytypeName q.keytype q.name := rfl
  unfold Tells tagRules
  rw [hkey]
  cases hfind : (table .tag).find db
      (encodeSecondaryKeyNum uTagdataKeytypeName q.keytype q.name) with
  | none =>
    have hnone : tagDataTable.find db
        (encodeSecondaryKeyNum uTagdataKeytypeName q.keytype q.name) = none := hfind
    rw [hnone]
    rfl
  | some r =>
    have hsome : tagDataTable.find db
        (encodeSecondaryKeyNum uTagdataKeytypeName q.keytype q.name) = some r := hfind
    rw [hsome]
    exact ⟨hp.find hok (k := .tag) (CacheCoherence.key_keytype .tag q) hfind, rfl⟩

/-- The rules of a category tell of it. -/
theorem tells_categoryRules {db : DataDb} (hok : StoreOk db) (hp : PlainRecords db) (q : CategoryT) :
    Tells .category db (key .category q) (categoryRules db q.name) := by
  have hkey : key .category q = encodeSecondaryKey uCategoryName q.name := rfl
  unfold Tells categoryRules
  rw [hkey]
  cases hfind : (table .category).find db (encodeSecondaryKey uCategoryName q.name) with
  | none =>
    have hnone : categoryTable.find db (encodeSecondaryKey uCategoryName q.name) = none := hfind
    rw [hnone]
    rfl
  | some r =>
    have hsome : categoryTable.find db (encodeSecondaryKey uCategoryName q.name) = some r := hfind
    rw [hsome]
    exact ⟨hp.find hok (k := .category) (CacheCoherence.key_keytype .category q) hfind, rfl⟩

/-- The reference of a tag is alike, read with the cache or from the rules. -/
theorem tagRefIn_spec (name : Bytes) (keytypes : List KeyTypeE) {st : SharedTable}
    (h : Consistent st) {ref ref' : TagDataT} (hr : Alike .tag ref ref') :
    ∃ v dbcache, tagRefIn name keytypes ref st = .ok (v, { st with dbcache := dbcache }) ∧
      Consistent { st with dbcache := dbcache } ∧
      Alike .tag v (tagRef (tagRules st.maindb) name keytypes ref') := by
  induction keytypes generalizing st ref ref' with
  | nil => exact ⟨ref, st.dbcache, rfl, h, hr⟩
  | cons ktype keytypes ih =>
    obtain ⟨v, dbcache, hrun, hc, htells⟩ := h.get .tag { ref with name := name, keytype := ktype }
    rw [CacheCoherence.get_tag] at hrun
    have halike : Alike .tag v (tagRules st.maindb ktype name) :=
      htells.alike (tells_tagRules h.tables h.plain { ref with name := name, keytype := ktype })
    have hflag := (tag_fields halike).1
    rw [tagRefIn, hrun, tagRef]
    simp only [bind, Except.bind]
    cases hno : v.notfound with
    | true =>
      rw [hno] at hflag
      rw [← hflag, if_pos rfl, if_pos rfl]
      exact ih hc halike
    | false =>
      rw [hno] at hflag
      rw [← hflag]
      exact ⟨v, dbcache, rfl, hc, halike⟩

/-- The key of a tag looks at one flag of the reference. -/
theorem tagUsekey_congr {ref ref' : TagDataT} (h : ref.isRepeated = ref'.isRepeated)
    (var : TagDataT) : tagUsekey ref var = tagUsekey ref' var := by
  unfold tagUsekey
  rw [h]

/-- A record is like itself. -/
theorem alike_refl (k : GetKind) (r : Rec k) : Alike k r r := ⟨rfl, fun _ => ⟨rfl, rfl⟩⟩

/-- The loop over the old tags asks the cache and computes what the records say. -/
theorem oldTagsIn_spec (keytypes : List KeyTypeE) (odata : List TagDataT) (i : Nat)
    (kmap : OrdMap Key Nat) {st : SharedTable} (h : Consistent st) :
    Computes st (oldTagsIn keytypes odata i kmap st)
      (oldTagsLoop (tagRules st.maindb) keytypes odata i kmap) := by
  induction odata generalizing i kmap st with
  | nil => exact ⟨st.dbcache, rfl, h⟩
  | cons var odata ih =>
    obtain ⟨v, dbcache, hrun, hc, halike⟩ :=
      tagRefIn_spec var.name keytypes h (alike_refl .tag ({} : TagDataT))
    obtain ⟨hflag, hfields⟩ := tag_fields halike
    rw [oldTagsIn, hrun, oldTagsLoop]
    simp only [bind, Except.bind]
    cases hno : v.notfound with
    | true =>
      rw [hno] at hflag
      rw [← hflag, if_pos rfl, if_pos rfl]
      rfl
    | false =>
      obtain ⟨-, hrep, -, -⟩ := hfields hno
      rw [hno] at hflag
      rw [← hflag, tagUsekey_congr hrep]
      exact ih _ _ hc

/-- So does the loop over the new ones. -/
theorem userTagsIn_spec (keytypes : List KeyTypeE) (idata : List TagDataT) (kmap : OrdMap Key Nat)
    (odata : List TagDataT) {st : SharedTable} (h : Consistent st) :
    Computes st (userTagsIn keytypes idata kmap odata st)
      (.ok (userTagsLoop (tagRules st.maindb) keytypes idata kmap odata)) := by
  induction idata generalizing kmap odata st with
  | nil => exact ⟨st.dbcache, rfl, h⟩
  | cons var idata ih =>
    obtain ⟨v, dbcache, hrun, hc, halike⟩ :=
      tagRefIn_spec var.name keytypes h (alike_refl .tag ({} : TagDataT))
    obtain ⟨hflag, hfields⟩ := tag_fields halike
    rw [userTagsIn, hrun, userTagsLoop]
    simp only [bind, Except.bind]
    cases hno : v.notfound with
    | true =>
      rw [hno] at hflag
      rw [← hflag]
      exact ih _ _ hc
    | false =>
      obtain ⟨hall, hrep, hsearch, hdel⟩ := hfields hno
      rw [hno] at hflag
      rw [← hflag, hall, hdel, hsearch, tagUsekey_congr hrep]
      split
      · exact ih _ _ hc
      · -- the place of the tag among the old ones does not depend on the cache
        cases kmap.get (tagUsekey (tagRef (tagRules st.maindb) var.name keytypes {}) var) with
        | none => exact ih _ _ hc
        | some i => exact ih _ _ hc

/-- **`HandleUserTags` is the model over the rules in the records**, whatever the cache holds. -/
theorem handleUserTagsIn_spec {st : SharedTable} (h : Consistent st) (idata odata : List TagDataT)
    (keytypes : List KeyTypeE) (merge : Bool) :
    Computes st (handleUserTagsIn st idata odata keytypes merge)
      (handleUserTags (tagRules st.maindb) idata odata keytypes merge) := by
  unfold handleUserTagsIn handleUserTags
  cases merge with
  | false => exact userTagsIn_spec keytypes idata OrdMap.empty [] h
  | true =>
    have hold := oldTagsIn_spec keytypes odata 0 OrdMap.empty h
    simp only [if_true]
    cases hout : oldTagsLoop (tagRules st.maindb) keytypes odata 0 OrdMap.empty with
    | error e =>
      rw [hout] at hold
      have hrun : oldTagsIn keytypes odata 0 OrdMap.empty st = .error e := hold
      rw [hrun]
      rfl
    | ok kmap =>
      rw [hout] at hold
      obtain ⟨dbcache, hrun, hc⟩ := hold
      rw [hrun]
      exact userTagsIn_spec keytypes idata kmap odata hc

/-- So does the loop over the categories. -/
theorem userCategoriesIn_spec (idata odata : List Bytes) {st : SharedTable} (h : Consistent st) :
    Computes st (userCategoriesIn idata odata st)
      (userCategoriesLoop (categoryRules st.maindb) idata odata) := by
  induction idata generalizing odata st with
  | nil => exact ⟨st.dbcache, rfl, h⟩
  | cons var idata ih =>
    rw [userCategoriesIn, userCategoriesLoop]
    by_cases hskip : var = [] ∨ var ∈ odata
    · rw [if_pos hskip, if_pos hskip]
      exact ih _ h
    · rw [if_neg hskip, if_neg hskip]
      obtain ⟨v, dbcache, hrun, hc, htells⟩ := h.get .category { name := var }
      rw [CacheCoherence.get_category] at hrun
      have halike : Alike .category v (categoryRules st.maindb var) :=
        htells.alike (tells_categoryRules h.tables h.plain { name := var })
      have hflag : v.notfound = (categoryRules st.maindb var).notfound := halike.1
      rw [hrun]
      simp only [bind, Except.bind]
      cases hno : v.notfound with
      | true =>
        rw [hno] at hflag
        rw [← hflag]
        rfl
      | false =>
        have hp : CategoryService.pack v = CategoryService.pack (categoryRules st.maindb var) :=
          (halike.2 hno).1
        have hdel : v.isDeleted = (categoryRules st.maindb var).isDeleted := by
          have hfield := congrArg CategoryT.isDeleted hp
          exact hfield
        rw [hno] at hflag
        rw [← hflag, hdel]
        split
        · rfl
        · exact ih _ hc

/-- **`HandleUserCategories` is the model over the rules in the records.** -/
theorem handleUserCategoriesIn_spec {st : SharedTable} (h : Consistent st)
    (idata odata : List Bytes) (merge : Bool) :
    Computes st (handleUserCategoriesIn st idata odata merge)
      (handleUserCategories (categoryRules st.maindb) idata odata merge) :=
  userCategoriesIn_spec idata _ h

/-! ## The same answers -/

/-- Two shared tables answer alike: to logins and session checks, of the permissions and profiles of
    an exter, and in the two handlers that read rules. -/
structure ReadsAgree (st st' : SharedTable) : Prop where
  getSession : ∀ (k : Privileges.Kind) (encode : Encode) (currtime : Nat)
    (username password : Bytes),
    (credGetSession k.get encode currtime st username password).2 =
      (credGetSession k.get encode currtime st' username password).2
  credCheckSession : ∀ (k : Privileges.Kind) (decode : Decode) (currtime : Nat) (data : UserDataT),
    (credCheckSession k.get decode currtime st data).2.map k.pack =
      (credCheckSession k.get decode currtime st' data).2.map k.pack
  checkSession : ∀ (decode : Decode) (currtime : Nat) (data : UserDataT) (onlyadmin : Bool),
    (checkSession decode currtime st data onlyadmin).2.map (Option.map (keptOf data.keytype)) =
      (checkSession decode currtime st' data onlyadmin).2.map
        (Option.map (keptOf data.keytype))
  permissions : ∀ name : Bytes,
    (exterCredGet st { name := name }).map (fun out => permissions out.1) =
      (exterCredGet st' { name := name }).map (fun out => permissions out.1)
  profile : ∀ (name : Bytes) (queryType : Int),
    (exterCredGet st { name := name }).map (fun out => Search.getExterProfile out.1 queryType) =
      (exterCredGet st' { name := name }).map
        (fun out => Search.getExterProfile out.1 queryType)
  tags : ∀ (idata odata : List TagDataT) (keytypes : List KeyTypeE) (merge : Bool),
    (handleUserTagsIn st idata odata keytypes merge).map Prod.fst =
      (handleUserTagsIn st' idata odata keytypes merge).map Prod.fst
  categories : ∀ (idata odata : List Bytes) (merge : Bool),
    (handleUserCategoriesIn st idata odata merge).map Prod.fst =
      (handleUserCategoriesIn st' idata odata merge).map Prod.fst

/-- **Cached and uncached reads agree**: whatever a node's requests have stored, with any two caches
    that were filled from the records stored now. -/
theorem cached_reads_agree {st st' : SharedTable} (hdb : Recorded st.maindb)
    (hsame : st'.maindb = st.maindb) (hc : Filled st) (hc' : Filled st') : ReadsAgree st st' := by
  obtain ⟨hok, hplain⟩ := hdb.plain
  have h : Consistent st := ⟨hok, hplain, hc⟩
  have h' : Consistent st' := ⟨hsame ▸ hok, hsame ▸ hplain, hc'⟩
  refine
    { getSession := getSession_agree h h' hsame
      credCheckSession := credCheckSession_agree h h' hsame
      checkSession := checkSession_agree h h' hsame
      permissions := permissions_agree h h' hsame
      profile := profile_agree h h' hsame
      tags := fun idata odata keytypes merge => ?_
      categories := fun idata odata merge => ?_ }
  · rw [(handleUserTagsIn_spec h idata odata keytypes merge).outcome,
      (handleUserTagsIn_spec h' idata odata keytypes merge).outcome, hsame]
  · rw [(handleUserCategoriesIn_spec h idata odata merge).outcome,
      (handleUserCategoriesIn_spec h' idata odata merge).outcome, hsame]

/-- The first start of a master. -/
def firstStart : SharedTable :=
  (ExterDataService.adminCreateAction { isMaster := true, maindb := freshDb } 0 {}
    { name := defaultAdmin, passkey := str "secret" } false true false {}).1

theorem firstStart_recorded : Recorded firstStart.maindb :=
  @Recorded.created { isMaster := true, maindb := freshDb } .fresh 0 {}
    { name := defaultAdmin, passkey := str "secret" } false true false {}

/-- The log has the entry of the admin. -/
theorem firstStart_log (i : Nat) (hi : firstStart.logcounter < i) :
    firstStart.logdb.get (encodePrimaryKey kLognode i) = none := by
  have hkeys : firstStart.logcounter = 1 ∧ firstStart.logdb.rows.map Prod.fst =
      [encodePrimaryKey kLognode 1, encodeSecondaryKeyTs iLognodeTs 0 1] := by decide +kernel
  rw [hkeys.1] at hi
  by_contra hsome
  obtain ⟨entry, hentry⟩ := Option.ne_none_iff_exists'.mp hsome
  have hmem : encodePrimaryKey kLognode i ∈ firstStart.logdb.rows.map Prod.fst :=
    List.mem_map_of_mem ((OrdMap.get_eq_some_iff _).mp hentry)
  rw [hkeys.2] at hmem
  simp only [encodePrimaryKey, encodeSecondaryKeyTs, List.mem_cons, List.not_mem_nil, reduceCtorEq,
    or_false, Key.primary.injEq, true_and] at hmem
  omega

/-- The master after its first start, before the first request. -/
def started : Requests.IdleMaster where
  st := firstStart
  tables := firstStart_recorded.plain.1
  log := firstStart_log
  master := by decide +kernel
  free := by decide +kernel

/-- What the admin does. -/
def byAdmin (fields : Nat) : Manage where
  updater := { id := 1, name := defaultAdmin, isAdmin := true }
  action := uactionUpsert
  fields := fields

/-- A user and a tag. -/
def annAndColor : ℕ → Option Requests.Request
  | 0 => some (.manage .user (byAdmin udfldPasskey)
      [({ name := str "ann", passkey := str "key" }, {})])
  | 1 => some (.manage .tag (byAdmin 0)
      [({ name := str "color", keytype := kUserdata, isAllowed := true }, {})])
  | _ => none

/-- The two requests at once, to their ends. -/
def bothStored : List Requests.Label :=
  ((List.replicate 6 [0, 1]).flatten ++ List.replicate 5 0 ++ List.replicate 5 1).map
    fun o => { thread := o }

/-- The first login reads the table and leaves a copy; the states before and after it agree. -/
theorem cached_reads_agree_ann :
    ∃ s v st', (Requests.machine annAndColor started).exec ⟨started.st, fun _ => .waiting⟩
        bothStored = some s ∧
      userCredGet s.table { name := str "ann" } = .ok (v, st') ∧ v.notfound = false ∧
      s.table.dbcache.get (encodeSecondaryKey uUserdataName (str "ann")) = none ∧
      (st'.dbcache.get (encodeSecondaryKey uUserdataName (str "ann"))).isSome = true ∧
      ReadsAgree s.table st' := by
  have hrun : ((Requests.machine annAndColor started).exec ⟨started.st, fun _ => .waiting⟩
      bothStored).map (fun s =>
        (s.table.dbcache.rows, (userCredGet s.table { name := str "ann" }).toOption.map fun out =>
          (out.1.notfound,
            (out.2.dbcache.get (encodeSecondaryKey uUserdataName (str "ann"))).isSome))) =
      some ([], some (false, true)) := by decide +kernel
  obtain ⟨s, he, hst⟩ := Option.map_eq_some_iff.mp hrun
  obtain ⟨hempty, hcopy⟩ := Prod.mk.inj hst
  have hcold : ∀ key, s.table.dbcache.get key = none := by
    intro key
    rw [OrdMap.get, hempty]
    rfl
  have hreach : (Requests.machine annAndColor started).Reach s := Machine.Reach.of_exec rfl he
  have hdb : Recorded s.table.maindb := .served firstStart_recorded hreach
  have hfilled : Filled s.table := by
    intro k hash v _ hv
    rw [hcold] at hv
    cases hv
  obtain ⟨hok, hplain⟩ := hdb.plain
  obtain ⟨v, dbcache, hget, hfilled', -⟩ :=
    get_filled .user hok hplain hfilled ({ name := str "ann" } : UserDataT)
  rw [CacheCoherence.get_user] at hget
  rw [hget] at hcopy
  obtain ⟨hflag, hsome⟩ := Prod.mk.inj (Option.some.inj hcopy)
  exact ⟨s, v, { s.table with dbcache := dbcache }, he, hget, hflag, hcold _, hsome,
    cached_reads_agree hdb rfl hfilled hfilled'⟩

end CacheTransparency

end Zapdos.Store
