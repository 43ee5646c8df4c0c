/-
  Session keys — what `GetSession` gives is what `CheckSession` takes.

  THE CRUX.  The record in a key holds the name of the account and the time of the login, and the key
  decodes to it whatever the cipher and the vector are (`decode_encode`).  So a check with the same
  account keys looks at the name and the times only (`getSession_checkSession`).

  The block cipher and `ParseFromString` are parameters, as for forged keys; so is the `Get` that the
  services of users and exters each bring along.
-/
import Zapdos.Crypto.SessionForgery

namespace Zapdos.Crypto

open Zapdos.Lib Zapdos.Store

section

variable {aes : Bytes → Equiv.Perm Block} {parse : Bytes → UserDataT}

/-- A serialized record is parsed to the record; a default value is not written. -/
theorem parse_serialize (hparse : ParsesFields parse) {name : Bytes} (hname : (PayloadField.name name).Valid) {t : ℕ}
    (ht : t < 2 ^ 64) : (parse (serialize name t)).name = name ∧ (parse (serialize name t)).updatedAt = t := by
  -- the fields that are written, as the writer of a message would take them
  obtain ⟨fs, hwrite, hvalid, hset⟩ : ∃ fs : List PayloadField, serialize name t = writeFields fs ∧
      (∀ f ∈ fs, f.Valid) ∧ fs.foldl PayloadField.set {} = { name := name, updatedAt := t } := by
    refine ⟨(if name = [] then [] else [.name name]) ++ (if t = 0 then [] else [.updatedAt t]), ?_, ?_, ?_⟩
    · rw [serialize, writeFields, List.flatMap_append]
      split_ifs <;> simp
    · intro f hf
      rcases List.mem_append.mp hf with hf | hf
      · split_ifs at hf
        · cases hf
        · rw [List.mem_singleton.mp hf]
          exact hname
      · split_ifs at hf
        · cases hf
        · rw [List.mem_singleton.mp hf]
          exact ht
    · by_cases hn : name = [] <;> by_cases h0 : t = 0 <;> simp [hn, h0, PayloadField.set]
  obtain ⟨hn, hu⟩ := hparse fs hvalid
  rw [hwrite, hn, hu, hset]
  exact ⟨rfl, rfl⟩

/-- What a login gives: the password was right, and the key holds the record of the login. -/
theorem credGetSession_eq_ok {get : SharedTable → UserDataT → Except Exc (UserDataT × SharedTable)} {iv : Block}
    {st st₁ : SharedTable} {username password sessionkey : Bytes} {user : UserDataT} {t : ℕ}
    (huser : get st { name := username } = .ok (user, st₁))
    (h : (credGetSession get (encodeSession aes iv) t st username password).2 = .ok sessionkey) :
    user.passkey = password ∧ ∃ seckey, create user.signkey = .ok seckey ∧
      sessionkey = (encode aes seckey iv (serialize user.name t)).2 := by
  rw [credGetSession] at h
  split_ifs at h with hname hpass
  · cases h
  · cases h
  · rw [huser] at h
    dsimp only at h
    split_ifs at h with hbad
    · cases h
    · rw [not_or, not_not] at hbad
      refine ⟨hbad.2, ?_⟩
      cases hcreate : create user.signkey with
      | error e =>
        rw [encodeSession, hcreate] at h
        cases h
      | ok seckey =>
        rw [encodeSession, hcreate] at h
        cases h
        exact ⟨seckey, rfl, rfl⟩

/-- **A session key is good for its lifetime**: when an account shows the key of a login, and the keys
    of the account are still those of the login, the check looks at the name and the times only. -/
theorem getSession_checkSession (hparse : ParsesFields parse)
    {get : SharedTable → UserDataT → Except Exc (UserDataT × SharedTable)} {iv : Block}
    {st st₁ st₂ st₃ : SharedTable} {username password : Bytes} {user data r : UserDataT} {t : ℕ}
    (huser : get st { name := username } = .ok (user, st₁))
    (hlogin : (credGetSession get (encodeSession aes iv) t st username password).2 = .ok data.sessionkey)
    (hkey : data.sessionkey ≠ []) (hname : (PayloadField.name user.name).Valid) (ht : t < 2 ^ 64)
    (hdata : data.name ≠ []) (hget : get st₂ data = .ok (r, st₃)) (hfound : r.notfound = false)
    (hsame : r.signkey = user.signkey) (now : ℕ) :
    user.passkey = password ∧ (credCheckSession get (decodeSession aes parse) now st₂ data).2 =
      if user.name ≠ r.name ∨ now < t then badData "No such user or Invalid session" mInvalidParam
      else if sessionLifetimeMs < now - t then badData "Session Key has Expired" mInvalidParam
      else .ok r := by
  obtain ⟨hpass, seckey, hcreate, hsession⟩ := credGetSession_eq_ok huser hlogin
  refine ⟨hpass, ?_⟩
  -- a key of another length leaves the session key empty
  have hlen : seckey.length = aesBlocksize := by
    by_contra hlen
    rw [encode, if_pos hlen] at hsession
    exact hkey hsession
  obtain ⟨hxname, hxtime⟩ := parse_serialize hparse hname ht
  have hdecode : decodeSession aes parse r.signkey data.sessionkey = .ok (parse (serialize user.name t)) := by
    rw [decodeSession, hsame, hcreate, hsession]
    show Except.ok (parse (decode aes seckey (encode aes seckey iv (serialize user.name t)).2).2) = _
    rw [decode_encode aes hlen]
  rw [credCheckSession, if_neg hdata, if_neg hkey, hget]
  simp only [hfound, hdecode, Bool.false_eq_true, if_false, bind, Except.bind, hxname, hxtime]
  by_cases hn : user.name = r.name
  · rw [if_neg (not_not.mpr hn)]
    -- a key from the future has the answer of a wrong name
    by_cases hnow : now < t
    · rw [if_pos hnow, if_pos (Or.inr hnow)]
    · rw [if_neg hnow, if_neg (not_or.mpr ⟨not_not.mpr hn, hnow⟩)]
      rfl
  · rw [if_pos hn, if_pos (Or.inl hn)]

end

/-- The exter `ann`, whose record is in the cache. -/
def annRecord : UserDataT :=
  { (accountNamed (str "ann") (by decide)).record with passkey := str "secret", keytype := kExterdata }

def annNode : SharedTable where
  dbcache := CacheContainer.setAssoc OrdMap.empty (encodeSecondaryKey uExterdataName (str "ann"))
    (.packed (.user (exterPack annRecord))) false

theorem exterCredGet_ann (data : UserDataT) (h : data.name = str "ann") :
    exterCredGet annNode data = .ok (annRecord, annNode) := by
  rw [exterCredGet, credGet, h]
  rfl

/-- Its session key of 13 September 2020, with the cipher that leaves blocks as they are. -/
def annKey : Bytes :=
  (encode (fun _ => Equiv.refl Block) (str "0123456789abcdef") 0 (serialize (str "ann") 1600000000000)).2

theorem credGetSession_ann : (credGetSession exterCredGet (encodeSession (fun _ => Equiv.refl Block) 0) 1600000000000
    annNode (str "ann") (str "secret")).2 = .ok annKey := by
  have hcreate : create annRecord.signkey = .ok (str "0123456789abcdef") :=
    (accountNamed (str "ann") (by decide)).created
  rw [credGetSession, if_neg (by decide), if_neg (by decide), exterCredGet_ann _ rfl]
  show (if annRecord.notfound ∨ annRecord.passkey ≠ str "secret" then
      badData "No such user or Invalid passkey" mInvalidParam
    else encodeSession _ 0 annRecord.signkey { name := annRecord.name, updatedAt := 1600000000000 }) = _
  rw [if_neg (by decide +kernel), encodeSession, hcreate]
  rfl

/-- The key is good for ten days. -/
theorem getSession_checkSession_ann :
    (credCheckSession exterCredGet (decodeSession (fun _ => Equiv.refl Block) parseFields) 1600864000000 annNode
      { name := str "ann", sessionkey := annKey }).2 = .ok annRecord ∧
    (credCheckSession exterCredGet (decodeSession (fun _ => Equiv.refl Block) parseFields) 1600864000001 annNode
      { name := str "ann", sessionkey := annKey }).2 = badData "Session Key has Expired" mInvalidParam := by
  have hcheck := getSession_checkSession parseFields_ok (exterCredGet_ann { name := str "ann" } rfl) credGetSession_ann
    (by decide +kernel) (validName_of_decide (by decide) (by decide)) (by norm_num) (by decide)
    (exterCredGet_ann { name := str "ann", sessionkey := annKey } rfl) rfl rfl
  refine ⟨(hcheck 1600864000000).2.trans ?_, (hcheck 1600864000001).2.trans ?_⟩
  · rw [if_neg (by decide +kernel), if_neg (by decide +kernel)]
  · rw [if_neg (by decide +kernel), if_pos (by decide +kernel)]

end Zapdos.Crypto
