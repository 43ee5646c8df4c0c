/-
  Session forgery — what can be done to a session key without the secret key of its user.

  A session key is the encoded record of a name and an issue time.  `CheckSession` decodes it with the
  key of the user it is presented for, does not look at whether decoding succeeded, and compares the
  name and the time that the output parses to.

  THE CRUX.  The decryption filter has passed all blocks but the last to its output when it finds the
  padding invalid, and that output is parsed (`decode_forged`).  And the initial vector stands at the
  front of the key unprotected: changing it changes the first block of the record by a known amount
  (`decode_shifted`), and for short names the record is one block.
-/
import Mathlib.Tactic.Abel
import Mathlib.Tactic.NormNum
import Zapdos.Crypto.AES128CBC
import Zapdos.Store.HandleSession
import Zapdos.Utils.B64String

namespace Zapdos.Crypto

open Zapdos.Lib Zapdos.Store

/-! ## Serialized records -/

/-- The loop that writes a base-128 number; `k` more bytes may follow the next. -/
def varintLoop : ℕ → ℕ → Bytes
  | 0, n => [UInt8.ofNat (n % 128)]
  | k + 1, n =>
    if n < 128 then [UInt8.ofNat n] else UInt8.ofNat (n % 128 + 128) :: varintLoop k (n / 128)

/-- A number as the wire format writes it. -/
def varint (n : ℕ) : Bytes := varintLoop 9 n

/-- The two fields of a `UserDataT` that sessions use. -/
inductive PayloadField
  | name (s : Bytes)
  | updatedAt (t : ℕ)
  deriving DecidableEq, Repr

namespace PayloadField

/-- A field on the wire: `name` has number 3 and is a text, `updated_at` has number 98 and is an
    integer. -/
def write : PayloadField → Bytes
  | name s => 26 :: (varint s.length ++ s)
  | updatedAt t => 144 :: 6 :: varint t

/-- The field of a record. -/
def set (u : UserDataT) : PayloadField → UserDataT
  | name s => { u with name := s }
  | updatedAt t => { u with updatedAt := t }

/-- What a record can hold: ASCII texts (as all names are), and integers of 64 bits. -/
def Valid : PayloadField → Prop
  | name s => (∀ c ∈ s, c.toNat < 128) ∧ s.length < 2 ^ 31
  | updatedAt t => t < 2 ^ 64

end PayloadField

def writeFields (fs : List PayloadField) : Bytes := fs.flatMap PayloadField.write

/-- `SerializeToString` of a record with a name and a time; a default value is not written. -/
def serialize (name : Bytes) (t : ℕ) : Bytes :=
  (if name = [] then [] else (PayloadField.name name).write)
    ++ (if t = 0 then [] else (PayloadField.updatedAt t).write)

/-- What `ParseFromString` leaves in a new record, for texts made of these fields: fields may come in
    any order and repeatedly, and the last one of its kind counts. -/
def ParsesFields (parse : Bytes → UserDataT) : Prop :=
  ∀ fs : List PayloadField, (∀ f ∈ fs, f.Valid) →
    (parse (writeFields fs)).name = (fs.foldl PayloadField.set {}).name ∧
      (parse (writeFields fs)).updatedAt = (fs.foldl PayloadField.set {}).updatedAt

/-! ## Sessions -/

/-- `CryptoTraits::Create` from the two keys of a record: the secret key.  (The exception for a text
    that is no base 64 is not one of the store's own.) -/
def create (signkey : SignKeyT) : Except Exc Bytes :=
  if signkey.algo = str "aes-128-cbc" then
    match Utils.B64String.decode signkey.seckey with
    | .ok seckey => .ok seckey
    | .error _ => badCode "attempt to decode a value not in base64 char set"
  else badCode "Bogus Algo in Create 2 keys"

section

variable (aes : Bytes → Equiv.Perm Block) (parse : Bytes → UserDataT)

/-- What `GetSession` makes of a record, with the initial vector that `Encode` drew. -/
def encodeSession (iv : Block) : Encode := fun signkey xuser => do
  let seckey ← create signkey
  pure (encode aes seckey iv (serialize xuser.name xuser.updatedAt)).2

/-- What `CheckSession` makes of a session key: the result of `Decode` is not looked at. -/
def decodeSession : Decode := fun signkey sessionkey => do
  let seckey ← create signkey
  pure (parse (decode aes seckey sessionkey).2)

end

/-- A stored account with a usable key. -/
structure Account where
  record : UserDataT
  seckey : Bytes
  created : create record.signkey = .ok seckey
  length : seckey.length = aesBlocksize
  found : record.notfound = false
  name_ne_nil : record.name ≠ []

namespace Account

variable (aes : Bytes → Equiv.Perm Block) (parse : Bytes → UserDataT) (a : Account)

/-- The session key issued to the account at time `t`. -/
def issued (iv : Block) (t : ℕ) : Bytes :=
  (encode aes a.seckey iv (serialize a.record.name t)).2

/-- `CheckSession` for the account, once its record is fetched. -/
def check (now : ℕ) (st : SharedTable) (sessionkey : Bytes) : Except Exc UserDataT :=
  (credCheckSession (fun st _ => .ok (a.record, st)) (decodeSession aes parse) now st
    { name := a.record.name, sessionkey := sessionkey }).2

/-- The session key is accepted for the account. -/
def Accepts (now : ℕ) (sessionkey : Bytes) : Prop :=
  ∀ st, a.check aes parse now st sessionkey = .ok a.record

/-- The session key is rejected as expired. -/
def Expires (now : ℕ) (sessionkey : Bytes) : Prop :=
  ∀ st, a.check aes parse now st sessionkey = badData "Session Key has Expired" mInvalidParam

/-- The session key is what `GetSession` encodes. -/
theorem encodeSession_issued (iv : Block) (t : ℕ) :
    encodeSession aes iv a.record.signkey { name := a.record.name, updatedAt := t } =
      .ok (a.issued aes iv t) := by
  rw [encodeSession, a.created]
  rfl

/-- The check of a service is this one, whatever way it gets the record. -/
theorem credCheckSession_eq {get : SharedTable → UserDataT → Except Exc (UserDataT × SharedTable)}
    {st st' : SharedTable} {data : UserDataT} (hget : get st data = .ok (a.record, st'))
    (hname : data.name ≠ []) (now : ℕ) :
    (credCheckSession get (decodeSession aes parse) now st data).2 =
      a.check aes parse now st data.sessionkey := by
  rw [check, credCheckSession, credCheckSession, if_neg hname, if_neg a.name_ne_nil]
  by_cases hkey : data.sessionkey = []
  · rw [if_pos hkey, if_pos hkey]
  · rw [if_neg hkey, if_neg hkey, hget]

/-- What a check comes to. -/
theorem check_eq {sessionkey : Bytes} (h : sessionkey ≠ []) (now : ℕ) (st : SharedTable) :
    a.check aes parse now st sessionkey =
      let xuser := parse (decode aes a.seckey sessionkey).2
      if xuser.name ≠ a.record.name then badData "No such user or Invalid session" mInvalidParam
      else if xuser.updatedAt > now then badData "No such user or Invalid session" mInvalidParam
      else if now - xuser.updatedAt > sessionLifetimeMs then
        badData "Session Key has Expired" mInvalidParam
      else .ok a.record := by
  rw [check, credCheckSession, if_neg a.name_ne_nil, if_neg h]
  simp only [a.found, Bool.false_eq_true, if_false]
  rw [decodeSession, a.created]
  rfl

end Account

/-- **Sessions cannot be forged or revived** for accounts with this name: without the key nobody makes
    an accepted key of an expired one or of another account's, and what does not decode is not
    accepted. -/
structure Unforgeable (parse : Bytes → UserDataT) (name : Bytes) (now : ℕ) : Prop where
  revive : ∀ t, ¬ ∃ change : Bytes → Bytes → ℕ → Bytes, ∀ aes (a : Account), a.record.name = name →
    ∀ iv, a.Expires aes parse now (a.issued aes iv t) ∧
      a.Accepts aes parse now (change (a.issued aes iv t) name t)
  transfer : ∀ other t, other ≠ name → ¬ ∃ change : Bytes → Bytes → ℕ → Bytes,
    ∀ aes (a b : Account), a.record.name = other → b.record.name = name →
      ∀ iv, b.Accepts aes parse now (change (a.issued aes iv t) other t)
  failed : ∀ aes (a : Account), a.record.name = name → ∀ sessionkey,
    (decode aes a.seckey sessionkey).1 = false → ¬ a.Accepts aes parse now sessionkey

/-! ## What is accepted -/

section

variable {aes : Bytes → Equiv.Perm Block} {parse : Bytes → UserDataT} (a : Account)

/-- A session key that decodes to the name and a time within the lifetime is accepted. -/
theorem Account.accepts_of_fields (hparse : ParsesFields parse) {sessionkey : Bytes}
    (hkey : sessionkey ≠ []) {fs : List PayloadField} (hfs : ∀ f ∈ fs, f.Valid)
    (hout : (decode aes a.seckey sessionkey).2 = writeFields fs) {t now : ℕ}
    (hset : fs.foldl PayloadField.set {} = { name := a.record.name, updatedAt := t })
    (ht : t ≤ now) (hlife : now - t ≤ sessionLifetimeMs) :
    a.Accepts aes parse now sessionkey := by
  intro st
  obtain ⟨hname, htime⟩ := hparse fs hfs
  rw [hset] at hname htime
  rw [a.check_eq aes parse hkey]
  simp only [hout, hname, htime]
  rw [if_neg (by simp), if_neg (by omega), if_neg (by omega)]

/-- One that decodes to the name and an old time is expired. -/
theorem Account.expires_of_fields (hparse : ParsesFields parse) {sessionkey : Bytes}
    (hkey : sessionkey ≠ []) {fs : List PayloadField} (hfs : ∀ f ∈ fs, f.Valid)
    (hout : (decode aes a.seckey sessionkey).2 = writeFields fs) {t now : ℕ}
    (hset : fs.foldl PayloadField.set {} = { name := a.record.name, updatedAt := t })
    (hold : t + sessionLifetimeMs < now) :
    a.Expires aes parse now sessionkey := by
  intro st
  obtain ⟨hname, htime⟩ := hparse fs hfs
  rw [hset] at hname htime
  rw [a.check_eq aes parse hkey]
  simp only [hout, hname, htime]
  rw [if_neg (by simp), if_neg (by omega), if_pos (by omega)]

/-- A key with a ciphertext goes through the filter. -/
theorem Account.decode_eq (iv : Block) {data : Bytes} (h : data ≠ []) :
    decode aes a.seckey (iv.toBytes ++ base64Encode data) =
      decryptFilter (aes a.seckey) iv data := by
  have hlen : ¬ a.seckey.length ≠ aesBlocksize := not_not.mpr a.length
  have hpos : 0 < data.length := List.length_pos_iff.mpr h
  have hlong : ¬ (iv.toBytes ++ base64Encode data).length ≤ aesBlocksize := by
    have hle := length_le_base64Encode data
    rw [List.length_append, Block.length_toBytes]
    show ¬ _ ≤ 16
    omega
  have htake : (iv.toBytes ++ base64Encode data).take aesBlocksize = iv.toBytes :=
    List.take_left' iv.length_toBytes
  have hdrop : (iv.toBytes ++ base64Encode data).drop aesBlocksize = base64Encode data :=
    List.drop_left' iv.length_toBytes
  rw [decode, if_neg hlen, if_neg hlong, htake, hdrop, Block.ofBytes_toBytes,
    base64Decode_base64Encode]

theorem key_ne_nil (iv : Block) (text : Bytes) : iv.toBytes ++ text ≠ [] := by
  intro he
  have hlen := congrArg List.length he
  rw [List.length_append, Block.length_toBytes] at hlen
  simp at hlen

/-! ## A failed decoding -/

/-- The key that decodes to these blocks and then to one without padding. -/
def forged (aes : Bytes → Equiv.Perm Block) (a : Account) (iv : Block) (ps : List Block) : Bytes :=
  iv.toBytes ++ base64Encode (bytesOf (cbcEncrypt (aes a.seckey) iv (ps ++ [0])))

/-- Its decoding fails, and leaves the blocks in the output. -/
theorem decode_forged (iv : Block) (ps : List Block) :
    decode aes a.seckey (forged aes a iv ps) = (false, bytesOf ps) := by
  have hne : bytesOf (cbcEncrypt (aes a.seckey) iv (ps ++ [0])) ≠ [] := by
    intro he
    have hlen := congrArg List.length he
    rw [length_bytesOf, length_cbcEncrypt] at hlen
    simp at hlen
  rw [forged, a.decode_eq iv hne, cbcEncrypt_append]
  show decryptFilter _ iv (bytesOf (_ ++ [aes a.seckey (0 + _)])) = _
  rw [decryptFilter_blocks, Equiv.symm_apply_apply, add_sub_cancel_right, unpad_zero,
    cbcDecrypt_cbcEncrypt]

/-- Fields for a name and a time that fill whole blocks: an earlier name takes up the rest. -/
def fullFields (name : Bytes) (t : ℕ) : List PayloadField :=
  let rest := (writeFields [.name name, .updatedAt t]).length
  [.name (List.replicate (16 - (2 + rest) % 16) 97), .name name, .updatedAt t]

theorem length_fullFields (name : Bytes) (t : ℕ) :
    ∃ n, (writeFields (fullFields name t)).length = 16 * n := by
  rw [fullFields]
  generalize hrest : (writeFields [.name name, .updatedAt t]).length = rest
  have hk : 16 - (2 + rest) % 16 < 128 := by omega
  have hvar : varint (16 - (2 + rest) % 16) = [UInt8.ofNat (16 - (2 + rest) % 16)] := by
    rw [varint, varintLoop, if_pos hk]
  have hlen : (writeFields [.name (List.replicate (16 - (2 + rest) % 16) 97), .name name,
      .updatedAt t]).length = 2 + (16 - (2 + rest) % 16) + rest := by
    rw [← hrest, writeFields, List.flatMap_cons, List.length_append]
    show (26 :: (varint (List.replicate (16 - (2 + _) % 16) 97).length ++ _)).length + _ = _
    rw [hrest, List.length_replicate, hvar]
    simp only [List.length_cons, List.length_append, List.length_nil, List.length_replicate,
      writeFields] at hrest ⊢
    omega
  rw [hlen]
  exact ⟨(2 + (16 - (2 + rest) % 16) + rest) / 16, by omega⟩

theorem fullFields_valid {name : Bytes} {t : ℕ} (hname : (PayloadField.name name).Valid)
    (ht : t < 2 ^ 64) : ∀ f ∈ fullFields name t, f.Valid := by
  intro f hf
  simp only [fullFields, List.mem_cons, List.not_mem_nil, or_false] at hf
  rcases hf with rfl | rfl | rfl
  · refine ⟨fun c hc => ?_, ?_⟩
    · rw [List.eq_of_mem_replicate hc]
      decide
    · rw [List.length_replicate]
      omega
  · exact hname
  · exact ht

/-- **A key that does not decode is accepted**, for every account, cipher and time. -/
theorem accepts_forged (hparse : ParsesFields parse)
    (hname : (PayloadField.name a.record.name).Valid) {now : ℕ} (hnow : now < 2 ^ 64) (iv : Block) :
    ∃ sessionkey, (decode aes a.seckey sessionkey).1 = false ∧
      a.Accepts aes parse now sessionkey := by
  obtain ⟨n, hn⟩ := length_fullFields a.record.name now
  have hdec : decode aes a.seckey (forged aes a iv (blocks n (writeFields
      (fullFields a.record.name now)))) = (false, bytesOf (blocks n (writeFields
        (fullFields a.record.name now)))) := decode_forged a iv _
  rw [bytesOf_blocks hn] at hdec
  refine ⟨_, congrArg Prod.fst hdec, ?_⟩
  exact a.accepts_of_fields hparse (key_ne_nil iv _) (fullFields_valid hname hnow)
    (congrArg Prod.snd hdec) rfl le_rfl (by rw [Nat.sub_self]; exact Nat.zero_le _)

/-! ## A changed initial vector -/

/-- A record of one block, encoded. -/
theorem encryptFilter_short {E : Equiv.Perm Block} (iv : Block) {data : Bytes}
    (h : data.length < 16) :
    encryptFilter E iv data = bytesOf [E (Block.ofBytes (pad data) + iv)] := by
  have hlen : (pad data).length = 16 := by
    rw [pad, List.length_append, List.length_replicate]
    omega
  rw [encryptFilter, hlen]
  show bytesOf (cbcEncrypt E iv [Block.ofBytes ((pad data).take 16)]) = _
  rw [List.take_of_length_le hlen.le]
  rfl

/-- The block of a short record keeps the record. -/
theorem unpad_ofBytes_pad {data : Bytes} (h : data.length < 16) :
    unpad (Block.ofBytes (pad data)).toBytes = some data := by
  have hmod : data.length % 16 = data.length := Nat.mod_eq_of_lt h
  have hlen : (pad data).length = 16 := by
    rw [pad, List.length_append, List.length_replicate]
    omega
  rw [Block.toBytes_ofBytes hlen, pad, hmod]
  exact unpad_pad h

/-- The change that turns the record of an issue time into that of another: exclusive or of the two
    blocks on the initial vector. -/
def renew (now : ℕ) (sessionkey name : Bytes) (t : ℕ) : Bytes :=
  (Block.ofBytes (sessionkey.take 16) - (Block.ofBytes (pad (serialize name now))
      - Block.ofBytes (pad (serialize name t)))).toBytes
    ++ sessionkey.drop 16

/-- A key issued for a short name. -/
theorem Account.issued_short (iv : Block) {t : ℕ} (h : (serialize a.record.name t).length < 16) :
    a.issued aes iv t = iv.toBytes ++ base64Encode
      (bytesOf [aes a.seckey (Block.ofBytes (pad (serialize a.record.name t)) + iv)]) := by
  have hlen : ¬ a.seckey.length ≠ aesBlocksize := not_not.mpr a.length
  rw [Account.issued, encode, if_neg hlen]
  show iv.toBytes ++ base64Encode (encryptFilter _ iv _) = _
  rw [encryptFilter_short iv h]

theorem bytesOf_singleton_ne_nil (c : Block) : bytesOf [c] ≠ [] := by
  intro he
  have hlen := congrArg List.length he
  rw [length_bytesOf] at hlen
  simp at hlen

/-- An issued key decodes to its record. -/
theorem decode_issued (iv : Block) (t : ℕ) :
    decode aes a.seckey (a.issued aes iv t) = (true, serialize a.record.name t) :=
  decode_encode aes a.length iv _

/-- A renewed key decodes to the record of the new time. -/
theorem decode_shifted (iv : Block) {t now : ℕ} (h : (serialize a.record.name t).length < 16)
    (h' : (serialize a.record.name now).length < 16) :
    decode aes a.seckey (renew now (a.issued aes iv t) a.record.name t) =
      (true, serialize a.record.name now) := by
  rw [a.issued_short iv h, renew, List.take_left' iv.length_toBytes,
    List.drop_left' iv.length_toBytes, Block.ofBytes_toBytes,
    a.decode_eq _ (bytesOf_singleton_ne_nil _)]
  refine decryptFilter_single _ ?_
  -- the old record goes out of the block and the new one comes in
  have hblock : ∀ p p' : Block, p + iv - (iv - (p' - p)) = p' := by
    intro p p'
    abel
  rw [Equiv.symm_apply_apply, hblock]
  exact unpad_ofBytes_pad h'

theorem serialize_eq {name : Bytes} (hname : name ≠ []) {t : ℕ} (ht : t ≠ 0) :
    serialize name t = writeFields [.name name, .updatedAt t] := by
  rw [serialize, if_neg hname, if_neg ht]
  simp [writeFields]

/-- **An expired key is revived**, for every account whose records are short enough. -/
theorem revived (hparse : ParsesFields parse) (hname : (PayloadField.name a.record.name).Valid)
    {t now : ℕ} (ht : t ≠ 0) (hold : t + sessionLifetimeMs < now) (hnow : now < 2 ^ 64)
    (h : (serialize a.record.name t).length < 16) (h' : (serialize a.record.name now).length < 16)
    (iv : Block) :
    a.Expires aes parse now (a.issued aes iv t) ∧
      a.Accepts aes parse now (renew now (a.issued aes iv t) a.record.name t) := by
  have hvalid : ∀ u, u < 2 ^ 64 →
      ∀ f ∈ [PayloadField.name a.record.name, .updatedAt u], f.Valid := by
    intro u hu f hf
    rcases List.mem_cons.mp hf with rfl | hf
    · exact hname
    · rw [List.mem_singleton.mp hf]
      exact hu
  constructor
  · have hdec : (decode aes a.seckey (a.issued aes iv t)).2 = serialize a.record.name t :=
      congrArg Prod.snd (decode_issued a iv t)
    rw [serialize_eq a.name_ne_nil ht] at hdec
    refine a.expires_of_fields hparse ?_ (hvalid t (by omega)) hdec rfl hold
    rw [a.issued_short iv h]
    exact key_ne_nil iv _
  · have hdec : (decode aes a.seckey (renew now (a.issued aes iv t) a.record.name t)).2 =
        serialize a.record.name now := congrArg Prod.snd (decode_shifted a iv h h')
    rw [serialize_eq a.name_ne_nil (by omega : now ≠ 0)] at hdec
    exact a.accepts_of_fields hparse (key_ne_nil _ _) (hvalid now hnow) hdec rfl le_rfl
      (by rw [Nat.sub_self]; exact Nat.zero_le _)

end

/-! ## The result -/

/-- An account with this name. -/
def accountNamed (name : Bytes) (h : name ≠ []) : Account where
  record :=
    { name := name
      signkey := { algo := str "aes-128-cbc", seckey := str "MDEyMzQ1Njc4OWFiY2RlZg==" } }
  seckey := str "0123456789abcdef"
  created := by
    have hkey : Utils.B64String.decode (str "MDEyMzQ1Njc4OWFiY2RlZg==") =
        .ok (str "0123456789abcdef") := by decide +kernel
    rw [create, if_pos rfl, hkey]
  length := by decide
  found := rfl
  name_ne_nil := h

theorem not_unforgeable {parse : Bytes → UserDataT} (hparse : ParsesFields parse) {name : Bytes}
    (hne : name ≠ []) (hname : (PayloadField.name name).Valid) {now : ℕ} (hnow : now < 2 ^ 64) :
    ¬ Unforgeable parse name now := by
  intro h
  obtain ⟨sessionkey, hfail, haccept⟩ : ∃ sessionkey,
      (decode (fun _ => Equiv.refl Block) (accountNamed name hne).seckey sessionkey).1 = false ∧
        (accountNamed name hne).Accepts (fun _ => Equiv.refl Block) parse now sessionkey :=
    accepts_forged (accountNamed name hne) hparse hname hnow 0
  exact h.failed _ (accountNamed name hne) rfl sessionkey hfail haccept

/-- An expired key of an account with this name can be turned into an accepted one. -/
def Revivable (parse : Bytes → UserDataT) (name : Bytes) (t now : ℕ) : Prop :=
  ∃ change : Bytes → Bytes → ℕ → Bytes, ∀ aes (a : Account), a.record.name = name →
    ∀ iv, a.Expires aes parse now (a.issued aes iv t) ∧
      a.Accepts aes parse now (change (a.issued aes iv t) name t)

theorem revivable {parse : Bytes → UserDataT} (hparse : ParsesFields parse) {name : Bytes}
    (hname : (PayloadField.name name).Valid) {t now : ℕ} (ht : t ≠ 0)
    (hold : t + sessionLifetimeMs < now) (hnow : now < 2 ^ 64)
    (h : (serialize name t).length < 16) (h' : (serialize name now).length < 16) :
    Revivable parse name t now := by
  refine ⟨renew now, fun aes a ha iv => ?_⟩
  subst ha
  exact revived a hparse hname ht hold hnow h h' iv

/-- **Sessions are forgeable** for every name and at every time: whatever the cipher and the key, some
    text that does not decode is accepted.  For names so short that the record is one block, expired
    keys can be revived as well. -/
theorem sessions_forgeable {parse : Bytes → UserDataT} (hparse : ParsesFields parse) {name : Bytes}
    (hne : name ≠ []) (hname : (PayloadField.name name).Valid) {now : ℕ} (hnow : now < 2 ^ 64) :
    ¬ Unforgeable parse name now ∧
      (∀ aes (a : Account), a.record.name = name → ∃ sessionkey,
        (decode aes a.seckey sessionkey).1 = false ∧ a.Accepts aes parse now sessionkey) ∧
      ∀ t, t ≠ 0 → t + sessionLifetimeMs < now → (serialize name t).length < 16 →
        (serialize name now).length < 16 → Revivable parse name t now := by
  refine ⟨not_unforgeable hparse hne hname hnow, ?_, ?_⟩
  · intro aes a ha
    subst ha
    exact accepts_forged a hparse hname hnow 0
  · intro t ht hold h h'
    exact revivable hparse hname ht hold hnow h h'

/-! ### A parser -/

/-- Reads a base-128 number of at most `k` bytes. -/
def readVarint : ℕ → Bytes → Option (ℕ × Bytes)
  | 0, _ => none
  | _ + 1, [] => none
  | k + 1, c :: cs =>
    if c.toNat < 128 then some (c.toNat, cs)
    else (readVarint k cs).map fun (n, rest) => (c.toNat - 128 + 128 * n, rest)

/-- Reads one of the two fields. -/
def readField : Bytes → Option (PayloadField × Bytes)
  | [] => none
  | c :: cs =>
    if c = 26 then
      (readVarint 10 cs).bind fun (n, rest) =>
        if n ≤ rest.length then some (.name (rest.take n), rest.drop n) else none
    else if c = 144 ∧ cs.head? = some 6 then
      (readVarint 10 cs.tail).map fun (t, rest) => (.updatedAt t, rest)
    else none

/-- Reads fields up to the first that is not one of the two. -/
def readFields : ℕ → Bytes → UserDataT → UserDataT
  | 0, _, u => u
  | fuel + 1, bytes, u =>
    match readField bytes with
    | none => u
    | some (f, rest) => readFields fuel rest (f.set u)

/-- `ParseFromString`, of a text that has only these fields. -/
def parseFields (bytes : Bytes) : UserDataT := readFields bytes.length bytes {}

theorem readVarint_varintLoop {k n : ℕ} (h : n < 128 ^ (k + 1)) (rest : Bytes) :
    readVarint (k + 1) (varintLoop k n ++ rest) = some (n, rest) := by
  induction k generalizing n with
  | zero =>
    have hlt : n < 128 := by simpa using h
    have hbyte : (UInt8.ofNat n).toNat = n := UInt8.toNat_ofNat_of_lt' (show n < 256 by omega)
    rw [varintLoop, Nat.mod_eq_of_lt hlt, List.singleton_append, readVarint, hbyte, if_pos hlt]
  | succ k ih =>
    rw [varintLoop]
    by_cases hlt : n < 128
    · have hbyte : (UInt8.ofNat n).toNat = n := UInt8.toNat_ofNat_of_lt' (show n < 256 by omega)
      rw [if_pos hlt, List.singleton_append, readVarint, hbyte, if_pos hlt]
    · have hbyte : (UInt8.ofNat (n % 128 + 128)).toNat = n % 128 + 128 :=
        UInt8.toNat_ofNat_of_lt' (show n % 128 + 128 < 256 by omega)
      have hdiv : n / 128 < 128 ^ (k + 1) := by
        rw [Nat.div_lt_iff_lt_mul (by decide), ← pow_succ]
        exact h
      rw [if_neg hlt, List.cons_append, readVarint, hbyte, if_neg (by omega), ih hdiv]
      show some (n % 128 + 128 - 128 + 128 * (n / 128), rest) = some (n, rest)
      rw [show n % 128 + 128 - 128 + 128 * (n / 128) = n by omega]

theorem readVarint_varint {n : ℕ} (h : n < 2 ^ 64) (rest : Bytes) :
    readVarint 10 (varint n ++ rest) = some (n, rest) := by
  refine readVarint_varintLoop (lt_trans h ?_) rest
  norm_num

theorem readField_write {f : PayloadField} (h : f.Valid) (rest : Bytes) :
    readField (f.write ++ rest) = some (f, rest) := by
  cases f with
  | name s =>
    have hlen : s.length < 2 ^ 64 := lt_trans h.2 (by norm_num)
    rw [PayloadField.write, List.cons_append, readField, if_pos rfl, List.append_assoc,
      readVarint_varint hlen]
    show (if s.length ≤ (s ++ rest).length then _ else _) = _
    rw [if_pos (by simp), List.take_left, List.drop_left]
  | updatedAt t =>
    rw [PayloadField.write, List.cons_append, readField, if_neg (by decide), if_pos ⟨rfl, rfl⟩]
    show (readVarint 10 (varint t ++ rest)).map _ = _
    rw [readVarint_varint h]
    rfl

theorem readFields_writeFields {fs : List PayloadField} (h : ∀ f ∈ fs, f.Valid) {fuel : ℕ}
    (hfuel : fs.length ≤ fuel) (u : UserDataT) :
    readFields fuel (writeFields fs) u = fs.foldl PayloadField.set u := by
  induction fs generalizing fuel u with
  | nil => cases fuel <;> rfl
  | cons f fs ih =>
    cases fuel with
    | zero => simp at hfuel
    | succ fuel =>
      have htail := ih (fun g hg => h g (List.mem_cons_of_mem f hg))
        (Nat.le_of_succ_le_succ hfuel) (f.set u)
      rw [readFields, writeFields, List.flatMap_cons, readField_write (h f List.mem_cons_self)]
      exact htail

theorem length_le_writeFields (fs : List PayloadField) : fs.length ≤ (writeFields fs).length := by
  induction fs with
  | nil => exact le_rfl
  | cons f fs ih =>
    have hpos : 1 ≤ f.write.length := by
      cases f <;> exact Nat.succ_le_of_lt (Nat.succ_pos _)
    rw [writeFields, List.flatMap_cons, List.length_append, List.length_cons]
    show fs.length + 1 ≤ f.write.length + (writeFields fs).length
    omega

theorem parseFields_ok : ParsesFields parseFields := by
  intro fs h
  have hread := readFields_writeFields h (length_le_writeFields fs) {}
  rw [parseFields, hread]
  exact ⟨rfl, rfl⟩

theorem validName_of_decide {s : Bytes} (h : (s.all fun c => c.toNat < 128) = true)
    (hlen : s.length < 2 ^ 31) : (PayloadField.name s).Valid :=
  ⟨fun c hc => by simpa using List.all_eq_true.mp h c hc, hlen⟩

/-- A user with a long name. -/
theorem long_name_forgeable :
    ¬ Unforgeable parseFields (str "somebody.with-a.long_name") 1700000000000 ∧
      (∀ aes (a : Account), a.record.name = str "somebody.with-a.long_name" → ∃ sessionkey,
        (decode aes a.seckey sessionkey).1 = false ∧
          a.Accepts aes parseFields 1700000000000 sessionkey) ∧
      ∀ t, t ≠ 0 → t + sessionLifetimeMs < 1700000000000 →
        (serialize (str "somebody.with-a.long_name") t).length < 16 →
        (serialize (str "somebody.with-a.long_name") 1700000000000).length < 16 →
        Revivable parseFields (str "somebody.with-a.long_name") t 1700000000000 :=
  sessions_forgeable parseFields_ok (by decide) (validName_of_decide (by decide) (by decide))
    (by norm_num)

/-- The key of `ann` from September 2020, presented in November 2023. -/
theorem expired_key_revived : ¬ Unforgeable parseFields (str "ann") 1700000000000 := by
  intro h
  refine h.revive 1600000000000 (revivable parseFields_ok
    (validName_of_decide (by decide) (by decide)) (by norm_num) ?_ (by norm_num) (by decide)
    (by decide))
  rw [sessionLifetimeMs]
  norm_num

end Zapdos.Crypto
