/-
  `AES128CBC` — the signer: `Encode` and `Decode` over the filters of the cipher library.

  An encoded text is the initial vector as it is, followed by the ciphertext in base 64.  Nothing in
  it tells whether it was changed.

  The block cipher is a keyed permutation `aes` of blocks of 16 bytes.  The decryption filter passes
  every block but the last to its sink when it comes, and looks at the padding of the last one at the
  end of the message; when it throws then, the sink has what was passed on before.
-/
import Mathlib.Data.List.GetD
import Zapdos.Crypto.Base64
import Zapdos.Lib.Cbc

namespace Zapdos.Crypto

open Zapdos.Lib Zapdos.Store

/-! ## Blocks -/

/-- A block of 16 bytes, with exclusive or as its addition. -/
@[ext] structure Block where
  byte : Fin 16 → UInt8
  deriving DecidableEq

namespace Block

instance : Add Block := ⟨fun a b => ⟨fun i => a.byte i ^^^ b.byte i⟩⟩

instance : Zero Block := ⟨⟨fun _ => 0⟩⟩

instance : Neg Block := ⟨fun a => a⟩

instance : AddCommGroup Block where
  nsmul := nsmulRec
  zsmul := zsmulRec
  add_assoc a b c := Block.ext (funext fun i => UInt8.xor_assoc (a.byte i) (b.byte i) (c.byte i))
  zero_add a := Block.ext (funext fun i => UInt8.zero_xor)
  add_zero a := Block.ext (funext fun i => UInt8.xor_zero)
  add_comm a b := Block.ext (funext fun i => UInt8.xor_comm (a.byte i) (b.byte i))
  neg_add_cancel a := Block.ext (funext fun i => UInt8.xor_self)

def toBytes (b : Block) : Bytes := List.ofFn b.byte

def ofBytes (l : Bytes) : Block := ⟨fun i => l.getD i 0⟩

@[simp] theorem length_toBytes (b : Block) : b.toBytes.length = 16 := List.length_ofFn

@[simp] theorem ofBytes_toBytes (b : Block) : ofBytes b.toBytes = b := by
  refine Block.ext (funext fun i => ?_)
  have hi : i.1 < (List.ofFn b.byte).length := by rw [List.length_ofFn]; exact i.2
  show (List.ofFn b.byte).getD i 0 = b.byte i
  rw [List.getD_eq_getElem _ _ hi, List.getElem_ofFn]

theorem toBytes_ofBytes {l : Bytes} (h : l.length = 16) : (ofBytes l).toBytes = l := by
  refine List.ext_getElem (by rw [length_toBytes, h]) fun i h1 h2 => ?_
  rw [List.getElem_of_eq (show (ofBytes l).toBytes = List.ofFn fun j : Fin 16 => l.getD j.1 0
    from rfl), List.getElem_ofFn, List.getD_eq_getElem _ _ h2]

end Block

/-- The first `n` blocks of a text. -/
def blocks : ℕ → Bytes → List Block
  | 0, _ => []
  | n + 1, l => Block.ofBytes (l.take 16) :: blocks n (l.drop 16)

@[simp] theorem length_blocks (n : ℕ) (l : Bytes) : (blocks n l).length = n := by
  induction n generalizing l with
  | zero => rfl
  | succ n ih => rw [blocks, List.length_cons, ih]

/-- The text of a list of blocks. -/
def bytesOf (bs : List Block) : Bytes := bs.flatMap Block.toBytes

@[simp] theorem length_bytesOf (bs : List Block) : (bytesOf bs).length = 16 * bs.length := by
  induction bs with
  | nil => rfl
  | cons b bs ih =>
    rw [bytesOf, List.flatMap_cons, List.length_append, Block.length_toBytes, List.length_cons]
    show 16 + (bytesOf bs).length = _
    omega

theorem bytesOf_append (bs cs : List Block) : bytesOf (bs ++ cs) = bytesOf bs ++ bytesOf cs :=
  List.flatMap_append

theorem blocks_bytesOf (bs : List Block) (rest : Bytes) :
    blocks bs.length (bytesOf bs ++ rest) = bs := by
  induction bs with
  | nil => rfl
  | cons b bs ih =>
    have happ : bytesOf (b :: bs) ++ rest = b.toBytes ++ (bytesOf bs ++ rest) := by
      rw [bytesOf, List.flatMap_cons, List.append_assoc]
      rfl
    rw [happ, List.length_cons, blocks, List.take_left' (Block.length_toBytes b),
      List.drop_left' (Block.length_toBytes b), Block.ofBytes_toBytes, ih]

theorem bytesOf_blocks {n : ℕ} {l : Bytes} (h : l.length = 16 * n) : bytesOf (blocks n l) = l := by
  induction n generalizing l with
  | zero => rw [List.length_eq_zero_iff.mp (by omega : l.length = 0)]; rfl
  | succ n ih =>
    have htake : (l.take 16).length = 16 := by rw [List.length_take]; omega
    have hdrop : (l.drop 16).length = 16 * n := by rw [List.length_drop]; omega
    show (Block.ofBytes (l.take 16)).toBytes ++ bytesOf (blocks n (l.drop 16)) = l
    rw [Block.toBytes_ofBytes htake, ih hdrop, List.take_append_drop]

/-! ## Padding -/

/-- `PKCS_PADDING` of a text: one to sixteen bytes that tell how many they are. -/
def pad (data : Bytes) : Bytes :=
  data ++ List.replicate (16 - data.length % 16) (UInt8.ofNat (16 - data.length % 16))

/-- The last block without its padding; none when the padding is invalid. -/
def unpad (block : Bytes) : Option Bytes :=
  let p := (block.getLastD 0).toNat
  if 1 ≤ p ∧ p ≤ 16 ∧ (block.drop (16 - p)).all (fun c => c == UInt8.ofNat p) then
    some (block.take (16 - p))
  else none

theorem unpad_pad {rest : Bytes} (h : rest.length < 16) :
    unpad (rest ++ List.replicate (16 - rest.length) (UInt8.ofNat (16 - rest.length))) =
      some rest := by
  obtain ⟨k, hk⟩ : ∃ k, 16 - rest.length = k + 1 := ⟨15 - rest.length, by omega⟩
  have hp : (UInt8.ofNat (k + 1)).toNat = k + 1 := 
    UInt8.toNat_ofNat_of_lt' (show k + 1 < 256 by omega)
  have hlast : (rest ++ List.replicate (k + 1) (UInt8.ofNat (k + 1))).getLastD 0 =
      UInt8.ofNat (k + 1) := by
    rw [List.replicate_succ', ← List.append_assoc, List.getLastD_concat]
  have hlen : 16 - (k + 1) = rest.length := by omega
  rw [hk, unpad]
  simp only [hlast, hp, hlen, List.drop_left, List.take_left]
  rw [if_pos ⟨by omega, by omega, by simp⟩]

theorem unpad_zero : unpad (Block.toBytes 0) = none := by decide +kernel

/-! ## The filters -/

section

variable (E : Equiv.Perm Block)

/-- `StreamTransformationFilter` on an encryptor. -/
def encryptFilter (iv : Block) (data : Bytes) : Bytes :=
  bytesOf (cbcEncrypt E iv (blocks ((pad data).length / 16) (pad data)))

/-- `StreamTransformationFilter` on a decryptor: whether it ends without an exception, and what its
    sink has then.  The last 16 bytes are held back until the end, with up to 15 that follow a last
    whole block. -/
def decryptFilter (iv : Block) (data : Bytes) : Bool × Bytes :=
  let n := (data.length - 16) / 16
  let passed := bytesOf (cbcDecrypt E iv (blocks n data))
  let last := data.drop (16 * n)
  if last.length = 16 then
    match unpad (E.symm (Block.ofBytes last) - cbcLast iv (blocks n data)).toBytes with
    | none => (false, passed)
    | some rest => (true, passed ++ rest)
  else (false, passed)

end

/-- `AES::BLOCKSIZE` and `AES::DEFAULT_KEYLENGTH`. -/
def aesBlocksize : ℕ := 16

/-- `Encode` with a key and the initial vector it drew. -/
def encode (aes : Bytes → Equiv.Perm Block) (seckey : Bytes) (iv : Block) (input : Bytes) :
    Bool × Bytes :=
  if seckey.length ≠ aesBlocksize then (false, [])
  else (true, iv.toBytes ++ base64Encode (encryptFilter (aes seckey) iv input))

/-- `Decode`: whether it reports success, and its output. -/
def decode (aes : Bytes → Equiv.Perm Block) (seckey input : Bytes) : Bool × Bytes :=
  if seckey.length ≠ aesBlocksize then (false, [])
  else if input.length ≤ aesBlocksize then (false, [])
  else
    decryptFilter (aes seckey) (Block.ofBytes (input.take aesBlocksize))
      (base64Decode (input.drop aesBlocksize))

/-! ## What a text decodes to -/

section

variable (E : Equiv.Perm Block)

/-- A ciphertext of blocks: all but the last one come out, whatever the last one is. -/
theorem decryptFilter_blocks (iv : Block) (cs : List Block) (c : Block) :
    decryptFilter E iv (bytesOf (cs ++ [c])) =
      match unpad (E.symm c - cbcLast iv cs).toBytes with
      | none => (false, bytesOf (cbcDecrypt E iv cs))
      | some rest => (true, bytesOf (cbcDecrypt E iv cs) ++ rest) := by
  have hsplit : bytesOf (cs ++ [c]) = bytesOf cs ++ c.toBytes := by
    rw [bytesOf_append]
    simp [bytesOf]
  have hn : ((bytesOf cs ++ c.toBytes).length - 16) / 16 = cs.length := by
    rw [List.length_append, length_bytesOf, Block.length_toBytes]
    omega
  have hdrop : (bytesOf cs ++ c.toBytes).drop (16 * cs.length) = c.toBytes :=
    List.drop_left' (length_bytesOf cs)
  rw [hsplit, decryptFilter]
  simp only [hn, hdrop, blocks_bytesOf, Block.length_toBytes, if_true, Block.ofBytes_toBytes]

/-- A ciphertext of one block. -/
theorem decryptFilter_single {iv c : Block} {rest : Bytes}
    (h : unpad (E.symm c - iv).toBytes = some rest) :
    decryptFilter E iv (bytesOf [c]) = (true, rest) := by
  have hone := decryptFilter_blocks E iv [] c
  have hlast : cbcLast iv [] = iv := rfl
  rw [List.nil_append, hlast, h] at hone
  exact hone

/-- There is always a block: a padded text is not empty. -/
theorem encryptFilter_ne_nil (iv : Block) (data : Bytes) : encryptFilter E iv data ≠ [] := by
  intro he
  have hpad : 16 ≤ (pad data).length := by
    rw [pad, List.length_append, List.length_replicate]
    omega
  have hlen := congrArg List.length he
  rw [encryptFilter, length_bytesOf, length_cbcEncrypt, length_blocks, List.length_nil] at hlen
  omega

/-- The filters of one cipher undo each other. -/
theorem decryptFilter_encryptFilter (iv : Block) (data : Bytes) :
    decryptFilter E iv (encryptFilter E iv data) = (true, data) := by
  -- the text in whole blocks and a rest that is padded
  obtain ⟨q, rest, hq, hrest, hdata⟩ : ∃ q rest, q.length = 16 * (data.length / 16) ∧
      rest.length = data.length % 16 ∧ data = q ++ rest :=
    ⟨data.take (16 * (data.length / 16)), data.drop (16 * (data.length / 16)),
      by rw [List.length_take]; omega, by rw [List.length_drop]; omega,
      (List.take_append_drop _ _).symm⟩
  have hlast : (rest ++ List.replicate (16 - data.length % 16)
      (UInt8.ofNat (16 - data.length % 16))).length = 16 := by
    rw [List.length_append, List.length_replicate]
    omega
  have hpad : pad data = bytesOf (blocks (data.length / 16) q ++
      [Block.ofBytes (rest ++ List.replicate (16 - data.length % 16)
        (UInt8.ofNat (16 - data.length % 16)))]) := by
    rw [bytesOf_append, bytesOf_blocks hq]
    simp only [bytesOf, List.flatMap_cons, List.flatMap_nil, List.append_nil,
      Block.toBytes_ofBytes hlast]
    rw [pad, ← List.append_assoc, ← hdata]
  have hlen : (pad data).length / 16 = (blocks (data.length / 16) q ++
      [Block.ofBytes (rest ++ List.replicate (16 - data.length % 16)
        (UInt8.ofNat (16 - data.length % 16)))]).length := by
    rw [hpad, length_bytesOf]
    omega
  have hblocks := blocks_bytesOf (blocks (data.length / 16) q ++
      [Block.ofBytes (rest ++ List.replicate (16 - data.length % 16)
        (UInt8.ofNat (16 - data.length % 16)))]) []
  rw [List.append_nil, ← hpad] at hblocks
  rw [encryptFilter, hlen, hblocks, cbcEncrypt_append]
  show decryptFilter E iv (bytesOf (_ ++ [E (_ + _)])) = _
  have hshort : rest.length < 16 := by omega
  have hun := unpad_pad hshort
  rw [hrest] at hun
  rw [decryptFilter_blocks, Equiv.symm_apply_apply, add_sub_cancel_right,
    Block.toBytes_ofBytes hlast, hun, cbcDecrypt_cbcEncrypt, bytesOf_blocks hq]
  show (true, q ++ rest) = (true, data)
  rw [hdata]

end

/-- What `Encode` makes of a text decodes to it. -/
theorem decode_encode (aes : Bytes → Equiv.Perm Block) {seckey : Bytes} (h : seckey.length = aesBlocksize)
    (iv : Block) (input : Bytes) : decode aes seckey (encode aes seckey iv input).2 = (true, input) := by
  have hkey : ¬ seckey.length ≠ aesBlocksize := not_not.mpr h
  have hpos := List.length_pos_iff.mpr (encryptFilter_ne_nil (aes seckey) iv input)
  have hle := length_le_base64Encode (encryptFilter (aes seckey) iv input)
  have hlong : ¬ (iv.toBytes ++ base64Encode (encryptFilter (aes seckey) iv input)).length ≤ aesBlocksize := by
    rw [List.length_append, Block.length_toBytes]
    show ¬ _ ≤ 16
    omega
  rw [encode, if_neg hkey, decode, if_neg hkey, if_neg hlong]
  show decryptFilter _ (Block.ofBytes ((iv.toBytes ++ _).take 16)) (base64Decode ((iv.toBytes ++ _).drop 16)) = _
  rw [List.take_left' iv.length_toBytes, List.drop_left' iv.length_toBytes, Block.ofBytes_toBytes,
    base64Decode_base64Encode, decryptFilter_encryptFilter]

end Zapdos.Crypto
