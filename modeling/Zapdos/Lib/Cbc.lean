/-
  Cipher block chaining — a message of blocks encrypted with a permutation of the blocks, each block
  first added to the ciphertext block before it.

  Blocks are any commutative group; the first block is added to an initial vector.
-/
import Mathlib.Algebra.Group.Basic
import Mathlib.Logic.Equiv.Defs

namespace Zapdos.Lib

section

variable {B : Type*} [AddCommGroup B] (E : Equiv.Perm B)

/-- Encryption after the block `v`. -/
def cbcEncrypt : B → List B → List B
  | _, [] => []
  | v, p :: ps => E (p + v) :: cbcEncrypt (E (p + v)) ps

/-- Decryption after the block `v`. -/
def cbcDecrypt : B → List B → List B
  | _, [] => []
  | v, c :: cs => (E.symm c - v) :: cbcDecrypt c cs

@[simp] theorem length_cbcEncrypt (v : B) (ps : List B) : (cbcEncrypt E v ps).length = ps.length := by
  induction ps generalizing v with
  | nil => rfl
  | cons p ps ih => simp [cbcEncrypt, ih]

/-- The block that the next one is added to. -/
def cbcLast (v : B) (cs : List B) : B := cs.getLastD v

/-- Decryption gives the message back. -/
theorem cbcDecrypt_cbcEncrypt (v : B) (ps : List B) :
    cbcDecrypt E v (cbcEncrypt E v ps) = ps := by
  induction ps generalizing v with
  | nil => rfl
  | cons p ps ih => rw [cbcEncrypt, cbcDecrypt, ih, Equiv.symm_apply_apply, add_sub_cancel_right]

/-- Encryption has a ciphertext for every message whose last block is chosen. -/
theorem cbcEncrypt_append (v : B) (ps qs : List B) :
    cbcEncrypt E v (ps ++ qs) =
      cbcEncrypt E v ps ++ cbcEncrypt E (cbcLast v (cbcEncrypt E v ps)) qs := by
  induction ps generalizing v with
  | nil => rfl
  | cons p ps ih =>
    have hlast : cbcLast v (E (p + v) :: cbcEncrypt E (E (p + v)) ps) =
        cbcLast (E (p + v)) (cbcEncrypt E (E (p + v)) ps) := by
      cases cbcEncrypt E (E (p + v)) ps <;> rfl
    rw [List.cons_append, cbcEncrypt, cbcEncrypt, ih, hlast]
    rfl

end

end Zapdos.Lib
