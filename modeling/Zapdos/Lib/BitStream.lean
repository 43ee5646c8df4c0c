/-
  Bit streams — numbers of one width, read as one long row of bits, and read again in another width.

  The bits of a number stand with the most significant one first, and past the end of the row all bits
  are zero.  Codes that cut bytes into shorter or longer pieces are two readings of one stream.

  THE LAWS THE CLIENTS USE.
    * `bitAt_regroup`   — reading in another width keeps the bits, as far as it goes;
    * `eq_of_bitAt`     — numbers of one width are determined by their bits;
    * `regroup_regroup` — reading back, with zeros behind what was written, gives the numbers and zeros.
-/
import Mathlib.Algebra.Ring.Nat
import Mathlib.Data.List.GetD
import Mathlib.Data.Nat.Init

namespace Zapdos.Lib

/-- The bit at a position of a row of numbers of `w` bits. -/
def bitAt (w : Nat) (vs : List Nat) (p : Nat) : Bool := (vs.getD (p / w) 0).testBit (w - 1 - p % w)

/-- The first `n` numbers of `out` bits that the same row reads as. -/
def regroup (out w n : Nat) (vs : List Nat) : List Nat :=
  (List.range n).map fun j => Nat.ofBits fun i : Fin out => bitAt w vs (out * j + (out - 1 - i))

@[simp] theorem length_regroup (out w n : Nat) (vs : List Nat) :
    (regroup out w n vs).length = n := by
  rw [regroup, List.length_map, List.length_range]

theorem regroup_lt {out w n : Nat} {vs : List Nat} {v : Nat} (h : v ∈ regroup out w n vs) :
    v < 2 ^ out := by
  obtain ⟨j, -, rfl⟩ := List.mem_map.mp h
  exact Nat.ofBits_lt_two_pow _

theorem getD_regroup {out w n j : Nat} (vs : List Nat) (hj : j < n) :
    (regroup out w n vs).getD j 0 =
      Nat.ofBits fun i : Fin out => bitAt w vs (out * j + (out - 1 - i)) := by
  rw [regroup, List.getD_eq_getElem?_getD, List.getElem?_map, List.getElem?_range hj]
  rfl

/-- Past the end all bits are zero. -/
theorem bitAt_of_le {w p : Nat} {vs : List Nat} (h : vs.length ≤ p / w) : bitAt w vs p = false := by
  rw [bitAt, List.getD_eq_default _ _ h, Nat.zero_testBit]

theorem div_lt_of_lt {out n p : Nat} (h : p < out * n) : p / out < n :=
  Nat.div_lt_of_lt_mul h

/-- **Reading in another width keeps the bits**, as far as it goes. -/
theorem bitAt_regroup {out : Nat} (hout : 0 < out) (w n : Nat) (vs : List Nat) (p : Nat) :
    bitAt out (regroup out w n vs) p = if p < out * n then bitAt w vs p else false := by
  by_cases hp : p < out * n
  · have hdiv : out * (p / out) + p % out = p := Nat.div_add_mod p out
    have hmod : p % out < out := Nat.mod_lt p hout
    have hlast : out - 1 - p % out < out := by omega
    have hpos : out * (p / out) + (out - 1 - (out - 1 - p % out)) = p := by omega
    rw [if_pos hp, bitAt, getD_regroup vs (div_lt_of_lt hp), Nat.testBit_ofBits_lt _ _ hlast]
    simp only [hpos]
  · have hdiv : n ≤ p / out := (Nat.le_div_iff_mul_le hout).mpr (by rw [Nat.mul_comm]; omega)
    rw [if_neg hp, bitAt_of_le (by rw [length_regroup]; exact hdiv)]

/-- Zeros behind a row change no bit. -/
theorem bitAt_append_zeros (w : Nat) (vs : List Nat) (k p : Nat) :
    bitAt w (vs ++ List.replicate k 0) p = bitAt w vs p := by
  unfold bitAt
  congr 1
  rw [List.getD_eq_getElem?_getD, List.getD_eq_getElem?_getD, List.getElem?_append]
  by_cases hp : p / w < vs.length
  · rw [if_pos hp]
  · rw [if_neg hp, List.getElem?_replicate, List.getElem?_eq_none (Nat.le_of_not_lt hp)]
    split <;> rfl

/-- Numbers of one width are determined by their bits. -/
theorem eq_of_bitAt {w : Nat} (hw : 0 < w) {vs vs' : List Nat} (h : ∀ v ∈ vs, v < 2 ^ w)
    (h' : ∀ v ∈ vs', v < 2 ^ w) (hlen : vs.length = vs'.length)
    (hbits : ∀ p, bitAt w vs p = bitAt w vs' p) : vs = vs' := by
  refine List.ext_getElem hlen fun j hj hj' => Nat.eq_of_testBit_eq fun i => ?_
  by_cases hi : i < w
  · -- bit `i` of number `j` stands at this position
    have hpos : (w * j + (w - 1 - i)) / w = j := by
      rw [Nat.mul_add_div hw, Nat.div_eq_of_lt (by omega), Nat.add_zero]
    have hback : w - 1 - (w * j + (w - 1 - i)) % w = i := by
      rw [Nat.mul_add_mod, Nat.mod_eq_of_lt (by omega)]
      omega
    have hbit := hbits (w * j + (w - 1 - i))
    rw [bitAt, bitAt, hpos, hback, List.getD_eq_getElem _ _ hj, List.getD_eq_getElem _ _ hj'] at hbit
    exact hbit
  · have hpow : 2 ^ w ≤ 2 ^ i := Nat.pow_le_pow_right (by decide) (by omega)
    rw [Nat.testBit_lt_two_pow (Nat.lt_of_lt_of_le (h _ (List.getElem_mem hj)) hpow),
      Nat.testBit_lt_two_pow (Nat.lt_of_lt_of_le (h' _ (List.getElem_mem hj')) hpow)]

/-- **Reading back.**  A row that was read in another width to its end, with zeros behind it, reads as
    the row with zeros behind it. -/
theorem regroup_regroup {out w : Nat} (hout : 0 < out) (hw : 0 < w) {vs : List Nat}
    (h : ∀ v ∈ vs, v < 2 ^ w) {n : Nat} (hn : w * vs.length ≤ out * n) (k m : Nat) :
    regroup w out (vs.length + m) (regroup out w n vs ++ List.replicate k 0) =
      vs ++ List.replicate m 0 := by
  refine eq_of_bitAt hw (fun v hv => regroup_lt hv) (fun v hv => ?_) (by simp) fun p => ?_
  · rcases List.mem_append.mp hv with hv | hv
    · exact h v hv
    · rw [List.eq_of_mem_replicate hv]
      exact Nat.two_pow_pos w
  · rw [bitAt_regroup hw, bitAt_append_zeros, bitAt_append_zeros, bitAt_regroup hout]
    by_cases hp : p < w * vs.length
    · have hlong : p < w * (vs.length + m) := Nat.lt_of_lt_of_le hp (Nat.mul_le_mul_left w (by omega))
      rw [if_pos hlong, if_pos (Nat.lt_of_lt_of_le hp hn)]
    · have hend : vs.length ≤ p / w :=
        (Nat.le_div_iff_mul_le hw).mpr (by rw [Nat.mul_comm]; omega)
      rw [bitAt_of_le hend, ite_self, ite_self]

end Zapdos.Lib
