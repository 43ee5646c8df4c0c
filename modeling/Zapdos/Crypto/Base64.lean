/-
  Base 64 — the alphabet, and the encoder and the decoder of the cipher library.

  The decoder skips every character outside the alphabet, the padding `=` included, and drops the bits
  of an incomplete last byte.
-/
import Zapdos.Store.ServiceDefine

namespace Zapdos.Crypto

open Zapdos.Store

def alphabet : Bytes := str "ABCDEFGHIJKLMNOPQRSTUVWXYZabcdefghijklmnopqrstuvwxyz0123456789+/"

/-- The character of a value of six bits. -/
def digitChar (v : ℕ) : UInt8 := alphabet.getD v 0

/-- The value of a character of the alphabet. -/
def charDigit (c : UInt8) : Option ℕ := if c ∈ alphabet then some (alphabet.idxOf c) else none

/-- `Base64Encoder` without line breaks. -/
def base64Encode : Bytes → Bytes
  | a :: b :: c :: rest =>
    let n := a.toNat * 65536 + b.toNat * 256 + c.toNat
    digitChar (n / 262144) :: digitChar (n / 4096 % 64) :: digitChar (n / 64 % 64)
      :: digitChar (n % 64) :: base64Encode rest
  | [a, b] =>
    let n := a.toNat * 1024 + b.toNat * 4
    [digitChar (n / 4096), digitChar (n / 64 % 64), digitChar (n % 64), 61]
  | [a] =>
    let n := a.toNat * 16
    [digitChar (n / 64), digitChar (n % 64), 61, 61]
  | [] => []

/-- Values of six bits put together to bytes. -/
def decodeDigits : List ℕ → Bytes
  | w :: x :: y :: z :: rest =>
    let n := w * 262144 + x * 4096 + y * 64 + z
    UInt8.ofNat (n / 65536) :: UInt8.ofNat (n / 256 % 256) :: UInt8.ofNat (n % 256)
      :: decodeDigits rest
  | [w, x, y] =>
    let n := w * 4096 + x * 64 + y
    [UInt8.ofNat (n / 1024), UInt8.ofNat (n / 4 % 256)]
  | [w, x] => [UInt8.ofNat ((w * 64 + x) / 16)]
  | [_] => []
  | [] => []

/-- `Base64Decoder`. -/
def base64Decode (input : Bytes) : Bytes := decodeDigits (input.filterMap charDigit)

/-! ## The round trip -/

theorem charDigit_digitChar {v : ℕ} (h : v < 64) : charDigit (digitChar v) = some v := by
  have hall : ∀ v : Fin 64, charDigit (digitChar v.1) = some v.1 := by decide +kernel
  exact hall ⟨v, h⟩

theorem charDigit_padding : charDigit 61 = none := by decide +kernel

theorem filterMap_digit {v : ℕ} (h : v < 64) (l : Bytes) :
    (digitChar v :: l).filterMap charDigit = v :: l.filterMap charDigit :=
  List.filterMap_cons_some (charDigit_digitChar h)

theorem filterMap_padding (l : Bytes) :
    ((61 : UInt8) :: l).filterMap charDigit = l.filterMap charDigit :=
  List.filterMap_cons_none charDigit_padding

theorem ofNat_eq {a : UInt8} {n : ℕ} (h : n = a.toNat) : UInt8.ofNat n = a := by
  rw [h]
  exact UInt8.ofNat_toNat

theorem four_digits (n : ℕ) :
    n / 262144 * 262144 + n / 4096 % 64 * 4096 + n / 64 % 64 * 64 + n % 64 = n := by
  have h1 := Nat.div_add_mod n 64
  have h2 := Nat.div_add_mod (n / 64) 64
  have h3 := Nat.div_add_mod (n / 64 / 64) 64
  rw [Nat.div_div_eq_div_mul] at h2 h3
  rw [Nat.div_div_eq_div_mul] at h3
  omega

theorem three_digits (n : ℕ) : n / 4096 * 4096 + n / 64 % 64 * 64 + n % 64 = n := by
  have h1 := Nat.div_add_mod n 64
  have h2 := Nat.div_add_mod (n / 64) 64
  rw [Nat.div_div_eq_div_mul] at h2
  omega

/-- Decoding gives the encoded bytes back. -/
theorem base64Decode_base64Encode (bytes : Bytes) : base64Decode (base64Encode bytes) = bytes := by
  fun_induction base64Encode bytes with
  | case1 a b c rest n ih =>
    have ha := a.toNat_lt
    have hb := b.toNat_lt
    have hc := c.toNat_lt
    have hn : n = a.toNat * 65536 + b.toNat * 256 + c.toNat := rfl
    rw [base64Decode] at ih ⊢
    rw [filterMap_digit (by omega), filterMap_digit (by omega), filterMap_digit (by omega),
      filterMap_digit (by omega), decodeDigits, ih]
    simp only [four_digits]
    rw [ofNat_eq (a := a) (by omega), ofNat_eq (a := b) (by omega), ofNat_eq (a := c) (by omega)]
  | case2 a b n =>
    have ha := a.toNat_lt
    have hb := b.toNat_lt
    have hn : n = a.toNat * 1024 + b.toNat * 4 := rfl
    rw [base64Decode, filterMap_digit (by omega), filterMap_digit (by omega),
      filterMap_digit (by omega), filterMap_padding]
    simp only [List.filterMap_nil, decodeDigits, three_digits]
    rw [ofNat_eq (a := a) (by omega), ofNat_eq (a := b) (by omega)]
  | case3 a n =>
    have ha := a.toNat_lt
    have hn : n = a.toNat * 16 := rfl
    rw [base64Decode, filterMap_digit (by omega), filterMap_digit (by omega), filterMap_padding,
      filterMap_padding]
    have hsum : n / 64 * 64 + n % 64 = n := by omega
    simp only [List.filterMap_nil, decodeDigits, hsum]
    rw [ofNat_eq (a := a) (by omega)]
  | case4 => rfl

/-- An encoded text is at least as long as the bytes. -/
theorem length_le_base64Encode (bytes : Bytes) : bytes.length ≤ (base64Encode bytes).length := by
  fun_induction base64Encode bytes with
  | case1 a b c rest n ih =>
    simp only [List.length_cons]
    omega
  | case2 a b n => simp
  | case3 a n => simp
  | case4 => simp

end Zapdos.Crypto
