/-
  `city` — the two hashes of the spelling model, on the lengths it calls them with.

  `CityHash32` gets n-grams of four, eight or twelve bytes.  `CityHash64` gets the seven numbers of
  the check sum, 56 bytes.  The branches for other lengths are not here.
-/
import Zapdos.Store.Types

namespace Zapdos.Jamspell

open Zapdos.Store

/-- `Fetch32`. -/
def fetch32 (s : Bytes) (i : ℕ) : UInt32 :=
  (s.getD i 0).toUInt32 ||| ((s.getD (i + 1) 0).toUInt32 <<< 8) ||| ((s.getD (i + 2) 0).toUInt32 <<< 16)
    ||| ((s.getD (i + 3) 0).toUInt32 <<< 24)

/-- `Fetch64`. -/
def fetch64 (s : Bytes) (i : ℕ) : UInt64 := (fetch32 s i).toUInt64 ||| ((fetch32 s (i + 4)).toUInt64 <<< 32)

/-! ## 32 bits -/

def fmix (h : UInt32) : UInt32 :=
  let h := h ^^^ (h >>> 16)
  let h := h * 0x85ebca6b
  let h := h ^^^ (h >>> 13)
  let h := h * 0xc2b2ae35
  h ^^^ (h >>> 16)

def rotate32 (val shift : UInt32) : UInt32 :=
  if shift = 0 then val else (val >>> shift) ||| (val <<< (32 - shift))

def mur (a h : UInt32) : UInt32 :=
  let a := a * 0xcc9e2d51
  let a := rotate32 a 17
  let a := a * 0x1b873593
  let h := h ^^^ a
  let h := rotate32 h 19
  h * 5 + 0xe6546b64

/-- `Hash32Len0to4`; the bytes are signed. -/
def hash32Len0to4 (s : Bytes) : UInt32 :=
  let (b, c) := s.foldl (fun (b, c) v =>
    let b := b * 0xcc9e2d51 + v.toInt8.toInt32.toUInt32
    (b, c ^^^ b)) ((0 : UInt32), (9 : UInt32))
  fmix (mur b (mur (UInt32.ofNat s.length) c))

/-- `Hash32Len5to12`. -/
def hash32Len5to12 (s : Bytes) : UInt32 :=
  let len := UInt32.ofNat s.length
  let a := len
  let b := len * 5
  let c : UInt32 := 9
  let d := b
  let a := a + fetch32 s 0
  let b := b + fetch32 s (s.length - 4)
  let c := c + fetch32 s ((s.length >>> 1) &&& 4)
  fmix (mur c (mur b (mur a d)))

/-- `CityHash32`, up to twelve bytes. -/
def cityHash32 (s : Bytes) : UInt32 := if s.length ≤ 4 then hash32Len0to4 s else hash32Len5to12 s

/-- `CityHash16`. -/
def cityHash16 (key : Bytes) : UInt16 := UInt16.ofNat ((cityHash32 key).toNat % 65535)

/-! ## 64 bits -/

def rotate64 (val shift : UInt64) : UInt64 :=
  if shift = 0 then val else (val >>> shift) ||| (val <<< (64 - shift))

def shiftMix (val : UInt64) : UInt64 := val ^^^ (val >>> 47)

/-- `bswap_64`: the bytes in the other order. -/
def bswap64 (x : UInt64) : UInt64 :=
  let shifts : List UInt64 := [0, 8, 16, 24, 32, 40, 48, 56]
  shifts.foldl (fun y i => (y <<< 8) ||| ((x >>> i) &&& 255)) 0

/-- `CityHash64`, from 33 to 64 bytes (`HashLen33to64`). -/
def cityHash64 (s : Bytes) : UInt64 :=
  let k2 : UInt64 := 0x9ae16a3b2f90404f
  let len := s.length
  let mul := k2 + UInt64.ofNat len * 2
  let a := fetch64 s 0 * k2
  let b := fetch64 s 8
  let c := fetch64 s (len - 24)
  let d := fetch64 s (len - 32)
  let e := fetch64 s 16 * k2
  let f := fetch64 s 24 * 9
  let g := fetch64 s (len - 8)
  let h := fetch64 s (len - 16) * mul
  let u := rotate64 (a + g) 43 + (rotate64 b 30 + c) * 9
  let v := ((a + g) ^^^ d) + f + 1
  let w := bswap64 ((u + v) * mul) + h
  let x := rotate64 (e + f) 42 + c
  let y := (bswap64 ((v + w) * mul) + g) * mul
  let z := e + f + c
  let a := bswap64 ((x + z) * mul + y) + b
  let b := shiftMix ((z + a) * mul + d + h) * mul
  b + x

end Zapdos.Jamspell
