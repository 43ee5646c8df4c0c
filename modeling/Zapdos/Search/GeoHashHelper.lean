/-
  `GeoHashHelper` — geohashes, in exact arithmetic.

  `Encode` halves the range of longitudes and the range of latitudes in turn and packs five bits into
  a character; `Decode` narrows the same ranges.  `GetOneNeighbour` steps to the next cell with a
  table for the last character and a carry into the characters before it, `GetNeighbours` walks
  around a cell.
-/
import Zapdos.Lib.Bisection
import Zapdos.Store.Types
import Zapdos.Store.ServiceDefine

namespace Zapdos.Search.GeoHashHelper

open Zapdos.Lib Zapdos.Store

/-! ## Tables -/

/-- `char_map`. -/
def charMap : Bytes := str "0123456789bcdefghjkmnpqrstuvwxyz"

/-- `ZPDS_NORTH`. -/
def north : ℕ := 0

/-- `ZPDS_EAST`. -/
def east : ℕ := 1

/-- `ZPDS_SOUTH`. -/
def south : ℕ := 2

/-- `ZPDS_WEST`. -/
def west : ℕ := 3

/-- `even_neighbours`. -/
def evenNeighbours : List Bytes :=
  [str "p0r21436x8zb9dcf5h7kjnmqesgutwvy",
    str "bc01fg45238967deuvhjyznpkmstqrwx",
    str "14365h7k9dcfesgujnmqp0r2twvyx8zb",
    str "238967debc01fg45kmstqrwxuvhjyznp"]

/-- `odd_neighbours`. -/
def oddNeighbours : List Bytes :=
  [str "bc01fg45238967deuvhjyznpkmstqrwx",
    str "p0r21436x8zb9dcf5h7kjnmqesgutwvy",
    str "238967debc01fg45kmstqrwxuvhjyznp",
    str "14365h7k9dcfesgujnmqp0r2twvyx8zb"]

/-- `even_borders`. -/
def evenBorders : List Bytes := [str "prxz", str "bcfguvyz", str "028b", str "0145hjnp"]

/-- `odd_borders`. -/
def oddBorders : List Bytes := [str "bcfguvyz", str "prxz", str "0145hjnp", str "028b"]

/-- `IntervalT`. -/
abbrev IntervalT : Type := Bounds ℚ

/-- `ZPDS_DEFAULT_MAX_LAT` and `ZPDS_DEFAULT_MIN_LAT`. -/
def latRange : IntervalT := ⟨90, -90⟩

/-- `ZPDS_DEFAULT_MAX_LON` and `ZPDS_DEFAULT_MIN_LON`. -/
def lonRange : IntervalT := ⟨180, -180⟩

/-- `ZPDS_ALLOWED_MAX_LAT`; `ZPDS_ALLOWED_MIN_LAT` is its negative. -/
def allowedLat : ℚ := 8505113 / 100000

/-- `ZPDS_ALLOWED_MAX_LON`; `ZPDS_ALLOWED_MIN_LON` is its negative. -/
def allowedLon : ℚ := 180

/-! ## `Encode` -/

/-- The variables of the loop of `Encode`. -/
structure EncodeState where
  latInterval : IntervalT
  lonInterval : IntervalT
  hashChar : ℕ
  ss : Bytes

/-- The round `i` of the loop of `Encode`. -/
def encodeStep (lat lon : ℚ) (st : EncodeState) (i : ℕ) : EncodeState :=
  let useLon : Bool := i % 2 = 1
  let interval := if useLon then st.lonInterval else st.latInterval
  let coord := if useLon then lon else lat
  let mid := (interval.low + interval.high) / 2
  let hashChar := st.hashChar <<< 1
  let hashChar := if coord > mid then hashChar ||| 1 else hashChar
  let interval := if coord > mid then { interval with low := mid } else { interval with high := mid }
  { latInterval := if useLon then st.latInterval else interval
    lonInterval := if useLon then interval else st.lonInterval
    hashChar := if i % 5 = 0 then 0 else hashChar
    ss := if i % 5 = 0 then st.ss ++ [charMap.getD hashChar 0] else st.ss }

/-- `Encode`. -/
def encode (lat lon : ℚ) (prec : ℕ) : Except Exc Bytes :=
  if lon > allowedLon ∨ lon < -allowedLon ∨ lat > allowedLat ∨ lat < -allowedLat then
    badData "Invalid LonLat"
  else
    let prec := if prec < 1 ∨ prec > 12 then 12 else prec
    .ok ((List.range' 1 (prec * 5)).foldl (encodeStep lat lon) ⟨latRange, lonRange, 0, []⟩).ss

/-! ## `Decode` -/

/-- `NewsT`. -/
structure NewsT where
  north : ℚ := 0
  east : ℚ := 0
  south : ℚ := 0
  west : ℚ := 0
  deriving DecidableEq, Repr

/-- `GeoCoordT`, without the dimension that nothing sets. -/
structure GeoCoordT where
  lat : ℚ := 0
  lon : ℚ := 0
  news : NewsT := {}
  deriving DecidableEq, Repr

/-- The variables of the loop of `Decode`. -/
structure DecodeState where
  latInterval : IntervalT
  lonInterval : IntervalT
  isEven : ℕ

/-- The round `j` of the inner loop of `Decode`. -/
def decodeStep (charMapIndex : ℕ) (st : DecodeState) (j : ℕ) : DecodeState :=
  let isEven := st.isEven + 1
  let useLon : Bool := isEven % 2 ≠ 0
  let interval := if useLon then st.lonInterval else st.latInterval
  let delta := (interval.high - interval.low) / 2
  let interval :=
    if (charMapIndex <<< j) &&& 0x0010 ≠ 0 then { interval with low := interval.low + delta }
    else { interval with high := interval.high - delta }
  { latInterval := if useLon then st.latInterval else interval
    lonInterval := if useLon then interval else st.lonInterval
    isEven := isEven }

/-- The loop of `Decode`, which ends at a character that is none. -/
def decodeLoop : Bytes → DecodeState → DecodeState
  | [], st => st
  | h :: hash, st =>
    let charMapIndex := charMap.idxOf h
    if charMapIndex = charMap.length then st
    else decodeLoop hash ([0, 1, 2, 3, 4].foldl (decodeStep charMapIndex) st)

/-- `Decode`. -/
def decode (hash : Bytes) : GeoCoordT :=
  if hash.length = 0 then {}
  else
    let st := decodeLoop hash ⟨latRange, lonRange, 0⟩
    { lat := st.latInterval.high - (st.latInterval.high - st.latInterval.low) / 2
      lon := st.lonInterval.high - (st.lonInterval.high - st.lonInterval.low) / 2
      news := ⟨st.latInterval.high, st.lonInterval.high, st.latInterval.low, st.lonInterval.low⟩ }

/-! ## Neighbours -/

/-- The table of borders for a hash of this length. -/
def borderOf (length direction : ℕ) : Bytes :=
  if length % 2 = 1 then oddBorders.getD direction [] else evenBorders.getD direction []

/-- The table of neighbours for a hash of this length. -/
def neighbourOf (length direction : ℕ) : Bytes :=
  if length % 2 = 1 then oddNeighbours.getD direction [] else evenNeighbours.getD direction []

/-- `GetOneNeighbour` on the characters from the last to the first; `none` is a
    `BadGeoHashException`. -/
def oneNeighbourRev (direction : ℕ) : Bytes → Option Bytes
  | [] => none
  | [_] => none
  | last :: base =>
    if direction > west then none
    else
      let neighbourIndex := (neighbourOf (base.length + 1) direction).idxOf last
      if neighbourIndex ≥ charMap.length then none
      else
        match
          if last ∈ borderOf (base.length + 1) direction then oneNeighbourRev direction base
          else some base with
        | none => none
        | some base => some (charMap.getD neighbourIndex 0 :: base)

/-- `GetOneNeighbour`. -/
def getOneNeighbour (hash : Bytes) (direction : ℕ) : Option Bytes :=
  (oneNeighbourRev direction hash.reverse).map List.reverse

/-- `count` steps in one direction: the hashes on the way, and the last one. -/
def walk (direction : ℕ) : ℕ → Bytes → Option (List Bytes × Bytes)
  | 0, hash => some ([], hash)
  | count + 1, hash =>
    match getOneNeighbour hash direction with
    | none => none
    | some hash =>
      match walk direction count hash with
      | none => none
      | some (hashes, last) => some (hash :: hashes, last)

/-- The body of `GetNeighbours`: up to the top, then around. -/
def walkRing (hash : Bytes) (level : ℕ) : Option (List Bytes) := do
  let (_, hash) ← walk north level hash
  let (toCorner, hash₁) ← walk east level hash
  let (down, hash₂) ← walk south (level * 2) hash₁
  let (back, hash₃) ← walk west (level * 2) hash₂
  let (up, hash₄) ← walk north (level * 2) hash₃
  let (toTop, _) ← walk east (level - 1) hash₄
  pure (hash :: (toCorner ++ (down ++ (back ++ (up ++ toTop)))))

/-- `GetNeighbours`. -/
def getNeighbours (hash : Bytes) (level : ℕ) : List Bytes :=
  if level = 0 then [] else (walkRing hash level).getD []

end Zapdos.Search.GeoHashHelper
