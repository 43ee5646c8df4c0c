/-
  What `Encode` and `Decode` mean.

  A character stands for five bits, so a geohash is a bit string; both loops bisect the world, a box
  of longitudes and latitudes, longitudes first.  `Decode` follows the bits, `Encode` takes the bits
  of a point.

  THE CRUX.  The state of both loops is the box of the bits read or written so far
  (`EncodeState.box`, `DecodeState.box`), whose turn is the parity of the loop's counter.
-/
import Zapdos.Search.GeoHashHelper
import Mathlib.Data.Nat.Bitwise

namespace Zapdos.Search.GeoHashHelper

open Zapdos.Lib Zapdos.Store

/-! ## Characters as bits -/

/-- The five bits of a character, the highest first. -/
def bitsOf (c : UInt8) : List Bool := [4, 3, 2, 1, 0].map (charMap.idxOf c).testBit

/-- The bits of a geohash. -/
def hashBits (hash : Bytes) : List Bool := hash.flatMap bitsOf

/-- The number that bits spell. -/
def bitsValue (bits : List Bool) : ℕ := bits.foldl (fun n b => 2 * n + b.toNat) 0

/-- The character of five bits. -/
def charOf (bits : List Bool) : UInt8 := charMap.getD (bitsValue bits) 0

/-- All characters are in `char_map`. -/
def Valid (hash : Bytes) : Prop := ∀ c ∈ hash, c ∈ charMap

instance (hash : Bytes) : Decidable (Valid hash) := List.decidableBAll _ hash

@[simp] theorem length_bitsOf (c : UInt8) : (bitsOf c).length = 5 := rfl

/-- What holds of the 32 characters holds of every valid one. -/
theorem forall_charMap {P : UInt8 → Prop} (h : ∀ n < 32, P (charMap.getD n 0)) {c : UInt8}
    (hc : c ∈ charMap) : P c := by
  obtain ⟨n, hn, rfl⟩ := List.mem_iff_getElem.mp hc
  have hget : charMap.getD n 0 = charMap[n] := by simp [hn]
  rw [← hget]
  exact h n hn

theorem bitsOf_charOf (b₄ b₃ b₂ b₁ b₀ : Bool) :
    bitsOf (charOf [b₄, b₃, b₂, b₁, b₀]) = [b₄, b₃, b₂, b₁, b₀] ∧
      charOf [b₄, b₃, b₂, b₁, b₀] ∈ charMap := by
  revert b₄ b₃ b₂ b₁ b₀
  decide +kernel

theorem charOf_bitsOf {c : UInt8} (hc : c ∈ charMap) : charOf (bitsOf c) = c := by
  refine forall_charMap (P := fun c => charOf (bitsOf c) = c) ?_ hc
  decide +kernel

@[simp] theorem hashBits_cons (c : UInt8) (hash : Bytes) :
    hashBits (c :: hash) = bitsOf c ++ hashBits hash := rfl

theorem hashBits_append (hash hash' : Bytes) :
    hashBits (hash ++ hash') = hashBits hash ++ hashBits hash' := List.flatMap_append

theorem length_hashBits (hash : Bytes) : (hashBits hash).length = 5 * hash.length := by
  induction hash with
  | nil => rfl
  | cons c hash ih =>
    rw [hashBits_cons, List.length_append, length_bitsOf, ih, List.length_cons]
    omega

/-- **A valid geohash is its bits.** -/
theorem hashBits_inj {hash hash' : Bytes} (h : Valid hash) (h' : Valid hash')
    (hbits : hashBits hash = hashBits hash') : hash = hash' := by
  induction hash generalizing hash' with
  | nil =>
    have hlen := congrArg List.length hbits
    rw [length_hashBits, length_hashBits, List.length_nil] at hlen
    exact (List.length_eq_zero_iff.mp (by omega)).symm
  | cons c hash ih =>
    cases hash' with
    | nil =>
      have hlen := congrArg List.length hbits
      rw [length_hashBits, length_hashBits, List.length_nil, List.length_cons] at hlen
      omega
    | cons c' hash' =>
      obtain ⟨hc, hrest⟩ := List.append_inj hbits rfl
      have hchar := congrArg charOf hc
      rw [charOf_bitsOf (h c List.mem_cons_self), charOf_bitsOf (h' c' List.mem_cons_self)] at hchar
      rw [hchar, ih (fun a ha => h a (List.mem_cons_of_mem _ ha))
        (fun a ha => h' a (List.mem_cons_of_mem _ ha)) hrest]

/-! ## The world -/

/-- The box of all longitudes and latitudes. -/
def world : Box ℚ := ⟨lonRange, latRange, true⟩

theorem world_proper : world.Proper := by
  constructor <;> norm_num [world, lonRange, latRange]

/-! ## `Decode` follows the bits -/

/-- The box of the loop of `Decode`. -/
def DecodeState.box (st : DecodeState) : Box ℚ :=
  ⟨st.lonInterval, st.latInterval, st.isEven % 2 = 0⟩

/-- The test of the bit `j`, counted from the highest of five. -/
theorem bit_test : ∀ n < 32, ∀ j < 5,
    decide ((n <<< j) &&& 0x0010 ≠ 0) = n.testBit (4 - j) := by
  decide

theorem low_add_delta (i : IntervalT) : i.low + (i.high - i.low) / 2 = i.mid := by
  unfold Bounds.mid
  ring

theorem high_sub_delta (i : IntervalT) : i.high - (i.high - i.low) / 2 = i.mid := by
  unfold Bounds.mid
  ring

theorem decodeStep_box {n : ℕ} (hn : n < 32) {j : ℕ} (hj : j < 5) (st : DecodeState) :
    (decodeStep n st j).box = st.box.halve (n.testBit (4 - j)) := by
  have hbit := bit_test n hn j hj
  unfold decodeStep DecodeState.box Box.halve Bounds.half
  simp only [low_add_delta, high_sub_delta]
  have hturn : ((st.isEven + 1) % 2 ≠ 0) ↔ st.isEven % 2 = 0 := by omega
  have hturn' : ((st.isEven + 1) % 2 = 0) ↔ ¬ st.isEven % 2 = 0 := by omega
  by_cases hone : (n <<< j) &&& 0x0010 ≠ 0
  · rw [decide_eq_true hone] at hbit
    by_cases heven : st.isEven % 2 = 0
    · simp [hone, ← hbit, heven, hturn, hturn']
    · simp [hone, ← hbit, heven, hturn, hturn']
  · rw [decide_eq_false hone] at hbit
    by_cases heven : st.isEven % 2 = 0
    · simp [hone, ← hbit, heven, hturn, hturn']
    · simp [hone, ← hbit, heven, hturn, hturn']

theorem idxOf_lt {c : UInt8} (hc : c ∈ charMap) : charMap.idxOf c < 32 :=
  List.idxOf_lt_length_of_mem hc

/-- **The loop of `Decode`** halves its box by the bits of the geohash. -/
theorem decodeLoop_box {hash : Bytes} (h : Valid hash) (st : DecodeState) :
    (decodeLoop hash st).box = st.box.decode (hashBits hash) := by
  induction hash generalizing st with
  | nil => rfl
  | cons c hash ih =>
    have hlt := idxOf_lt (h c List.mem_cons_self)
    have hne : ¬ charMap.idxOf c = charMap.length := Nat.ne_of_lt hlt
    rw [decodeLoop]
    simp only [hne, if_false]
    rw [ih fun a ha => h a (List.mem_cons_of_mem _ ha), hashBits_cons, Box.decode_append]
    refine congrArg (fun b : Box ℚ => b.decode (hashBits hash)) ?_
    simp only [List.foldl_cons, List.foldl_nil, bitsOf, List.map_cons, List.map_nil,
      Box.decode_cons, Box.decode_nil]
    rw [decodeStep_box hlt (by omega), decodeStep_box hlt (by omega), decodeStep_box hlt (by omega),
      decodeStep_box hlt (by omega), decodeStep_box hlt (by omega)]

/-- The box of a geohash. -/
def hashBox (hash : Bytes) : Box ℚ := world.decode (hashBits hash)

/-- The edges of a box. -/
def newsOf (b : Box ℚ) : NewsT := ⟨b.y.high, b.x.high, b.y.low, b.x.low⟩

/-- **What `Decode` returns**: the edges and the centre of the box. -/
theorem decode_eq {hash : Bytes} (h : Valid hash) (hne : hash ≠ []) :
    decode hash = ⟨(hashBox hash).y.mid, (hashBox hash).x.mid, newsOf (hashBox hash)⟩ := by
  have hlen : ¬ hash.length = 0 := fun h0 => hne (List.length_eq_zero_iff.mp h0)
  have hbox : (decodeLoop hash ⟨latRange, lonRange, 0⟩).box = hashBox hash := decodeLoop_box h _
  unfold decode
  simp only [hlen, if_false, high_sub_delta]
  rw [← hbox]
  rfl

/-! ## `Encode` takes the bits of a point -/

/-- The box of the loop of `Encode` before round `i`. -/
def EncodeState.box (st : EncodeState) (i : ℕ) : Box ℚ :=
  ⟨st.lonInterval, st.latInterval, i % 2 = 1⟩

theorem shiftLeft_one_or (n : ℕ) : n <<< 1 ||| 1 = 2 * n + 1 := by
  rw [← Nat.shiftLeft_add_eq_or_of_lt (by omega : 1 < 2 ^ 1), Nat.shiftLeft_eq]
  omega

theorem encodeStep_box (lat lon : ℚ) (st : EncodeState) (i : ℕ) :
    (encodeStep lat lon st i).box (i + 1) = (st.box i).halve ((st.box i).bit (lon, lat)) := by
  unfold encodeStep EncodeState.box Box.halve Box.bit Bounds.half Bounds.mid
  have hturn : (i + 1) % 2 = 1 ↔ ¬ i % 2 = 1 := by omega
  by_cases hodd : i % 2 = 1
  · by_cases hup : lon > (st.lonInterval.low + st.lonInterval.high) / 2
    · simp [hodd, hup, hturn]
    · simp [hodd, hup, hturn]
  · by_cases hup : lat > (st.latInterval.low + st.latInterval.high) / 2
    · simp [hodd, hup, hturn]
    · simp [hodd, hup, hturn]

/-- The number that the loop collects, with the bit of this round. -/
theorem encodeStep_hashChar (lat lon : ℚ) (st : EncodeState) (i : ℕ) :
    (encodeStep lat lon st i).hashChar
        = (if i % 5 = 0 then 0 else 2 * st.hashChar + ((st.box i).bit (lon, lat)).toNat) ∧
      (encodeStep lat lon st i).ss
        = (if i % 5 = 0 then
            st.ss ++ [charMap.getD (2 * st.hashChar + ((st.box i).bit (lon, lat)).toNat) 0]
          else st.ss) := by
  have hchar : (if (if (decide (i % 2 = 1) : Bool) then lon else lat)
        > ((if (decide (i % 2 = 1) : Bool) then st.lonInterval else st.latInterval).low
          + (if (decide (i % 2 = 1) : Bool) then st.lonInterval else st.latInterval).high) / 2
      then st.hashChar <<< 1 ||| 1 else st.hashChar <<< 1)
      = 2 * st.hashChar + ((st.box i).bit (lon, lat)).toNat := by
    unfold EncodeState.box Box.bit Bounds.mid
    have hshift : st.hashChar <<< 1 = 2 * st.hashChar := by
      rw [Nat.shiftLeft_eq]
      omega
    rw [shiftLeft_one_or, hshift]
    by_cases hodd : i % 2 = 1
    · by_cases hup : lon > (st.lonInterval.low + st.lonInterval.high) / 2
      · simp [hodd, hup]
      · simp [hodd, hup]
    · by_cases hup : lat > (st.latInterval.low + st.latInterval.high) / 2
      · simp [hodd, hup]
      · simp [hodd, hup]
  unfold encodeStep
  simp only [hchar, and_self]

/-- Five rounds write the character of five bits. -/
theorem encode_five (lat lon : ℚ) (st : EncodeState) (n : ℕ) (h0 : st.hashChar = 0) :
    ∃ b₄ b₃ b₂ b₁ b₀, Box.encode (lon, lat) (st.box (5 * n + 1)) 5 = [b₄, b₃, b₂, b₁, b₀] ∧
      ((List.range' (5 * n + 1) 5).foldl (encodeStep lat lon) st).box (5 * (n + 1) + 1)
        = (st.box (5 * n + 1)).decode [b₄, b₃, b₂, b₁, b₀] ∧
      ((List.range' (5 * n + 1) 5).foldl (encodeStep lat lon) st).hashChar = 0 ∧
      ((List.range' (5 * n + 1) 5).foldl (encodeStep lat lon) st).ss
        = st.ss ++ [charOf [b₄, b₃, b₂, b₁, b₀]] := by
  have hrange : List.range' (5 * n + 1) 5
      = [5 * n + 1, 5 * n + 2, 5 * n + 3, 5 * n + 4, 5 * n + 5] := rfl
  rw [hrange]
  simp only [List.foldl_cons, List.foldl_nil]
  -- the five states of the loop
  set s₁ := encodeStep lat lon st (5 * n + 1) with hs₁
  set s₂ := encodeStep lat lon s₁ (5 * n + 2) with hs₂
  set s₃ := encodeStep lat lon s₂ (5 * n + 3) with hs₃
  set s₄ := encodeStep lat lon s₃ (5 * n + 4) with hs₄
  set s₅ := encodeStep lat lon s₄ (5 * n + 5) with hs₅
  have hb₁ := encodeStep_box lat lon st (5 * n + 1)
  have hb₂ := encodeStep_box lat lon s₁ (5 * n + 2)
  have hb₃ := encodeStep_box lat lon s₂ (5 * n + 3)
  have hb₄ := encodeStep_box lat lon s₃ (5 * n + 4)
  have hb₅ := encodeStep_box lat lon s₄ (5 * n + 5)
  obtain ⟨hc₁, ht₁⟩ := encodeStep_hashChar lat lon st (5 * n + 1)
  obtain ⟨hc₂, ht₂⟩ := encodeStep_hashChar lat lon s₁ (5 * n + 2)
  obtain ⟨hc₃, ht₃⟩ := encodeStep_hashChar lat lon s₂ (5 * n + 3)
  obtain ⟨hc₄, ht₄⟩ := encodeStep_hashChar lat lon s₃ (5 * n + 4)
  obtain ⟨hc₅, ht₅⟩ := encodeStep_hashChar lat lon s₄ (5 * n + 5)
  rw [← hs₁] at hb₁ hc₁ ht₁
  rw [← hs₂] at hb₂ hc₂ ht₂
  rw [← hs₃] at hb₃ hc₃ ht₃
  rw [← hs₄] at hb₄ hc₄ ht₄
  rw [← hs₅] at hb₅ hc₅ ht₅
  rw [if_neg (by omega)] at hc₁ ht₁ hc₂ ht₂ hc₃ ht₃ hc₄ ht₄
  rw [if_pos (by omega)] at hc₅ ht₅
  refine ⟨(st.box (5 * n + 1)).bit (lon, lat), (s₁.box (5 * n + 2)).bit (lon, lat),
    (s₂.box (5 * n + 3)).bit (lon, lat), (s₃.box (5 * n + 4)).bit (lon, lat),
    (s₄.box (5 * n + 5)).bit (lon, lat), ?_, ?_, hc₅, ?_⟩
  · rw [Box.encode, Box.encode, Box.encode, Box.encode, Box.encode, Box.encode, ← hb₁, ← hb₂, ← hb₃,
      ← hb₄]
  · rw [show 5 * (n + 1) + 1 = 5 * n + 5 + 1 by omega, hb₅, hb₄, hb₃, hb₂, hb₁]
    rfl
  · rw [ht₅, ht₄, ht₃, ht₂, ht₁, hc₄, hc₃, hc₂, hc₁, h0]
    rfl

/-- The text after `n` characters. -/
def encodeText (lat lon : ℚ) (n : ℕ) : EncodeState :=
  (List.range' 1 (5 * n)).foldl (encodeStep lat lon) ⟨latRange, lonRange, 0, []⟩

/-- **The loop of `Encode`** writes the bits of the point. -/
theorem encodeText_spec (lat lon : ℚ) (n : ℕ) :
    (encodeText lat lon n).hashChar = 0 ∧ Valid (encodeText lat lon n).ss ∧
      (encodeText lat lon n).ss.length = n ∧
      hashBits (encodeText lat lon n).ss = Box.encode (lon, lat) world (5 * n) ∧
      (encodeText lat lon n).box (5 * n + 1)
        = world.decode (Box.encode (lon, lat) world (5 * n)) := by
  induction n with
  | zero => exact ⟨rfl, fun _ h => absurd h List.not_mem_nil, rfl, rfl, rfl⟩
  | succ n ih =>
    obtain ⟨hchar, hvalid, hlen, hbits, hbox⟩ := ih
    have hstep : encodeText lat lon (n + 1)
        = (List.range' (5 * n + 1) 5).foldl (encodeStep lat lon) (encodeText lat lon n) := by
      unfold encodeText
      rw [← List.foldl_append, show 5 * (n + 1) = 5 * n + 5 by omega,
        show 5 * n + 1 = 1 + 5 * n by omega]
      exact congrArg _ List.range'_append_1.symm
    obtain ⟨b₄, b₃, b₂, b₁, b₀, hfive, hbox', hchar', htext⟩ :=
      encode_five lat lon (encodeText lat lon n) n hchar
    rw [← hstep] at hbox' hchar' htext
    obtain ⟨hcode, hmem⟩ := bitsOf_charOf b₄ b₃ b₂ b₁ b₀
    have hgrow : Box.encode (lon, lat) world (5 * (n + 1))
        = Box.encode (lon, lat) world (5 * n) ++ [b₄, b₃, b₂, b₁, b₀] := by
      rw [show 5 * (n + 1) = 5 * n + 5 by omega, Box.encode_add, ← hbox, hfive]
    refine ⟨hchar', ?_, ?_, ?_, ?_⟩
    · intro c hc
      rw [htext] at hc
      rcases List.mem_append.mp hc with hc | hc
      · exact hvalid c hc
      · rw [List.mem_singleton.mp hc]
        exact hmem
    · rw [htext, List.length_append, List.length_singleton, hlen]
    · rw [htext, hashBits_append, hbits, hgrow, hashBits_cons, hcode]
      rfl
    · rw [hbox', hgrow, Box.decode_append, hbox]

/-- The text only grows. -/
theorem encodeText_isPrefix (lat lon : ℚ) (n k : ℕ) :
    (encodeText lat lon n).ss <+: (encodeText lat lon (n + k)).ss := by
  have hloop : ∀ (l : List ℕ) (st : EncodeState),
      st.ss <+: (l.foldl (encodeStep lat lon) st).ss := by
    intro l
    induction l with
    | nil => exact fun st => List.prefix_refl _
    | cons i l ih =>
      intro st
      refine List.IsPrefix.trans ?_ (ih (encodeStep lat lon st i))
      rw [(encodeStep_hashChar lat lon st i).2]
      split_ifs
      · exact List.prefix_append _ _
      · exact List.prefix_refl _
  unfold encodeText
  rw [Nat.mul_add, ← List.range'_append_1, List.foldl_append]
  exact hloop _ _

/-! ## Both together -/

/-- What `Encode` writes for a place it accepts, which is a place in the world. -/
theorem encode_eq_ok {lat lon : ℚ} {prec : ℕ} {hash : Bytes} (hlo : 1 ≤ prec) (hhi : prec ≤ 12)
    (h : encode lat lon prec = .ok hash) :
    hash = (encodeText lat lon prec).ss ∧ world.Contains (lon, lat) := by
  have hprec : ¬ (prec < 1 ∨ prec > 12) := by omega
  unfold encode at h
  by_cases hbad : lon > allowedLon ∨ lon < -allowedLon ∨ lat > allowedLat ∨ lat < -allowedLat
  · rw [if_pos hbad] at h
    cases h
  · rw [if_neg hbad] at h
    simp only [hprec, if_false] at h
    rw [Nat.mul_comm] at h
    refine ⟨(Except.ok.inj h).symm, ?_⟩
    simp only [not_or, not_lt] at hbad
    obtain ⟨heast, hwest, hnorth, hsouth⟩ := hbad
    unfold allowedLon at heast hwest
    unfold allowedLat at hnorth hsouth
    refine ⟨⟨hwest, heast⟩, ?_, ?_⟩
    · show (-90 : ℚ) ≤ lat
      linarith
    · show lat ≤ (90 : ℚ)
      linarith

/-- Whether a place is accepted does not depend on the precision. -/
theorem encode_accepts {lat lon : ℚ} {p : ℕ} {hash : Bytes} (h : encode lat lon p = .ok hash)
    (q : ℕ) : ∃ hash', encode lat lon q = .ok hash' := by
  unfold encode at h ⊢
  by_cases hbad : lon > allowedLon ∨ lon < -allowedLon ∨ lat > allowedLat ∨ lat < -allowedLat
  · rw [if_pos hbad] at h
    cases h
  · rw [if_neg hbad]
    exact ⟨_, rfl⟩

/-- The place is between the edges. -/
def NewsT.Contains (n : NewsT) (lat lon : ℚ) : Prop :=
  (n.south ≤ lat ∧ lat ≤ n.north) ∧ (n.west ≤ lon ∧ lon ≤ n.east)

/-- The edges are inside those of `m`. -/
def NewsT.Within (n m : NewsT) : Prop :=
  (m.south ≤ n.south ∧ n.north ≤ m.north) ∧ (m.west ≤ n.west ∧ n.east ≤ m.east)

/-- `Encode` and `Decode` fit together. -/
structure Consistent : Prop where
  /-- the box of a place has the place in it -/
  contains : ∀ lat lon p hash, 1 ≤ p → p ≤ 12 → encode lat lon p = .ok hash →
    (decode hash).news.Contains lat lon
  /-- a place that is accepted is accepted at every precision -/
  accepts : ∀ lat lon p q hash, encode lat lon p = .ok hash → ∃ hash', encode lat lon q = .ok hash'
  /-- a longer geohash extends a shorter one -/
  longer : ∀ lat lon p q hash hash', 1 ≤ p → p ≤ q → q ≤ 12 → encode lat lon p = .ok hash →
    encode lat lon q = .ok hash' → hash <+: hash'
  /-- and its box lies inside -/
  nested : ∀ lat lon p q hash hash', 1 ≤ p → p ≤ q → q ≤ 12 → encode lat lon p = .ok hash →
    encode lat lon q = .ok hash' → (decode hash').news.Within (decode hash).news
  /-- the centre of a box leads back to its geohash -/
  recovers : ∀ hash hash', Valid hash → 1 ≤ hash.length → hash.length ≤ 12 →
    encode (decode hash).lat (decode hash).lon hash.length = .ok hash' → hash' = hash

/-- The text of a precision, as bits and as a box. -/
theorem encodeText_box {lat lon : ℚ} {n : ℕ} (hn : 1 ≤ n) :
    decode (encodeText lat lon n).ss
      = ⟨(world.decode (Box.encode (lon, lat) world (5 * n))).y.mid,
          (world.decode (Box.encode (lon, lat) world (5 * n))).x.mid,
          newsOf (world.decode (Box.encode (lon, lat) world (5 * n)))⟩ := by
  obtain ⟨-, hvalid, hlen, hbits, -⟩ := encodeText_spec lat lon n
  have hne : (encodeText lat lon n).ss ≠ [] := by
    intro hnil
    rw [hnil, List.length_nil] at hlen
    omega
  rw [decode_eq hvalid hne, hashBox, hbits]

/-- **Encoding and decoding are consistent.** -/
theorem consistent : Consistent where
  contains lat lon p hash hlo hhi h := by
    obtain ⟨rfl, hworld⟩ := encode_eq_ok hlo hhi h
    rw [encodeText_box hlo]
    obtain ⟨hx, hy⟩ := Box.contains_decode_encode hworld (5 * p)
    exact ⟨hy, hx⟩
  accepts lat lon p q hash h := encode_accepts h q
  longer lat lon p q hash hash' hlo hpq hhi h h' := by
    obtain ⟨rfl, -⟩ := encode_eq_ok hlo (by omega) h
    obtain ⟨rfl, -⟩ := encode_eq_ok (by omega) hhi h'
    obtain ⟨k, rfl⟩ := Nat.exists_eq_add_of_le hpq
    exact encodeText_isPrefix lat lon p k
  nested lat lon p q hash hash' hlo hpq hhi h h' := by
    obtain ⟨rfl, -⟩ := encode_eq_ok hlo (by omega) h
    obtain ⟨rfl, -⟩ := encode_eq_ok (by omega) hhi h'
    obtain ⟨rest, hrest⟩ := Box.encode_isPrefix (lon, lat) world (by omega : 5 * p ≤ 5 * q)
    rw [encodeText_box hlo, encodeText_box (by omega), ← hrest]
    obtain ⟨hx, hy⟩ := Box.decode_append_within world_proper
      (Box.encode (lon, lat) world (5 * p)) rest
    exact ⟨hy, hx⟩
  recovers hash hash' hvalid hlo hhi h := by
    obtain ⟨rfl, -⟩ := encode_eq_ok hlo hhi h
    obtain ⟨-, hvalid', -, hbits, -⟩ :=
      encodeText_spec (decode hash).lat (decode hash).lon hash.length
    refine hashBits_inj hvalid' hvalid ?_
    have hne : hash ≠ [] := by
      rintro rfl
      exact absurd hlo (by decide)
    rw [hbits, decode_eq hvalid hne, ← length_hashBits]
    exact Box.encode_decode world_proper
      (Box.inside_centre (world_proper.decode (hashBits hash)))

end Zapdos.Search.GeoHashHelper
