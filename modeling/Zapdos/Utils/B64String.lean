/-
  `B64String` and `S64String` — the base 64 text of every message between the nodes.

  The text is made and read by iterator adaptors of a library, taken as they are documented:
  `transform_width` regroups bits, `base64_from_binary` and `binary_from_base64` map values of six
  bits to characters and back, `insert_linebreaks` breaks the text every 72 characters, and
  `remove_whitespace` skips white space wherever it stands.
  Padding is left to the code: the encoder appends `=` signs behind the last line, the decoder counts
  them all, reads them as zeros and erases as many bytes at the end.

  THE CRUX.  Encoding and decoding are two readings of one stream of bits (`Lib.BitStream`), and the
  padding fills it up to whole groups of three bytes, so the bytes to erase are exactly the zeros that
  the padding was read as.  For a text that `Encode` did not make nothing ties the number of `=` signs
  to the length.
-/
import Zapdos.Crypto.Base64
import Zapdos.Lib.BitStream

namespace Zapdos.Utils

open Zapdos.Lib Zapdos.Store
open Zapdos.Crypto (alphabet digitChar charDigit charDigit_digitChar)

/-! ## The iterators -/

/-- How many values of `bitsOut` bits are read from `len` values of `bitsIn` bits.  Wider values: one
    is begun as long as there is a value to read, bits left over are discarded.  Narrower values: as
    long as there are bits.

    For `4 * k + 1` characters to be read as bytes this is the specification only: the last byte is
    begun with six bits, and the iterator of the library reads on behind the end for the other two. -/
def outputs (bitsOut bitsIn len : ℕ) : ℕ :=
  if bitsIn < bitsOut then (if len = 0 then 0 else bitsIn * (len - 1) / bitsOut + 1)
  else (bitsIn * len + bitsOut - 1) / bitsOut

/-- `transform_width`: missing trailing bits read as zero. -/
def transformWidth (bitsOut bitsIn : ℕ) (vs : List ℕ) : List ℕ :=
  regroup bitsOut bitsIn (outputs bitsOut bitsIn vs.length) vs

/-- `insert_linebreaks`, after `count` characters of a line. -/
def insertLinebreaks (n : ℕ) : ℕ → Bytes → Bytes
  | _, [] => []
  | count, c :: cs =>
    if count = n then 10 :: c :: insertLinebreaks n 1 cs else c :: insertLinebreaks n (count + 1) cs

/-- `remove_whitespace`. -/
def removeWhitespace (input : Bytes) : Bytes := input.filter (fun c => !isSpace c)

/-! ## `B64String` -/

namespace B64String

/-- `Encode`. -/
def encode (input : Bytes) : Bytes :=
  let writePaddChars := (3 - input.length % 3) % 3
  let base64 := insertLinebreaks 72 0 ((transformWidth 6 8 (input.map UInt8.toNat)).map digitChar)
  base64 ++ List.replicate writePaddChars 61

/-- The `=` signs, counted in an `unsigned int`. -/
def paddChars (input : Bytes) : ℕ := input.count 61 % 2 ^ 32

/-- What the iterators read, with `A` for every `=`; none when a character is not of the alphabet. -/
def decoded (input : Bytes) : Option Bytes :=
  let input := input.map fun c => if c = 61 then 65 else c
  ((removeWhitespace input).mapM charDigit).map fun digits =>
    (transformWidth 8 6 digits).map UInt8.ofNat

/-- How `Decode` fails. -/
inductive DecodeError where
  /-- the exception of `binary_from_base64` -/
  | invalidCharacter
  /-- `erase` from a place before the string, which has no defined behaviour -/
  | eraseRange
  deriving DecidableEq, Repr

/-- `Decode`. -/
def decode (input : Bytes) : Except DecodeError Bytes :=
  match decoded input with
  | none => .error .invalidCharacter
  | some result =>
    if paddChars input ≤ result.length then .ok (result.take (result.length - paddChars input))
    else .error .eraseRange

end B64String

/-! ## Characters -/

/-- What a character of the alphabet is not. -/
theorem digitChar_plain {v : ℕ} (h : v < 64) : isSpace (digitChar v) = false ∧ digitChar v ≠ 61 := by
  have hall : ∀ v : Fin 64, isSpace (digitChar v.1) = false ∧ digitChar v.1 ≠ 61 := by decide +kernel
  exact hall ⟨v, h⟩

theorem removeWhitespace_cons (c : UInt8) (cs : Bytes) : removeWhitespace (c :: cs) =
    if isSpace c then removeWhitespace cs else c :: removeWhitespace cs := by
  rw [removeWhitespace, List.filter_cons]
  cases isSpace c <;> rfl

theorem removeWhitespace_insertLinebreaks (n count : ℕ) (cs : Bytes) :
    removeWhitespace (insertLinebreaks n count cs) = removeWhitespace cs := by
  have hbreak : isSpace 10 = true := by decide
  induction cs generalizing count with
  | nil => rfl
  | cons c cs ih =>
    rw [insertLinebreaks]
    by_cases hn : count = n
    · rw [if_pos hn, removeWhitespace_cons, if_pos hbreak, removeWhitespace_cons, removeWhitespace_cons,
        ih]
    · rw [if_neg hn, removeWhitespace_cons, removeWhitespace_cons, ih]

/-- Replacing the padding and removing white space commute. -/
theorem removeWhitespace_map (input : Bytes) :
    removeWhitespace (input.map fun c => if c = 61 then 65 else c) =
      (removeWhitespace input).map fun c => if c = 61 then 65 else c := by
  have hsame : ∀ c : UInt8, isSpace (if c = 61 then 65 else c) = isSpace c := by
    intro c
    by_cases hc : c = 61
    · rw [if_pos hc, hc]
      decide
    · rw [if_neg hc]
  rw [removeWhitespace, List.filter_map]
  simp only [Function.comp_def, hsame]
  rfl

theorem count_removeWhitespace (input : Bytes) :
    (removeWhitespace input).count 61 = input.count 61 :=
  List.count_filter (by decide)

/-- What is left of an encoded text without its white space: the characters and the padding. -/
theorem removeWhitespace_encode (x : Bytes) :
    removeWhitespace (B64String.encode x) =
      (transformWidth 6 8 (x.map UInt8.toNat)).map digitChar ++
        List.replicate ((3 - x.length % 3) % 3) 61 := by
  have hdigits : removeWhitespace ((transformWidth 6 8 (x.map UInt8.toNat)).map digitChar) =
      (transformWidth 6 8 (x.map UInt8.toNat)).map digitChar := by
    refine List.filter_eq_self.mpr fun c hc => ?_
    obtain ⟨v, hv, rfl⟩ := List.mem_map.mp hc
    rw [(digitChar_plain (regroup_lt hv)).1]
    rfl
  have hpadd : ∀ k, removeWhitespace (List.replicate k 61) = List.replicate k 61 := by
    intro k
    refine List.filter_eq_self.mpr fun c hc => ?_
    rw [List.eq_of_mem_replicate hc]
    decide
  show List.filter _ (_ ++ _) = _
  rw [List.filter_append]
  show removeWhitespace _ ++ removeWhitespace _ = _
  rw [removeWhitespace_insertLinebreaks, hdigits, hpadd]

theorem mapM_charDigit {vs : List ℕ} (h : ∀ v ∈ vs, v < 64) :
    (vs.map digitChar).mapM charDigit = some vs := by
  induction vs with
  | nil => rfl
  | cons v vs ih =>
    rw [List.map_cons, List.mapM_cons, charDigit_digitChar (h v List.mem_cons_self),
      ih fun u hu => h u (List.mem_cons_of_mem v hu)]
    rfl

/-! ## The round trip -/

/-- With the padding there are whole groups of three bytes. -/
theorem outputs_padded (n : ℕ) :
    outputs 8 6 (outputs 6 8 n + (3 - n % 3) % 3) = n + (3 - n % 3) % 3 := by
  have hmod := Nat.mod_lt n (show 0 < 3 by decide)
  have hdiv := Nat.div_add_mod n 3
  simp only [outputs, if_neg (show ¬ 8 < 6 by decide), if_pos (show 6 < 8 by decide)]
  split
  · omega
  · omega

/-- The characters of a text hold all of its bits. -/
theorem bits_le_outputs (n : ℕ) : 8 * n ≤ 6 * outputs 6 8 n := by
  simp only [outputs, if_neg (show ¬ 8 < 6 by decide)]
  omega

theorem decoded_padded {text x : Bytes}
    (h : removeWhitespace text = removeWhitespace (B64String.encode x)) :
    B64String.decoded text = some (x ++ List.replicate ((3 - x.length % 3) % 3) 0) := by
  set vs := x.map UInt8.toNat with hvs
  set pad := (3 - x.length % 3) % 3 with hpad
  have hdigits : ∀ v ∈ transformWidth 6 8 vs, v < 64 := fun v hv => regroup_lt hv
  have hchars : removeWhitespace (text.map fun c => if c = 61 then 65 else c) =
      (transformWidth 6 8 vs ++ List.replicate pad 0).map digitChar := by
    rw [removeWhitespace_map, h, removeWhitespace_encode, List.map_append, List.map_append,
      List.map_map, List.map_replicate, List.map_replicate]
    congr 1
    refine List.map_congr_left fun v hv => ?_
    exact if_neg (digitChar_plain (hdigits v hv)).2
  have hzero : ∀ v ∈ transformWidth 6 8 vs ++ List.replicate pad 0, v < 64 := by
    intro v hv
    rcases List.mem_append.mp hv with hv | hv
    · exact hdigits v hv
    · rw [List.eq_of_mem_replicate hv]
      decide
  have hlen : vs.length = x.length := List.length_map _
  have hback : transformWidth 8 6 (transformWidth 6 8 vs ++ List.replicate pad 0) =
      vs ++ List.replicate pad 0 := by
    have hbytes : ∀ v ∈ vs, v < 2 ^ 8 := by
      intro v hv
      obtain ⟨c, -, rfl⟩ := List.mem_map.mp hv
      exact c.toNat_lt
    rw [transformWidth, List.length_append, transformWidth, length_regroup, List.length_replicate,
      hpad, hlen, outputs_padded, ← hlen]
    exact regroup_regroup (by decide) (by decide) hbytes (bits_le_outputs _) _ _
  have hread := mapM_charDigit hzero
  rw [← hchars] at hread
  have hid : vs.map UInt8.ofNat = x := by
    have hfun : UInt8.ofNat ∘ UInt8.toNat = id := funext fun c => UInt8.ofNat_toNat
    rw [hvs, List.map_map, hfun, List.map_id]
  rw [B64String.decoded]
  simp only [hread, Option.map_some]
  rw [hback, List.map_append, List.map_replicate, hid]
  rfl

/-- Decoding an encoded text, with white space anywhere. -/
theorem decode_of_removeWhitespace {text x : Bytes}
    (h : removeWhitespace text = removeWhitespace (B64String.encode x)) :
    B64String.decode text = .ok x := by
  have hcount : text.count 61 = (3 - x.length % 3) % 3 := by
    rw [← count_removeWhitespace text, h, removeWhitespace_encode, List.count_append,
      List.count_replicate_self, List.count_eq_zero.mpr, Nat.zero_add]
    intro hmem
    obtain ⟨v, hv, hchar⟩ := List.mem_map.mp hmem
    exact (digitChar_plain (regroup_lt hv)).2 hchar
  have hpadd : B64String.paddChars text = (3 - x.length % 3) % 3 := by
    rw [B64String.paddChars, hcount]
    omega
  rw [B64String.decode, decoded_padded h]
  simp only [hpadd, List.length_append, List.length_replicate]
  rw [if_pos (Nat.le_add_left _ _), Nat.add_sub_cancel, List.take_left']
  rfl

/-- **The round trip**: every byte string is decoded from its encoded text, and from that text with
    line breaks or other white space put in or taken out anywhere. -/
theorem b64_roundtrip :
    (∀ x, B64String.decode (B64String.encode x) = .ok x) ∧
      ∀ text x, removeWhitespace text = removeWhitespace (B64String.encode x) →
        B64String.decode text = .ok x :=
  ⟨fun _ => decode_of_removeWhitespace rfl, fun _ _ h => decode_of_removeWhitespace h⟩

/-- "Zm9v" in two lines. -/
theorem b64_roundtrip_foo : B64String.decode (B64String.encode (str "foo")) = .ok (str "foo") ∧
    B64String.decode (str "Zm\n9v\n") = .ok (str "foo") :=
  ⟨b64_roundtrip.1 _, b64_roundtrip.2 (str "Zm\n9v\n") (str "foo") (by decide +kernel)⟩

/-! ## The bytes to erase -/

/-- A text of base 64 characters, `=` signs and white space. -/
def Base64Text (text : Bytes) : Prop := ∀ c ∈ text, c ∈ alphabet ∨ c = 61 ∨ isSpace c = true

/-- The base 64 characters of a text. -/
def charCount (text : Bytes) : ℕ := text.countP (· ∈ alphabet)

theorem alphabet_plain {c : UInt8} (h : c ∈ alphabet) : isSpace c = false ∧ c ≠ 61 := by
  have hall : ∀ c ∈ alphabet, isSpace c = false ∧ c ≠ 61 := by decide +kernel
  exact hall c h

theorem length_removeWhitespace {text : Bytes} (h : Base64Text text) :
    (removeWhitespace text).length = charCount text + text.count 61 := by
  have hpad : ¬ (61 : UInt8) ∈ alphabet := fun hmem => (alphabet_plain hmem).2 rfl
  have hpadSpace : isSpace 61 = false := by decide
  induction text with
  | nil => rfl
  | cons c cs ih =>
    have hrest := ih fun d hd => h d (List.mem_cons_of_mem c hd)
    rw [charCount] at hrest
    rw [removeWhitespace_cons, charCount, List.countP_cons, List.count_cons]
    rcases h c List.mem_cons_self with hc | rfl | hc
    · obtain ⟨hs, hne⟩ := alphabet_plain hc
      simp [hs, hc, hne, hrest]
      omega
    · simp [hpad, hpadSpace, hrest]
      omega
    · have hc' : ¬ c ∈ alphabet := fun hmem => by
        rw [(alphabet_plain hmem).1] at hc
        cases hc
      have hne : c ≠ 61 := fun he => by
        rw [he, hpadSpace] at hc
        cases hc
      simp [hc, hc', hne, hrest]

/-- Such a text is read, and gives a byte for every value of six bits that is begun. -/
theorem decoded_base64Text {text : Bytes} (h : Base64Text text) :
    ∃ result, B64String.decoded text = some result ∧
      result.length = outputs 8 6 (charCount text + text.count 61) := by
  have hchar : ∀ c ∈ removeWhitespace (text.map fun c => if c = 61 then 65 else c),
      ∃ v, charDigit c = some v := by
    intro c hc
    rw [removeWhitespace_map] at hc
    obtain ⟨b, hb, rfl⟩ := List.mem_map.mp hc
    obtain ⟨hb, hs⟩ := List.mem_filter.mp hb
    by_cases hpad : b = 61
    · rw [if_pos hpad]
      exact ⟨0, by decide +kernel⟩
    · rw [if_neg hpad]
      have hmem : b ∈ alphabet := by
        rcases h b hb with hmem | he | hsp
        · exact hmem
        · exact absurd he hpad
        · rw [hsp] at hs
          cases hs
      exact ⟨_, if_pos hmem⟩
  have hmap : ∀ cs : Bytes, (∀ c ∈ cs, ∃ v, charDigit c = some v) →
      ∃ digits, cs.mapM charDigit = some digits ∧ digits.length = cs.length := by
    intro cs hcs
    induction cs with
    | nil => exact ⟨[], rfl, rfl⟩
    | cons c cs ih =>
      obtain ⟨v, hv⟩ := hcs c List.mem_cons_self
      obtain ⟨digits, hd, hlen⟩ := ih fun d hd => hcs d (List.mem_cons_of_mem c hd)
      exact ⟨v :: digits, by rw [List.mapM_cons, hv, hd]; rfl, by simp [hlen]⟩
  obtain ⟨digits, hd, hlen⟩ := hmap _ hchar
  refine ⟨(transformWidth 8 6 digits).map UInt8.ofNat, ?_, ?_⟩
  · rw [B64String.decoded]
    simp only [hd, Option.map_some]
  · rw [List.length_map, transformWidth, length_regroup, hlen, removeWhitespace_map,
      List.length_map, length_removeWhitespace h]

/-- **The erase range is valid** exactly when the `=` signs are at most one more than three times the
    base 64 characters, or too many for the counter. -/
theorem erase_valid_iff {text : Bytes} (h : Base64Text text) :
    (∃ result, B64String.decoded text = some result ∧
        B64String.paddChars text ≤ result.length) ↔
      text.count 61 ≤ 3 * charCount text + 1 ∨ 2 ^ 32 ≤ text.count 61 := by
  obtain ⟨result, hresult, hlen⟩ := decoded_base64Text h
  have hvalid : (∃ result, B64String.decoded text = some result ∧
      B64String.paddChars text ≤ result.length) ↔
        text.count 61 % 2 ^ 32 ≤ outputs 8 6 (charCount text + text.count 61) := by
    rw [hresult, ← hlen]
    simp [B64String.paddChars]
  rw [hvalid]
  simp only [outputs, if_pos (show 6 < 8 by decide)]
  split
  · omega
  · omega

/-- The text of one byte. -/
theorem erase_valid_one : Base64Text (str "QQ==") ∧
    ∃ result, B64String.decoded (str "QQ==") = some result ∧
      B64String.paddChars (str "QQ==") ≤ result.length := by
  have htext : Base64Text (str "QQ==") := by
    unfold Base64Text
    decide +kernel
  exact ⟨htext, (erase_valid_iff htext).mpr (Or.inl (by decide +kernel))⟩

/-- Four `=` signs are read as three zero bytes, of which four are to be erased. -/
theorem padding_only_underflows : Base64Text (str "====") ∧
    B64String.decoded (str "====") = some [0, 0, 0] ∧ B64String.paddChars (str "====") = 4 ∧
    B64String.decode (str "====") = .error .eraseRange := by
  refine ⟨?_, by decide +kernel, by decide +kernel, by decide +kernel⟩
  unfold Base64Text
  decide +kernel

/-! ## `S64String` -/

namespace S64String

/-- `Encode`. -/
def encode (compress : Bytes → Bytes) (input : Bytes) : Bytes := B64String.encode (compress input)

/-- `Decode`: what `Uncompress` leaves in its output, whether it returns true or not. -/
def decode (uncompress : Bytes → Bytes) (input : Bytes) : Except B64String.DecodeError Bytes :=
  (B64String.decode input).map uncompress

end S64String

/-- What one node sends is what another reads, when the compression has a round trip. -/
theorem s64_roundtrip {compress uncompress : Bytes → Bytes}
    (h : ∀ x, uncompress (compress x) = x) (x : Bytes) :
    S64String.decode uncompress (S64String.encode compress x) = .ok x := by
  rw [S64String.decode, S64String.encode, decode_of_removeWhitespace rfl]
  exact congrArg Except.ok (h x)

end Zapdos.Utils
