/-
  Form texts — `urlencode` and `urldecode`.

  The decoder walks a buffer with an iterator: it stops at the end of the text by comparing for
  equality, looks at the two characters behind a `%`, and steps over them.  The buffer is the text and
  its terminating zero; the model's loop has no result when it reads beyond that, or does not end
  within `fuel` rounds.

  THE CRUX.  The iterator jumps only when both characters behind the `%` are non-zero.  The first test
  fails on the terminating zero before the second character is read, and a jump never passes the end
  (`urldecodeLoop_eq`, which also says what the loop computes from the characters that are left).
-/
import Mathlib.Data.List.Lex
import Zapdos.Lib.OrdMap
import Zapdos.Search.BaseUtils

namespace Zapdos.Query.ProtoForm

open Zapdos.Lib Zapdos.Store

/-! ## Decoding -/

/-- The buffer of a text at a position: past the text a zero, and nothing behind it. -/
def charAt (text : Bytes) (i : ℕ) : Option UInt8 := (text ++ [0])[i]?

/-- `from_hex`. -/
def fromHex (ch : UInt8) : UInt8 :=
  if 48 ≤ ch ∧ ch ≤ 57 then ch - 48 else toLower ch - 97 + 10

/-- `from_hex(i[1]) << 4 | from_hex(i[2])`. -/
def hexByte (a b : UInt8) : UInt8 := fromHex a <<< 4 ||| fromHex b

/-- The variables of the loop. -/
structure Decoding where
  m : OrdMap Bytes Bytes := OrdMap.empty
  name : Bytes := []
  escaped : Bytes := []
  nameSet : Bool := false

/-- `escaped << c`. -/
def Decoding.push (d : Decoding) (c : UInt8) : Decoding := { d with escaped := d.escaped ++ [c] }

/-- The branches of the loop for a character other than `%`. -/
def Decoding.plain (d : Decoding) (c : UInt8) : Decoding :=
  if c = 43 then d.push 32
  else if c = 61 then { d with name := d.escaped, escaped := [], nameSet := true }
  else if c = 38 then
    { d with
      m := if d.nameSet then d.m.put d.name d.escaped else d.m
      escaped := []
      nameSet := false }
  else d.push c

/-- One round: the variables and the iterator before `++i`. -/
def urldecodeStep (text : Bytes) (d : Decoding) (i : ℕ) : Option (Decoding × ℕ) := do
  let c ← charAt text i
  if c = 37 then
    let a ← charAt text (i + 1)
    if a ≠ 0 then
      let b ← charAt text (i + 2)
      if b ≠ 0 then pure (d.push (hexByte a b), i + 2) else pure (d, i)
    else pure (d, i)
  else pure (d.plain c, i)

/-- The loop of `urldecode`. -/
def urldecodeLoop (text : Bytes) : ℕ → Decoding → ℕ → Option Decoding
  | 0, _, _ => none
  | fuel + 1, d, i =>
    if i = text.length then some d
    else do
      let (d, i) ← urldecodeStep text d i
      urldecodeLoop text fuel d (i + 1)

/-- What `urldecode` does after the loop. -/
def Decoding.finish (d : Decoding) : OrdMap Bytes Bytes :=
  if d.nameSet then d.m.put d.name d.escaped else d.m.put d.escaped []

/-- `urldecode`: a round for every character is enough. -/
def urldecode (text : Bytes) : Option (OrdMap Bytes Bytes) :=
  (urldecodeLoop text (text.length + 1) {} 0).map Decoding.finish

/-! ## Encoding -/

/-- Characters that `urlencode` keeps. -/
def isKept (c : UInt8) : Bool := isAlnum c || c = 45 || c = 95 || c = 46 || c = 126

/-- A digit of `std::hex` with `std::uppercase`. -/
def hexDigit (n : ℕ) : UInt8 := if n < 10 then UInt8.ofNat (48 + n) else UInt8.ofNat (55 + n)

/-- What `urlencode` writes for a character: itself, or `%` and two digits. -/
def urlencodeChar (c : UInt8) : Bytes :=
  if isKept c then [c] else [37, hexDigit (c.toNat / 16), hexDigit (c.toNat % 16)]

/-- `urlencode`. -/
def urlencode (value : Bytes) : Bytes := value.flatMap urlencodeChar

/-- A form: keys and values, encoded, with `=` between them and `&` between the pairs. -/
def formText : List (Bytes × Bytes) → Bytes
  | [] => []
  | [p] => urlencode p.1 ++ 61 :: urlencode p.2
  | p :: pairs => urlencode p.1 ++ 61 :: urlencode p.2 ++ 38 :: formText pairs

/-! ## The loop over the rest of the text -/

/-- The loop of `urldecode`, by the characters that are left. -/
def decodeRest : Decoding → Bytes → Decoding
  | d, [] => d
  | d, c :: cs =>
    if c = 37 then
      match cs with
      | a :: b :: rest =>
        if a ≠ 0 ∧ b ≠ 0 then decodeRest (d.push (hexByte a b)) rest else decodeRest d (a :: b :: rest)
      | [a] => decodeRest d [a]
      | [] => decodeRest d []
    else decodeRest (d.plain c) cs

/-- The buffer at a position in what is left of the text. -/
theorem charAt_drop {text rest : Bytes} {i : ℕ} (h : text.drop i = rest) (hi : i ≤ text.length)
    (j : ℕ) : charAt text (i + j) = (rest ++ [0])[j]? := by
  rw [← h, charAt, ← List.drop_append_of_le_length hi, List.getElem?_drop]

/-- **The loop stays in the buffer and ends**: from every position, with more fuel than characters
    left. -/
theorem urldecodeLoop_eq {text rest : Bytes} {i fuel : ℕ} (h : text.drop i = rest)
    (hi : i ≤ text.length) (hfuel : rest.length < fuel) (d : Decoding) :
    urldecodeLoop text fuel d i = some (decodeRest d rest) := by
  induction fuel generalizing i rest d with
  | zero => exact absurd hfuel (Nat.not_lt_zero _)
  | succ fuel ih =>
    have hlen : rest.length = text.length - i := by rw [← h, List.length_drop]
    have hread := charAt_drop h hi
    cases rest with
    | nil =>
      have hend : i = text.length := by
        rw [List.length_nil] at hlen
        omega
      rw [urldecodeLoop, if_pos hend]
      rfl
    | cons c cs =>
      rw [List.length_cons] at hlen hfuel
      have hnext : text.drop (i + 1) = cs := by rw [← List.drop_drop, h, List.drop_one, List.tail_cons]
      have hc : charAt text i = some c := hread 0
      rw [urldecodeLoop, if_neg (by omega), urldecodeStep, hc, decodeRest.eq_def]
      by_cases hpct : c = 37
      · have hstay := ih hnext (by omega) (by omega) d
        simp only [Option.bind_eq_bind, Option.bind_some, if_pos hpct]
        cases cs with
        | nil =>
          have ha : charAt text (i + 1) = some 0 := hread 1
          simp only [ha, Option.bind_some]
          exact hstay
        | cons a cs =>
          have ha : charAt text (i + 1) = some a := hread 1
          simp only [ha, Option.bind_some]
          by_cases ha0 : a = 0
          · -- the second character is not read
            subst ha0
            simp only [ne_eq, not_true_eq_false, if_false]
            cases cs with
            | nil => exact hstay
            | cons b cs => exact hstay
          · cases cs with
            | nil =>
              have hb : charAt text (i + 2) = some 0 := hread 2
              simp only [hb, ne_eq, ha0, not_false_eq_true, if_true, Option.bind_some,
                not_true_eq_false, if_false]
              exact hstay
            | cons b cs =>
              have hb : charAt text (i + 2) = some b := hread 2
              simp only [hb, ne_eq, ha0, not_false_eq_true, if_true, Option.bind_some, true_and]
              by_cases hb0 : b = 0
              · rw [if_neg (not_not.mpr hb0), if_neg (not_not.mpr hb0)]
                exact hstay
              · rw [if_pos hb0, if_pos hb0]
                have hjump : text.drop (i + 2 + 1) = cs := by
                  rw [show i + 2 + 1 = i + 1 + 2 by omega, ← List.drop_drop, hnext]
                  rfl
                rw [List.length_cons, List.length_cons] at hlen hfuel
                exact ih hjump (by omega) (by omega) (d.push (hexByte a b))
      · simp only [Option.bind_eq_bind, Option.bind_some, if_neg hpct]
        exact ih hnext (by omega) (by omega) (d.plain c)

/-- Every text has a result. -/
theorem urldecode_eq (text : Bytes) : urldecode text = some (decodeRest {} text).finish := by
  have hstart : text.drop 0 = text := rfl
  rw [urldecode, urldecodeLoop_eq hstart (Nat.zero_le _) (Nat.lt_succ_self _)]
  rfl

/-! ## The round trip -/

theorem hexByte_hexDigit (c : UInt8) :
    hexByte (hexDigit (c.toNat / 16)) (hexDigit (c.toNat % 16)) = c := by
  have hall : ∀ n : Fin 256, hexByte (hexDigit (n.1 / 16)) (hexDigit (n.1 % 16)) = UInt8.ofNat n.1 := by
    decide +kernel
  exact (hall ⟨c.toNat, c.toNat_lt⟩).trans UInt8.ofNat_toNat

theorem hexDigit_ne_zero {n : ℕ} (h : n < 16) : hexDigit n ≠ 0 := by
  have hall : ∀ n : Fin 16, hexDigit n.1 ≠ 0 := by decide
  exact hall ⟨n, h⟩

theorem decodeRest_plain {c : UInt8} (hc : c ≠ 37) (d : Decoding) (cs : Bytes) :
    decodeRest d (c :: cs) = decodeRest (d.plain c) cs := by
  rw [decodeRest.eq_def]
  simp only [if_neg hc]

/-- A kept character means nothing to the decoder. -/
theorem plain_kept {c : UInt8} (h : isKept c = true) (d : Decoding) :
    c ≠ 37 ∧ d.plain c = d.push c := by
  have hne : ∀ x : UInt8, isKept x = false → c ≠ x := by
    intro x hx hcx
    rw [hcx, hx] at h
    cases h
  refine ⟨hne 37 (by decide), ?_⟩
  rw [Decoding.plain, if_neg (hne 43 (by decide)), if_neg (hne 61 (by decide)),
    if_neg (hne 38 (by decide))]

theorem decodeRest_urlencodeChar (d : Decoding) (c : UInt8) (rest : Bytes) :
    decodeRest d (urlencodeChar c ++ rest) = decodeRest (d.push c) rest := by
  rw [urlencodeChar]
  by_cases hk : isKept c = true
  · obtain ⟨hpct, hplain⟩ := plain_kept hk d
    rw [if_pos hk, List.singleton_append, decodeRest_plain hpct, hplain]
  · have hc := c.toNat_lt
    have hhigh : hexDigit (c.toNat / 16) ≠ 0 := hexDigit_ne_zero (by omega)
    have hlow : hexDigit (c.toNat % 16) ≠ 0 := hexDigit_ne_zero (by omega)
    rw [if_neg hk]
    show decodeRest d (37 :: hexDigit (c.toNat / 16) :: hexDigit (c.toNat % 16) :: rest) = _
    rw [decodeRest.eq_def]
    simp only [if_true, if_pos (And.intro hhigh hlow), hexByte_hexDigit]

/-- An encoded text is decoded to the text. -/
theorem decodeRest_urlencode (d : Decoding) (value rest : Bytes) :
    decodeRest d (urlencode value ++ rest) =
      decodeRest { d with escaped := d.escaped ++ value } rest := by
  induction value generalizing d with
  | nil => simp [urlencode]
  | cons c cs ih =>
    have hcons : urlencode (c :: cs) = urlencodeChar c ++ urlencode cs := List.flatMap_cons ..
    rw [hcons, List.append_assoc, decodeRest_urlencodeChar, ih]
    simp [Decoding.push]

theorem decodeRest_equals (m : OrdMap Bytes Bytes) (name k rest : Bytes) :
    decodeRest ⟨m, name, k, false⟩ (61 :: rest) = decodeRest ⟨m, k, [], true⟩ rest := by
  rw [decodeRest_plain (by decide), Decoding.plain, if_neg (by decide), if_pos rfl]

theorem decodeRest_ampersand (m : OrdMap Bytes Bytes) (k v rest : Bytes) :
    decodeRest ⟨m, k, v, true⟩ (38 :: rest) = decodeRest ⟨m.put k v, k, [], false⟩ rest := by
  rw [decodeRest_plain (by decide), Decoding.plain, if_neg (by decide), if_neg (by decide),
    if_pos rfl, if_pos rfl]

/-- A pair is read into the name and the text collected. -/
theorem decodeRest_pair (m : OrdMap Bytes Bytes) (name k v rest : Bytes) :
    decodeRest ⟨m, name, [], false⟩ (urlencode k ++ 61 :: urlencode v ++ rest) =
      decodeRest ⟨m, k, v, true⟩ rest := by
  rw [List.append_assoc, decodeRest_urlencode, List.cons_append]
  show decodeRest ⟨m, name, k, false⟩ _ = _
  rw [decodeRest_equals, decodeRest_urlencode]
  rfl

/-- The map that a form is decoded to: its pairs, put one after the other. -/
theorem finish_formText (pairs : List (Bytes × Bytes)) (hne : pairs ≠ []) (m : OrdMap Bytes Bytes)
    (name : Bytes) :
    (decodeRest ⟨m, name, [], false⟩ (formText pairs)).finish =
      m.write (pairs.map fun p => .put p.1 p.2) := by
  fun_induction formText pairs generalizing m name with
  | case1 => exact absurd rfl hne
  | case2 p =>
    have hpair := decodeRest_pair m name p.1 p.2 []
    rw [List.append_nil] at hpair
    rw [hpair]
    rfl
  | case3 p pairs hmore ih =>
    have hpairs : pairs ≠ [] := fun h => hmore (by rw [h])
    rw [decodeRest_pair, decodeRest_ampersand, ih hpairs]
    rfl

theorem get_write_pairs_of_mem {pairs : List (Bytes × Bytes)} (hkeys : (pairs.map Prod.fst).Nodup)
    {k v : Bytes} (h : (k, v) ∈ pairs) (m : OrdMap Bytes Bytes) :
    (m.write (pairs.map fun p => .put p.1 p.2)).get k = some v := by
  induction pairs generalizing m with
  | nil => cases h
  | cons p pairs ih =>
    rw [List.map_cons, List.nodup_cons] at hkeys
    obtain ⟨hnew, hkeys⟩ := hkeys
    rw [List.map_cons, OrdMap.write_cons]
    rcases List.mem_cons.mp h with rfl | h
    · -- the later pairs have other keys
      rw [OrdMap.get_write_of_not_mem]
      · exact OrdMap.get_put_self m k v
      · intro op hop hkey
        obtain ⟨q, hq, rfl⟩ := List.mem_map.mp hop
        exact hnew (List.mem_map.mpr ⟨q, hq, hkey⟩)
    · exact ih hkeys h _

/-- Pairs with different keys are exactly the rows they leave. -/
theorem get_write_pairs {pairs : List (Bytes × Bytes)} (hkeys : (pairs.map Prod.fst).Nodup)
    (k v : Bytes) :
    ((OrdMap.empty : OrdMap Bytes Bytes).write (pairs.map fun p => .put p.1 p.2)).get k = some v ↔
      (k, v) ∈ pairs := by
  constructor
  · intro h
    rcases OrdMap.get_write_some h with hempty | hmem
    · cases hempty
    · obtain ⟨p, hp, hput⟩ := List.mem_map.mp hmem
      cases hput
      exact hp
  · intro h
    exact get_write_pairs_of_mem hkeys h OrdMap.empty

theorem urldecode_formText {pairs : List (Bytes × Bytes)} (hne : pairs ≠ [])
    (hkeys : (pairs.map Prod.fst).Nodup) :
    ∃ m, urldecode (formText pairs) = some m ∧ ∀ k v, m.get k = some v ↔ (k, v) ∈ pairs := by
  refine ⟨_, urldecode_eq _, fun k v => ?_⟩
  have hfinish := finish_formText pairs hne OrdMap.empty []
  rw [hfinish]
  exact get_write_pairs hkeys k v

/-- **Form texts**: the encoded pairs, keys all different, are decoded to exactly these pairs; and
    the decoder ends on every text, without a read beyond its terminating zero. -/
theorem form_roundtrip :
    (∀ pairs : List (Bytes × Bytes), pairs ≠ [] → (pairs.map Prod.fst).Nodup →
      ∃ m, urldecode (formText pairs) = some m ∧ ∀ k v, m.get k = some v ↔ (k, v) ∈ pairs) ∧
    ∀ text, ∃ m, urldecode text = some m :=
  ⟨fun _ hne hkeys => urldecode_formText hne hkeys, fun text => ⟨_, urldecode_eq text⟩⟩

/-- Two pairs with separators, a zero byte and a byte above 127; and a text that ends in a `%`. -/
theorem form_roundtrip_two :
    (∃ m, urldecode (formText [(str "a=b", str "50% &+"), ([], [0, 200])]) = some m ∧
      m.get (str "a=b") = some (str "50% &+") ∧ m.get [] = some [0, 200]) ∧
      ∃ m, urldecode (str "x=%4") = some m := by
  obtain ⟨m, hm, hget⟩ := form_roundtrip.1 [(str "a=b", str "50% &+"), ([], [0, 200])] (by simp)
    (by decide)
  exact ⟨⟨m, hm, (hget _ _).mpr (by decide), (hget _ _).mpr (by decide)⟩,
    form_roundtrip.2 (str "x=%4")⟩

end Zapdos.Query.ProtoForm
