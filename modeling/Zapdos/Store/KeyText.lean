/-
  Keys as bytes — `EncodePrimaryKey`, `CheckPrimaryKey`, `DecodePrimaryKey` and `EncodeSecondaryKey`.

  A key starts with two hexadecimal digits of the key type.  A primary key goes on with the sixteen
  digits of the id; a secondary key with its parts one after the other, a separator byte between them:
  numbers in sixteen digits, signed ones moved up by the largest `int64_t`, strings as they are.

  THE CRUX.  All numbers take their full width, so keys of one shape are compared number by number.
  A string ends at the first separator, so only the last one may hold that byte.  Both kinds of keys
  start with the key type, which `CheckPrimaryKey` looks at after the length.
-/
import Zapdos.Lib.CString
import Zapdos.Search.SortHelpers
import Zapdos.Store.Keys

namespace Zapdos.Store.KeyText

open Zapdos.Lib
open Zapdos.Search (hexOut setwOut hexDigit_lt int64Max)

/-! ## Printing -/

/-- `ZPDS_KEYID_LEN`. -/
def keyidLen : ℕ := 2

/-- `ZPDS_NODE_LEN`. -/
def nodeLen : ℕ := 16

/-- `ZPDS_MACRO_HEX(w) << n`. -/
def macroHex (w n : ℕ) : Bytes := setwOut w (hexOut n)

/-- `ZPDS_FMT_ID_KEY`; the key type is cast to `unsigned short`. -/
def fmtIdKey (keytype : KeyTypeE) : Bytes := macroHex keyidLen (keytype % 2 ^ 16)

/-- `ZPDS_FMT_SEP`. -/
def fmtSep : UInt8 := 0x1E

/-- `EncodePrimaryKey`. -/
def encodePrimaryKey (keytype : KeyTypeE) (id : UInt64) : Bytes :=
  fmtIdKey keytype ++ macroHex nodeLen id.toNat

/-- One argument of `EncodeSecondaryKey`. -/
inductive Arg
  | int32 (t : Int32)
  | int64 (t : Int64)
  | uint32 (t : UInt32)
  | uint64 (t : UInt64)
  | string (t : Bytes)
  deriving DecidableEq

/-- The `uint64_t` that `MakePrefix` and `MakeSuffix` print for a signed number. -/
def signedCode (t : ℤ) : ℕ :=
  if t < 0 then (int64Max + 2 ^ 64 - t.natAbs) % 2 ^ 64 else (int64Max + t.natAbs) % 2 ^ 64

/-- What is printed for one argument. -/
def Arg.text : Arg → Bytes
  | .int32 t => macroHex nodeLen (signedCode t.toInt)
  | .int64 t => macroHex nodeLen (signedCode t.toInt)
  | .uint32 t => macroHex nodeLen t.toNat
  | .uint64 t => macroHex nodeLen t.toNat
  | .string t => t

/-- `MakeSuffix`, for all further arguments. -/
def makeSuffix (args : List Arg) : Bytes := args.flatMap fun a => fmtSep :: a.text

/-- `EncodeSecondaryKey`: `MakePrefix` for the first argument, `MakeSuffix` for the others. -/
def encodeSecondaryKey (keytype : KeyTypeE) (arg : Arg) (args : List Arg) : Bytes :=
  fmtIdKey keytype ++ arg.text ++ makeSuffix args

/-! ## Reading -/

/-- The value of a hexadecimal digit. -/
def hexVal (c : UInt8) : Option ℕ :=
  if 48 ≤ c ∧ c ≤ 57 then some (c.toNat - 48)
  else if 97 ≤ c ∧ c ≤ 102 then some (c.toNat - 87)
  else if 65 ≤ c ∧ c ≤ 70 then some (c.toNat - 55)
  else none

/-- The digits at the front, read on from `n`. -/
def readHex : Bytes → ℕ → ℕ
  | [], n => n
  | c :: s, n =>
    match hexVal c with
    | none => n
    | some d => readHex s (16 * n + d)

/-- A `0x` before digits is skipped. -/
def skipBase : Bytes → Bytes
  | c :: x :: d :: s =>
    if c = 48 ∧ (x = 120 ∨ x = 88) ∧ (hexVal d).isSome then d :: s else c :: x :: d :: s
  | s => s

/-- The sign at the front, and what follows. -/
def readSign : Bytes → Bool × Bytes
  | [] => (false, [])
  | c :: s => if c = 45 then (true, s) else if c = 43 then (false, s) else (false, c :: s)

/-- What the key functions throw. -/
inductive KeyError
  | invalidArgument | outOfRange | badData (msg : Bytes)
  deriving DecidableEq

/-- The sign and the number that `strtol` and `strtoull` read in base 16, if there is one. -/
def strtol16 (s : Bytes) : Except KeyError (Bool × ℕ) :=
  let (neg, s) := readSign (s.dropWhile isSpace)
  match skipBase s with
  | [] => .error .invalidArgument
  | c :: s =>
    if (hexVal c).isSome then .ok (neg, readHex (c :: s) 0) else .error .invalidArgument

/-- The number as an `int`. -/
def toInt (x : ℤ) : Except KeyError ℤ :=
  if -2 ^ 31 ≤ x ∧ x < 2 ^ 31 then .ok x else .error .outOfRange

/-- `std::stoi(s, 0, 16)`. -/
def stoi16 (s : Bytes) : Except KeyError ℤ :=
  match strtol16 s with
  | .error e => .error e
  | .ok (neg, n) => toInt (if neg then -n else n)

/-- The number as an `unsigned long long`; a minus sign wraps it around. -/
def toULL (neg : Bool) (n : ℕ) : Except KeyError ℕ :=
  if n < 2 ^ 64 then .ok (if neg then (2 ^ 64 - n) % 2 ^ 64 else n) else .error .outOfRange

/-- `std::stoull(s, 0, 16)`. -/
def stoull16 (s : Bytes) : Except KeyError ℕ :=
  match strtol16 s with
  | .error e => .error e
  | .ok (neg, n) => toULL neg n

/-- `CheckPrimaryKey`. -/
def checkPrimaryKey (key : Bytes) : Except KeyError Bool :=
  if key.length ≠ keyidLen + nodeLen then pure false
  else do
    let x ← stoi16 (key.take keyidLen)
    pure ((kNonode : ℤ) ≤ x && x ≤ (kMaxnode : ℤ))

/-- `DecodePrimaryKey`. -/
def decodePrimaryKey (key : Bytes) : Except KeyError (KeyTypeE × ℕ) := do
  let ok ← checkPrimaryKey key
  if !ok then .error (.badData (str "Invalid Key probed"))
  else
    let x ← stoi16 (key.take keyidLen)
    let y ← stoull16 ((key.drop keyidLen).take nodeLen)
    pure (x.toNat, y)

/-! ## Fields -/

/-- A number that fits its field fills it. -/
theorem macroHex_eq {w n : ℕ} (hw : 0 < w) (hn : n < 16 ^ w) :
    macroHex w n = Radix.fixed 16 chr w n := by
  obtain ⟨w, rfl⟩ := Nat.exists_eq_succ_of_ne_zero (by omega : w ≠ 0)
  exact Radix.padded_eq_fixed (by omega) hn

/-- The width is kept. -/
theorem length_macroHex {w n : ℕ} (hw : 0 < w) (hn : n < 16 ^ w) : (macroHex w n).length = w := by
  rw [macroHex_eq hw hn, Radix.length_fixed]

/-- Digits of one width sort as the numbers. -/
theorem macroHex_lt_iff {w m n : ℕ} (hw : 0 < w) (hm : m < 16 ^ w) (hn : n < 16 ^ w) :
    macroHex w m < macroHex w n ↔ m < n := by
  rw [macroHex_eq hw hm, macroHex_eq hw hn]
  exact Radix.fixed_lt_iff hexDigit_lt (by omega) hm hn

/-- They tell the number. -/
theorem macroHex_inj {w m n : ℕ} (hw : 0 < w) (hm : m < 16 ^ w) (hn : n < 16 ^ w)
    (h : macroHex w m = macroHex w n) : m = n := by
  rw [macroHex_eq hw hm, macroHex_eq hw hn] at h
  exact Radix.fixed_inj hexDigit_lt (by omega) hm hn h

/-! ## Reading a field back -/

/-- A digit reads as its value. -/
theorem hexVal_chr : ∀ d < 16, hexVal (chr d.digitChar) = some d := by decide

/-- Reading on over fixed digits. -/
theorem readHex_fixed (w n m : ℕ) (s : Bytes) (hn : n < 16 ^ w) :
    readHex (Radix.fixed 16 chr w n ++ s) m = readHex s (16 ^ w * m + n) := by
  induction w generalizing n m s with
  | zero =>
    rw [Nat.pow_zero] at hn
    have hzero : n = 0 := by omega
    rw [hzero, Nat.pow_zero, Nat.one_mul, Nat.add_zero]
    rfl
  | succ w ih =>
    have hdiv : n / 16 < 16 ^ w := by
      rw [Nat.div_lt_iff_lt_mul (by omega), ← Nat.pow_succ]
      exact hn
    have hval := hexVal_chr (n % 16) (Nat.mod_lt n (by omega))
    rw [Radix.fixed, List.append_assoc, ih _ _ _ hdiv, List.singleton_append, readHex]
    simp only [hval]
    congr 1
    have hmod := Nat.div_add_mod n 16
    rw [Nat.pow_succ]
    linarith

/-- No digit is a space, a sign or an `x`. -/
theorem chr_plain : ∀ d < 16, isSpace (chr d.digitChar) = false ∧ chr d.digitChar ≠ 45 ∧
    chr d.digitChar ≠ 43 ∧ chr d.digitChar ≠ 120 ∧ chr d.digitChar ≠ 88 := by decide

/-- The characters are digits. -/
theorem mem_fixed {w n : ℕ} {c : UInt8} (hc : c ∈ Radix.fixed 16 chr w n) :
    ∃ d < 16, c = chr d.digitChar := by
  induction w generalizing n with
  | zero => cases hc
  | succ w ih =>
    rw [Radix.fixed] at hc
    rcases List.mem_append.mp hc with hc | hc
    · exact ih hc
    · exact ⟨n % 16, Nat.mod_lt n (by omega), List.mem_singleton.mp hc⟩

/-- **A field is read back.** -/
theorem strtol16_macroHex {w n : ℕ} (hw : 0 < w) (hn : n < 16 ^ w) :
    strtol16 (macroHex w n) = .ok (false, n) := by
  rw [macroHex_eq hw hn]
  have hread := readHex_fixed w n 0 [] hn
  rw [List.append_nil, Nat.mul_zero, Nat.zero_add] at hread
  have hplain : ∀ c ∈ Radix.fixed 16 chr w n, (hexVal c).isSome ∧ isSpace c = false ∧ c ≠ 45 ∧
      c ≠ 43 ∧ c ≠ 120 ∧ c ≠ 88 := by
    intro c hc
    obtain ⟨d, hd, rfl⟩ := mem_fixed hc
    exact ⟨by rw [hexVal_chr d hd]; rfl, chr_plain d hd⟩
  have hlen := Radix.length_fixed (b := 16) (f := chr) w n
  generalize Radix.fixed 16 chr w n = s at hread hplain hlen
  cases s with
  | nil =>
    rw [List.length_nil] at hlen
    omega
  | cons c s =>
    obtain ⟨hhex, hspace, hminus, hplus, -⟩ := hplain c List.mem_cons_self
    have hskip : skipBase (c :: s) = c :: s := by
      unfold skipBase
      split
      · rename_i x d t he
        obtain ⟨rfl, rfl⟩ := List.cons.inj he
        obtain ⟨-, -, -, -, hx, hx'⟩ := hplain x (List.mem_cons_of_mem _ List.mem_cons_self)
        rw [if_neg (by tauto)]
      · rfl
    unfold strtol16
    rw [List.dropWhile_cons_of_neg (by simp [hspace])]
    simp only [readSign, if_neg hminus, if_neg hplus, hskip, hhex, if_true, hread]
    rfl

/-! ## Primary keys -/

/-- `stoi` on a number that fits. -/
theorem stoi16_of_strtol {s : Bytes} {n : ℕ} (h : strtol16 s = .ok (false, n)) (hn : n < 2 ^ 31) :
    stoi16 s = .ok n := by
  have hint : toInt (n : ℤ) = .ok n := if_pos (by omega)
  unfold stoi16
  rw [h]
  simp only [Bool.false_eq_true, if_false]
  exact hint

/-- `stoull` on a number that fits. -/
theorem stoull16_of_strtol {s : Bytes} {n : ℕ} (h : strtol16 s = .ok (false, n)) (hn : n < 2 ^ 64) :
    stoull16 s = .ok n := by
  have hull : toULL false n = .ok n := if_pos hn
  unfold stoull16
  rw [h]
  exact hull

/-- A key type of two digits. -/
theorem fmtIdKey_eq {kt : KeyTypeE} (hkt : kt < 256) : fmtIdKey kt = macroHex keyidLen kt := by
  unfold fmtIdKey
  rw [Nat.mod_eq_of_lt (lt_trans hkt (by decide))]

/-- The tag has two characters. -/
theorem length_fmtIdKey {kt : KeyTypeE} (hkt : kt < 256) : (fmtIdKey kt).length = keyidLen := by
  rw [fmtIdKey_eq hkt]
  exact length_macroHex (by decide) hkt

/-- It tells the key type. -/
theorem fmtIdKey_inj {kt kt' : KeyTypeE} (hkt : kt < 256) (hkt' : kt' < 256)
    (h : fmtIdKey kt = fmtIdKey kt') : kt = kt' := by
  rw [fmtIdKey_eq hkt, fmtIdKey_eq hkt'] at h
  exact macroHex_inj (by decide) hkt hkt' h

/-- It sorts as the key types. -/
theorem fmtIdKey_lt_iff {kt kt' : KeyTypeE} (hkt : kt < 256) (hkt' : kt' < 256) :
    fmtIdKey kt < fmtIdKey kt' ↔ kt < kt' := by
  rw [fmtIdKey_eq hkt, fmtIdKey_eq hkt']
  exact macroHex_lt_iff (by decide) hkt hkt'

/-- The key type is read off the front of every key. -/
theorem stoi16_key {kt : KeyTypeE} (hkt : kt < 256) (s : Bytes) :
    stoi16 ((fmtIdKey kt ++ s).take keyidLen) = .ok kt := by
  have htake : (fmtIdKey kt ++ s).take keyidLen = fmtIdKey kt :=
    List.take_left' (length_fmtIdKey hkt)
  rw [htake, fmtIdKey_eq hkt]
  exact stoi16_of_strtol (strtol16_macroHex (by decide) hkt) (lt_trans hkt (by decide))

/-- **What `CheckPrimaryKey` looks at**: the length, and the key type. -/
theorem checkPrimaryKey_key {kt : KeyTypeE} (hkt : kt < 256) (s : Bytes) :
    checkPrimaryKey (fmtIdKey kt ++ s) =
      .ok (decide (s.length = nodeLen ∧ kNonode ≤ kt ∧ kt ≤ kMaxnode)) := by
  have hlen : (fmtIdKey kt ++ s).length = keyidLen + s.length := by
    rw [List.length_append, length_fmtIdKey hkt]
  unfold checkPrimaryKey
  rw [hlen, stoi16_key hkt]
  by_cases hs : s.length = nodeLen
  · rw [if_neg (by omega)]
    refine congrArg Except.ok ?_
    rw [Bool.eq_iff_iff]
    simp [hs]
  · rw [if_pos (by omega)]
    refine congrArg Except.ok ?_
    simp [hs]

/-- An id has its full width. -/
theorem length_id (id : UInt64) : (macroHex nodeLen id.toNat).length = nodeLen :=
  length_macroHex (by decide) id.toNat_lt

/-- A primary key is accepted and decoded. -/
theorem decodePrimaryKey_encode {kt : KeyTypeE} (hlo : kNonode ≤ kt) (hhi : kt ≤ kMaxnode)
    (id : UInt64) : checkPrimaryKey (encodePrimaryKey kt id) = .ok true ∧
      decodePrimaryKey (encodePrimaryKey kt id) = .ok (kt, id.toNat) := by
  have hkt : kt < 256 := lt_of_le_of_lt hhi (by decide)
  have hcheck : checkPrimaryKey (encodePrimaryKey kt id) = .ok true := by
    rw [encodePrimaryKey, checkPrimaryKey_key hkt]
    exact congrArg Except.ok (decide_eq_true ⟨length_id id, hlo, hhi⟩)
  refine ⟨hcheck, ?_⟩
  have hdrop : ((encodePrimaryKey kt id).drop keyidLen).take nodeLen =
      macroHex nodeLen id.toNat := by
    rw [encodePrimaryKey, List.drop_left' (length_fmtIdKey hkt)]
    exact List.take_of_length_le (length_id id).le
  have hid : stoull16 (macroHex nodeLen id.toNat) = .ok id.toNat :=
    stoull16_of_strtol (strtol16_macroHex (by decide) id.toNat_lt) id.toNat_lt
  unfold decodePrimaryKey
  rw [hcheck, hdrop, hid, encodePrimaryKey, stoi16_key hkt]
  rfl

/-- Primary keys compare by key type, then by id. -/
theorem encodePrimaryKey_lt_iff {kt kt' : KeyTypeE} (hkt : kt < 256) (hkt' : kt' < 256)
    (id id' : UInt64) : encodePrimaryKey kt id < encodePrimaryKey kt' id' ↔
      kt < kt' ∨ (kt = kt' ∧ id < id') := by
  have hlen : (fmtIdKey kt).length = (fmtIdKey kt').length := by
    rw [length_fmtIdKey hkt, length_fmtIdKey hkt']
  have heq : fmtIdKey kt = fmtIdKey kt' ↔ kt = kt' :=
    ⟨fmtIdKey_inj hkt hkt', fun h => by rw [h]⟩
  unfold encodePrimaryKey
  rw [Radix.append_lt_append_iff hlen, fmtIdKey_lt_iff hkt hkt', heq,
    macroHex_lt_iff (by decide) id.toNat_lt id'.toNat_lt, UInt64.lt_iff_toNat_lt]

/-! ## Secondary keys -/

/-- The type of an argument. -/
inductive Shape
  | int32 | int64 | uint32 | uint64 | string
  deriving DecidableEq

def Arg.shape : Arg → Shape
  | .int32 _ => .int32
  | .int64 _ => .int64
  | .uint32 _ => .uint32
  | .uint64 _ => .uint64
  | .string _ => .string

/-- A signed number is not the least of its type, of which `std::abs` is undefined. -/
def Arg.AboveMin : Arg → Prop
  | .int32 t => t ≠ Int32.minValue
  | .int64 t => t ≠ Int64.minValue
  | _ => True

/-- The separator is in no string but a final one. -/
def SepFree (args : List Arg) : Prop := ∀ t, Arg.string t ∈ args.dropLast → fmtSep ∉ t

/-- The number an argument is. -/
def Arg.value : Arg → ℤ
  | .int32 t => t.toInt
  | .int64 t => t.toInt
  | .uint32 t => t.toNat
  | .uint64 t => t.toNat
  | .string _ => 0

/-- Signed numbers above the minimum are moved up. -/
theorem signedCode_eq {t : ℤ} (hlo : -2 ^ 63 < t) (hhi : t < 2 ^ 63) :
    (signedCode t : ℤ) = t + int64Max := by
  unfold signedCode int64Max
  split <;> omega

/-- The number in the field of an argument. -/
def Arg.code : Arg → ℕ
  | .int32 t => signedCode t.toInt
  | .int64 t => signedCode t.toInt
  | .uint32 t => t.toNat
  | .uint64 t => t.toNat
  | .string _ => 0

/-- A number is written by its code. -/
theorem Arg.text_eq {a : Arg} (h : a.shape ≠ .string) : a.text = macroHex nodeLen a.code := by
  cases a with
  | string t => exact absurd rfl h
  | int32 t => rfl
  | int64 t => rfl
  | uint32 t => rfl
  | uint64 t => rfl

/-- The code fits the width. -/
theorem Arg.code_lt (a : Arg) : a.code < 16 ^ nodeLen := by
  have hsigned : ∀ t : ℤ, signedCode t < 2 ^ 64 := by
    intro t
    unfold signedCode
    split <;> omega
  cases a with
  | int32 t => exact hsigned t.toInt
  | int64 t => exact hsigned t.toInt
  | uint32 t => exact lt_trans t.toNat_lt (by decide)
  | uint64 t => exact t.toNat_lt
  | string t => exact Nat.zero_lt_of_lt (by decide : 0 < 16 ^ nodeLen)

/-- So its text has the full width. -/
theorem Arg.length_text {a : Arg} (h : a.shape ≠ .string) : a.text.length = nodeLen := by
  rw [Arg.text_eq h, length_macroHex (by decide) a.code_lt]

/-- The field of a number says which number it is. -/
theorem Arg.code_eq_value {a : Arg} (h : a.AboveMin) :
    ((a.shape = .int32 ∨ a.shape = .int64) → (a.code : ℤ) = a.value + int64Max) ∧
      ((a.shape = .uint32 ∨ a.shape = .uint64) → (a.code : ℤ) = a.value) := by
  cases a with
  | string t => exact ⟨by simp [Arg.shape], by simp [Arg.shape]⟩
  | uint32 t => exact ⟨by simp [Arg.shape], fun _ => rfl⟩
  | uint64 t => exact ⟨by simp [Arg.shape], fun _ => rfl⟩
  | int32 t =>
    refine ⟨fun _ => signedCode_eq ?_ ?_, by simp [Arg.shape]⟩
    · have hlo := t.le_toInt
      omega
    · have hhi := t.toInt_lt
      omega
  | int64 t =>
    refine ⟨fun _ => signedCode_eq ?_ ?_, by simp [Arg.shape]⟩
    · have hlo := t.le_toInt
      have hne : t.toInt ≠ -2 ^ 63 := fun he => h (Int64.toInt_inj.mp he)
      omega
    · exact t.toInt_lt

/-- A value of one shape tells the argument. -/
theorem Arg.value_inj {a a' : Arg} (hshape : a.shape = a'.shape) (hs : a.shape ≠ .string)
    (h : a.value = a'.value) : a = a' := by
  cases a with
  | string t => exact absurd rfl hs
  | int32 t =>
    cases a' <;> try cases hshape
    exact congrArg Arg.int32 (Int32.toInt_inj.mp h)
  | int64 t =>
    cases a' <;> try cases hshape
    exact congrArg Arg.int64 (Int64.toInt_inj.mp h)
  | uint32 t =>
    cases a' <;> try cases hshape
    exact congrArg Arg.uint32 (UInt32.toNat_inj.mp (Int.ofNat.inj h))
  | uint64 t =>
    cases a' <;> try cases hshape
    exact congrArg Arg.uint64 (UInt64.toNat_inj.mp (Int.ofNat.inj h))

/-- One argument is read off its text. -/
theorem Arg.text_inj {a a' : Arg} (hshape : a.shape = a'.shape) (ha : a.AboveMin)
    (ha' : a'.AboveMin) (h : a.text = a'.text) : a = a' := by
  by_cases hs : a.shape = .string
  · cases a <;> try cases hs
    cases a' <;> try cases hshape
    exact congrArg Arg.string h
  · rw [Arg.text_eq hs, Arg.text_eq (hshape ▸ hs)] at h
    have hcode : a.code = a'.code := macroHex_inj (by decide) a.code_lt a'.code_lt h
    refine Arg.value_inj hshape hs ?_
    obtain ⟨hsigned, hunsigned⟩ := Arg.code_eq_value ha
    obtain ⟨hsigned', hunsigned'⟩ := Arg.code_eq_value ha'
    rw [← hshape] at hsigned' hunsigned'
    have hcases : (a.shape = .int32 ∨ a.shape = .int64) ∨ a.shape = .uint32 ∨ a.shape = .uint64 := by
      cases hsh : a.shape with
      | string => exact absurd hsh hs
      | int32 => simp
      | int64 => simp
      | uint32 => simp
      | uint64 => simp
    rcases hcases with hc | hc
    · have h1 := hsigned hc
      have h2 := hsigned' hc
      omega
    · have h1 := hunsigned hc
      have h2 := hunsigned' hc
      omega

/-- The suffix of one argument more. -/
theorem makeSuffix_cons (a : Arg) (args : List Arg) :
    makeSuffix (a :: args) = fmtSep :: (a.text ++ makeSuffix args) := rfl

theorem SepFree.head {a b : Arg} {args : List Arg} (h : SepFree (a :: b :: args)) {t : Bytes}
    (ha : a = .string t) : fmtSep ∉ t :=
  h t (by rw [List.dropLast_cons_cons, ha]; exact List.mem_cons_self)

theorem SepFree.tail {a b : Arg} {args : List Arg} (h : SepFree (a :: b :: args)) :
    SepFree (b :: args) := fun t ht => h t (by
  rw [List.dropLast_cons_cons]
  exact List.mem_cons_of_mem _ ht)

/-- **The arguments are read off their text.** -/
theorem args_inj {arg arg' : Arg} {args args' : List Arg}
    (hshape : (arg :: args).map Arg.shape = (arg' :: args').map Arg.shape)
    (hmin : ∀ a ∈ arg :: args, a.AboveMin) (hmin' : ∀ a ∈ arg' :: args', a.AboveMin)
    (hsep : SepFree (arg :: args)) (hsep' : SepFree (arg' :: args'))
    (h : arg.text ++ makeSuffix args = arg'.text ++ makeSuffix args') :
    arg :: args = arg' :: args' := by
  induction args generalizing arg arg' args' with
  | nil =>
    cases args' with
    | cons b' bs' => simp at hshape
    | nil =>
      obtain ⟨hsh, -⟩ := List.cons.inj hshape
      rw [makeSuffix, List.flatMap_nil, List.append_nil, List.append_nil] at h
      rw [Arg.text_inj hsh (hmin _ List.mem_cons_self) (hmin' _ List.mem_cons_self) h]
  | cons b bs ih =>
    cases args' with
    | nil => simp at hshape
    | cons b' bs' =>
      obtain ⟨hsh, hrest⟩ := List.cons.inj hshape
      rw [makeSuffix_cons, makeSuffix_cons] at h
      have hsplit : arg.text = arg'.text ∧
          b.text ++ makeSuffix bs = b'.text ++ makeSuffix bs' := by
        by_cases hs : arg.shape = .string
        · cases arg <;> try cases hs
          cases arg' <;> try cases hsh
          exact CString.append_sep_inj (hsep.head rfl) (hsep'.head rfl) h
        · have hlen : arg.text.length = arg'.text.length := by
            rw [Arg.length_text hs, Arg.length_text (hsh ▸ hs)]
          obtain ⟨hhead, htail⟩ := List.append_inj h hlen
          exact ⟨hhead, (List.cons.inj htail).2⟩
      obtain ⟨hhead, htail⟩ := hsplit
      rw [Arg.text_inj hsh (hmin _ List.mem_cons_self) (hmin' _ List.mem_cons_self) hhead,
        ih hrest (fun a ha => hmin a (List.mem_cons_of_mem _ ha))
          (fun a ha => hmin' a (List.mem_cons_of_mem _ ha)) hsep.tail hsep'.tail htail]

/-- **Tuples of numbers compare number by number**, when all their codes are moved alike. -/
theorem args_lt_iff {d : ℤ} {arg arg' : Arg} {args args' : List Arg}
    (hlen : args.length = args'.length)
    (hnum : ∀ a ∈ arg :: args, a.shape ≠ .string ∧ (a.code : ℤ) = a.value + d)
    (hnum' : ∀ a ∈ arg' :: args', a.shape ≠ .string ∧ (a.code : ℤ) = a.value + d) :
    arg.text ++ makeSuffix args < arg'.text ++ makeSuffix args' ↔
      (arg :: args).map Arg.value < (arg' :: args').map Arg.value := by
  induction args generalizing arg arg' args' with
  | nil =>
    obtain rfl : args' = [] := List.length_eq_zero_iff.mp hlen.symm
    obtain ⟨hs, hcode⟩ := hnum arg List.mem_cons_self
    obtain ⟨hs', hcode'⟩ := hnum' arg' List.mem_cons_self
    rw [makeSuffix, List.flatMap_nil, List.append_nil, List.append_nil, Arg.text_eq hs,
      Arg.text_eq hs', macroHex_lt_iff (by decide) arg.code_lt arg'.code_lt, List.map_cons,
      List.map_cons, List.cons_lt_cons_iff]
    simp only [List.map_nil, List.not_lt_nil, and_false, or_false]
    omega
  | cons b bs ih =>
    cases args' with
    | nil => simp at hlen
    | cons b' bs' =>
      obtain ⟨⟨hs, hcode⟩, hrest⟩ := List.forall_mem_cons.mp hnum
      obtain ⟨⟨hs', hcode'⟩, hrest'⟩ := List.forall_mem_cons.mp hnum'
      have hlt : arg.text < arg'.text ↔ arg.value < arg'.value := by
        rw [Arg.text_eq hs, Arg.text_eq hs', macroHex_lt_iff (by decide) arg.code_lt arg'.code_lt]
        omega
      have heq : arg.text = arg'.text ↔ arg.value = arg'.value := by
        rw [Arg.text_eq hs, Arg.text_eq hs']
        constructor
        · intro h
          have hinj := macroHex_inj (by decide) arg.code_lt arg'.code_lt h
          omega
        · intro h
          have hinj : arg.code = arg'.code := by omega
          rw [hinj]
      rw [Radix.append_lt_append_iff (by rw [Arg.length_text hs, Arg.length_text hs']), hlt, heq,
        makeSuffix_cons, makeSuffix_cons, List.cons_lt_cons_iff, ih (Nat.succ.inj hlen) hrest hrest',
        show (arg :: b :: bs).map Arg.value = arg.value :: (b :: bs).map Arg.value from rfl,
        show (arg' :: b' :: bs').map Arg.value = arg'.value :: (b' :: bs').map Arg.value from rfl,
        List.cons_lt_cons_iff]
      simp only [lt_self_iff_false, false_or, true_and]

/-! ## The keys of the store -/

/-- **What a key says.**  The key types of the first four laws have two digits. -/
structure FaithfulKeys : Prop where
  /-- a primary key is accepted and decoded -/
  decoded : ∀ kt, kNonode ≤ kt → kt ≤ kMaxnode → ∀ id : UInt64,
    checkPrimaryKey (encodePrimaryKey kt id) = .ok true ∧
      decodePrimaryKey (encodePrimaryKey kt id) = .ok (kt, id.toNat)
  /-- the bytes of primary keys are in the order of key type and id -/
  primary : ∀ kt kt', kt < 256 → kt' < 256 → ∀ id id' : UInt64,
    encodePrimaryKey kt id < encodePrimaryKey kt' id' ↔ kt < kt' ∨ (kt = kt' ∧ id < id')
  /-- tuples of one shape have different keys -/
  injective : ∀ kt kt', kt < 256 → kt' < 256 → ∀ arg arg' args args',
    (arg :: args).map Arg.shape = (arg' :: args').map Arg.shape →
    (∀ a ∈ arg :: args, a.AboveMin) → (∀ a ∈ arg' :: args', a.AboveMin) →
    SepFree (arg :: args) → SepFree (arg' :: args') →
    encodeSecondaryKey kt arg args = encodeSecondaryKey kt' arg' args' →
      kt = kt' ∧ arg :: args = arg' :: args'
  /-- the bytes of keys of numbers, all signed or all unsigned, are in the order of the numbers -/
  ordered : ∀ kt, kt < 256 → ∀ arg arg' args args',
    (arg :: args).map Arg.shape = (arg' :: args').map Arg.shape →
    (∀ a ∈ arg :: args, a.AboveMin) → (∀ a ∈ arg' :: args', a.AboveMin) →
    ((∀ a ∈ arg :: args, a.shape = .int32 ∨ a.shape = .int64) ∨
      ∀ a ∈ arg :: args, a.shape = .uint32 ∨ a.shape = .uint64) →
    (encodeSecondaryKey kt arg args < encodeSecondaryKey kt arg' args' ↔
      (arg :: args).map Arg.value < (arg' :: args').map Arg.value)
  /-- no key of an index is taken for a primary key -/
  separate : ∀ kt, kMaxnode < kt → kt < 256 → ∀ arg args,
    checkPrimaryKey (encodeSecondaryKey kt arg args) = .ok false

/-- The arguments of a tuple of the same shape have the same types. -/
theorem forall_shape {P : Shape → Prop} {args args' : List Arg}
    (hshape : args.map Arg.shape = args'.map Arg.shape) (h : ∀ a ∈ args, P a.shape) :
    ∀ a ∈ args', P a.shape := by
  intro a ha
  have hmem : a.shape ∈ args.map Arg.shape := by
    rw [hshape]
    exact List.mem_map.mpr ⟨a, ha, rfl⟩
  obtain ⟨a', ha', he⟩ := List.mem_map.mp hmem
  exact he ▸ h a' ha'

/-- **Keys of one shape sort as their values**, when the codes do. -/
theorem encodeSecondaryKey_lt_iff {d : ℤ} {P : Shape → Prop} (hP : ∀ sh, P sh → sh ≠ .string)
    (hcode : ∀ a : Arg, a.AboveMin → P a.shape → (a.code : ℤ) = a.value + d) (kt : KeyTypeE)
    {arg arg' : Arg} {args args' : List Arg}
    (hshape : (arg :: args).map Arg.shape = (arg' :: args').map Arg.shape)
    (hmin : ∀ a ∈ arg :: args, a.AboveMin) (hmin' : ∀ a ∈ arg' :: args', a.AboveMin)
    (hall : ∀ a ∈ arg :: args, P a.shape) :
    encodeSecondaryKey kt arg args < encodeSecondaryKey kt arg' args' ↔
      (arg :: args).map Arg.value < (arg' :: args').map Arg.value := by
  have hall' := forall_shape hshape hall
  have hlen : args.length = args'.length := by
    simpa using congrArg List.length hshape
  unfold encodeSecondaryKey
  rw [List.append_assoc, List.append_assoc, Radix.append_lt_append_iff rfl,
    args_lt_iff hlen (fun a ha => ⟨hP _ (hall a ha), hcode a (hmin a ha) (hall a ha)⟩)
      (fun a ha => ⟨hP _ (hall' a ha), hcode a (hmin' a ha) (hall' a ha)⟩)]
  simp only [lt_self_iff_false, false_or, true_and]

/-- **Keys of one shape tell their arguments.** -/
theorem encodeSecondaryKey_inj {kt kt' : KeyTypeE} (hkt : kt < 256) (hkt' : kt' < 256)
    {arg arg' : Arg} {args args' : List Arg}
    (hshape : (arg :: args).map Arg.shape = (arg' :: args').map Arg.shape)
    (hmin : ∀ a ∈ arg :: args, a.AboveMin) (hmin' : ∀ a ∈ arg' :: args', a.AboveMin)
    (hsep : SepFree (arg :: args)) (hsep' : SepFree (arg' :: args'))
    (h : encodeSecondaryKey kt arg args = encodeSecondaryKey kt' arg' args') :
    kt = kt' ∧ arg :: args = arg' :: args' := by
  unfold encodeSecondaryKey at h
  rw [List.append_assoc, List.append_assoc] at h
  have hlen : (fmtIdKey kt).length = (fmtIdKey kt').length := by
    rw [length_fmtIdKey hkt, length_fmtIdKey hkt']
  obtain ⟨hid, hargs⟩ := List.append_inj h hlen
  exact ⟨fmtIdKey_inj hkt hkt' hid, args_inj hshape hmin hmin' hsep hsep' hargs⟩

/-- **Keys are faithful.** -/
theorem faithfulKeys : FaithfulKeys where
  decoded _ hlo hhi id := decodePrimaryKey_encode hlo hhi id
  primary _ _ hkt hkt' id id' := encodePrimaryKey_lt_iff hkt hkt' id id'
  injective _ _ hkt hkt' _ _ _ _ hshape hmin hmin' hsep hsep' h :=
    encodeSecondaryKey_inj hkt hkt' hshape hmin hmin' hsep hsep' h
  ordered kt _ arg arg' args args' hshape hmin hmin' hall := by
    rcases hall with hall | hall
    · refine encodeSecondaryKey_lt_iff (d := int64Max)
        (P := fun sh => sh = .int32 ∨ sh = .int64) ?_ ?_ kt hshape hmin hmin' hall
      · rintro sh (rfl | rfl) <;> decide
      · exact fun a ha hs => (Arg.code_eq_value ha).1 hs
    · refine encodeSecondaryKey_lt_iff (d := 0) (P := fun sh => sh = .uint32 ∨ sh = .uint64) ?_ ?_ kt
        hshape hmin hmin' hall
      · rintro sh (rfl | rfl) <;> decide
      · intro a ha hs
        rw [(Arg.code_eq_value ha).2 hs, Int.add_zero]
  separate kt hlo hhi arg args := by
    rw [encodeSecondaryKey, List.append_assoc, checkPrimaryKey_key hhi]
    exact congrArg Except.ok (decide_eq_false fun h => absurd h.2.2 (Nat.not_le_of_lt hlo))

/-- An index key of the length of a primary key. -/
example : (encodeSecondaryKey uTagdataKeytypeName (.uint64 7) []).length = keyidLen + nodeLen := by
  decide

/-! ## Structured keys -/

/-- The argument that prints a part of a key. -/
def partArg : KeyPart → Arg
  | .num n => .int64 (Int64.ofInt n)
  | .text s => .string s

/-- The bytes of a structured key. -/
def text : Key → Bytes
  | .primary kt id => encodePrimaryKey kt (UInt64.ofNat id)
  | .secondary kt [] => fmtIdKey kt
  | .secondary kt (p :: ps) => encodeSecondaryKey kt (partArg p) (ps.map partArg)

/-- A part whose number is above the least one that fits. -/
def PartInRange : KeyPart → Prop
  | .num n => -2 ^ 63 < n ∧ n < 2 ^ 63
  | .text _ => True

/-- The argument tells the part. -/
theorem partArg_inj {p q : KeyPart} (hp : PartInRange p) (hq : PartInRange q)
    (h : partArg p = partArg q) : p = q := by
  cases p with
  | num n =>
    cases q with
    | num m =>
      obtain ⟨hlo, hhi⟩ := hp
      obtain ⟨hlo', hhi'⟩ := hq
      have hint := congrArg Int64.toInt (Arg.int64.inj h)
      rw [Int64.toInt_ofInt_of_le (by omega) (by omega),
        Int64.toInt_ofInt_of_le (by omega) (by omega)] at hint
      rw [hint]
    | text s => cases h
  | text s =>
    cases q with
    | num m => cases h
    | text t => rw [Arg.string.inj h]

/-- A part in range is above the least value. -/
theorem partArg_aboveMin {p : KeyPart} (hp : PartInRange p) : (partArg p).AboveMin := by
  cases p with
  | text s => trivial
  | num n =>
    obtain ⟨hlo, hhi⟩ := hp
    intro hmin
    have hint := congrArg Int64.toInt hmin
    rw [Int64.toInt_ofInt_of_le (by omega) (by omega), Int64.toInt_minValue] at hint
    omega

/-- The arguments tell the parts. -/
theorem map_partArg_inj : ∀ {ps qs : List KeyPart}, (∀ p ∈ ps, PartInRange p) →
    (∀ q ∈ qs, PartInRange q) → ps.map partArg = qs.map partArg → ps = qs
  | [], [], _, _, _ => rfl
  | [], _ :: _, _, _, h => by cases h
  | _ :: _, [], _, _, h => by cases h
  | p :: ps, q :: qs, hps, hqs, h => by
    obtain ⟨hhead, htail⟩ := List.cons.inj h
    have hp := partArg_inj (hps p List.mem_cons_self) (hqs q List.mem_cons_self) hhead
    have hrest := map_partArg_inj (fun a ha => hps a (List.mem_cons_of_mem _ ha))
      (fun a ha => hqs a (List.mem_cons_of_mem _ ha)) htail
    rw [hp, hrest]

/-- The key types and the numbers of the key are in range, and its strings end where they should. -/
def Printable : Key → Prop
  | .primary kt id => kt ≤ kMaxnode ∧ id < 2 ^ 64
  | .secondary kt parts => kMaxnode < kt ∧ kt < 256 ∧ parts ≠ [] ∧
      (∀ p ∈ parts, PartInRange p) ∧ SepFree (parts.map partArg)

/-- The shape of the index a key belongs to. -/
def keyShape : Key → List Shape
  | .primary _ _ => []
  | .secondary _ parts => (parts.map partArg).map Arg.shape

/-- **A structured key stands for its bytes**: keys of one shape are equal when their bytes are. -/
theorem text_inj {a b : Key} (ha : Printable a) (hb : Printable b) (hshape : keyShape a = keyShape b)
    (h : text a = text b) : a = b := by
  have hnonempty : ∀ kt ps, Printable (.secondary kt ps) → keyShape (.secondary kt ps) ≠ [] := by
    intro kt ps hp hnil
    exact hp.2.2.1 (List.map_eq_nil_iff.mp (List.map_eq_nil_iff.mp hnil))
  cases a with
  | primary kt id =>
    cases b with
    | secondary kt' ps => exact absurd hshape.symm (hnonempty kt' ps hb)
    | primary kt' id' =>
      have hkt : kt < 256 := lt_of_le_of_lt ha.1 (by decide)
      have hkt' : kt' < 256 := lt_of_le_of_lt hb.1 (by decide)
      obtain ⟨hid, hnum⟩ := List.append_inj h (by rw [length_fmtIdKey hkt, length_fmtIdKey hkt'])
      have hnat := macroHex_inj (by decide) (UInt64.ofNat id).toNat_lt (UInt64.ofNat id').toNat_lt
        hnum
      rw [UInt64.toNat_ofNat_of_lt' ha.2, UInt64.toNat_ofNat_of_lt' hb.2] at hnat
      rw [fmtIdKey_inj hkt hkt' hid, hnat]
  | secondary kt ps =>
    cases b with
    | primary kt' id' => exact absurd hshape (hnonempty kt ps ha)
    | secondary kt' qs =>
      obtain ⟨-, hkt, hps, hnum, hsep⟩ := ha
      obtain ⟨-, hkt', hqs, hnum', hsep'⟩ := hb
      have hmin : ∀ rs : List KeyPart, (∀ p ∈ rs, PartInRange p) →
          ∀ a ∈ rs.map partArg, a.AboveMin := by
        intro rs hrs a ha
        obtain ⟨r, hr, rfl⟩ := List.mem_map.mp ha
        exact partArg_aboveMin (hrs r hr)
      cases ps with
      | nil => exact absurd rfl hps
      | cons p ps =>
        cases qs with
        | nil => exact absurd rfl hqs
        | cons q qs =>
          obtain ⟨hkeq, hargs⟩ := encodeSecondaryKey_inj hkt hkt' hshape (hmin _ hnum)
            (hmin _ hnum') hsep hsep' h
          rw [hkeq, map_partArg_inj hnum hnum' hargs]

end Zapdos.Store.KeyText
