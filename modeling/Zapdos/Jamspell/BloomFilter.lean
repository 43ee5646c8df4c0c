/-
  `TBloomFilter` — a set of strings that may tell too much, but never too little.

  Every salt gives a string one bit of the table; a string is in the set when all its bits are set.

  The optimal numbers of hashes and bits come out of floating point, and the salts out of `rand` when
  there are many: both are parameters.  The table has a whole number of bytes, and at least one.  A
  filter for no strings is left without hashes and bits, so every string is in it.
-/
import Zapdos.Jamspell.HandyPack
import Zapdos.Lib.Bitmap

namespace Zapdos.Jamspell

open Zapdos.Lib Zapdos.Store

/-- `bloom_filter`; a double is its bits. -/
structure BloomFilter where
  salt : List UInt32
  bitTable : Bitmap 8
  saltCount : UInt32
  tableSize : UInt64
  projectedElementCount : UInt64
  insertedElementCount : UInt64
  randomSeed : UInt64
  desiredFalsePositiveProbability : UInt64
  deriving DecidableEq, Repr

/-- What the constructor calls: `compute_optimal_parameters` and `generate_unique_salt`. -/
structure BloomEnv where
  optimal : UInt64 → UInt32 × UInt64
  salts : UInt32 → List UInt32
  table_pos : ∀ n ≠ 0, 0 < (optimal n).2.toNat
  table_bytes : ∀ n ≠ 0, 8 ∣ (optimal n).2.toNat
  salts_zero : salts 0 = []
  salts_length : ∀ n, (salts n).length < 2 ^ 32

/-! ## Hashing -/

/-- An `unsigned int` and an `unsigned short` as they lie in memory. -/
def load32 (a b c d : UInt8) : UInt32 :=
  a.toUInt32 ||| (b.toUInt32 <<< 8) ||| (c.toUInt32 <<< 16) ||| (d.toUInt32 <<< 24)
def load16 (a b : UInt8) : UInt32 := a.toUInt32 ||| (b.toUInt32 <<< 8)

/-- The step for the bytes that are left, by the parity of `loop`. -/
def hashApStep (loop i hash : UInt32) : UInt32 :=
  if loop &&& 1 ≠ 0 then hash ^^^ ((hash <<< 7) ^^^ (i * (hash >>> 3)))
  else hash ^^^ ~~~ ((hash <<< 11) + (i ^^^ (hash >>> 5)))

/-- The last byte. -/
def hashApByte : Bytes → UInt32 → UInt32 → UInt32
  | a :: _, loop, hash => hash + ((a.toUInt32 ^^^ (hash * 0xA5A5A5A5)) + loop)
  | [], _, hash => hash

/-- The last two or three bytes. -/
def hashApShort : Bytes → UInt32 → UInt32 → UInt32
  | a :: b :: rest, loop, hash => hashApByte rest (loop + 1) (hashApStep loop (load16 a b) hash)
  | rest, loop, hash => hashApByte rest loop hash

/-- The last four to seven bytes. -/
def hashApInt : Bytes → UInt32 → UInt32 → UInt32
  | a :: b :: c :: d :: rest, loop, hash => hashApShort rest (loop + 1) (hashApStep loop (load32 a b c d) hash)
  | rest, loop, hash => hashApShort rest loop hash

/-- `hash_ap`. -/
def hashAp : Bytes → UInt32 → UInt32
  | a :: b :: c :: d :: e :: f :: g :: h :: rest, hash =>
    let i1 := load32 a b c d
    let i2 := load32 e f g h
    hashAp rest (hash ^^^ ((hash <<< 7) ^^^ (i1 * (hash >>> 3)) ^^^ ~~~ ((hash <<< 11) + (i2 ^^^ (hash >>> 5)))))
  | rest, hash => hashApInt rest 0 hash

/-! ## The filter -/

/-- `compute_indices`. -/
def BloomFilter.bitIndex (f : BloomFilter) (element : Bytes) (salt : UInt32) : ℕ :=
  (hashAp element salt).toNat % f.tableSize.toNat

/-- `Insert`. -/
def BloomFilter.insert (f : BloomFilter) (element : Bytes) : BloomFilter :=
  { f with bitTable := (f.salt.map (f.bitIndex element)).foldl Bitmap.setbit f.bitTable
           insertedElementCount := f.insertedElementCount + 1 }

/-- `Contains`. -/
def BloomFilter.contains (f : BloomFilter) (element : Bytes) : Bool :=
  f.salt.all (fun salt => f.bitTable.isset (f.bitIndex element salt))

/-- `TBloomFilter(elements, falsePositiveRate)`. -/
def newBloomFilter (env : BloomEnv) (elements falsePositiveRate : UInt64) : BloomFilter :=
  -- `compute_optimal_parameters` refuses 0 elements and leaves the parameters at zero
  let (numberOfHashes, tableSize) := if elements = 0 then (0, 0) else env.optimal elements
  { salt := env.salts numberOfHashes
    bitTable := Bitmap.blank 8 (tableSize.toNat / 8)
    saltCount := numberOfHashes
    tableSize := tableSize
    projectedElementCount := elements
    insertedElementCount := 0
    randomSeed := 42 * 0xA5A5A5A5 + 1
    desiredFalsePositiveProbability := falsePositiveRate }

/-- The table has the bits it is asked for. -/
structure BloomFilter.Sized (f : BloomFilter) : Prop where
  pos : f.salt ≠ [] → 0 < f.tableSize.toNat
  bits : f.tableSize.toNat = f.bitTable.length * 8
  salts : f.salt.length < 2 ^ 32

section

variable {f : BloomFilter} {e e' : Bytes}

/-- A new filter has a table for its salts. -/
theorem sized_new (env : BloomEnv) (n p : UInt64) : (newBloomFilter env n p).Sized := by
  by_cases hn : n = 0
  · rw [newBloomFilter, if_pos hn]
    refine ⟨fun hsalt => absurd env.salts_zero hsalt, rfl, env.salts_length 0⟩
  · rw [newBloomFilter, if_neg hn]
    refine ⟨fun _ => env.table_pos n hn, ?_, env.salts_length _⟩
    show (env.optimal n).2.toNat = (Bitmap.blank 8 ((env.optimal n).2.toNat / 8)).length * 8
    rw [Bitmap.length_blank, Nat.div_mul_cancel (env.table_bytes n hn)]

/-- The bits of a salt are in the table. -/
theorem BloomFilter.Sized.div_lt (h : f.Sized) (e : Bytes) {salt : UInt32} (hsalt : salt ∈ f.salt) :
    f.bitIndex e salt / 8 < f.bitTable.length := by
  rw [Nat.div_lt_iff_lt_mul (by decide), ← h.bits]
  exact Nat.mod_lt _ (h.pos (List.ne_nil_of_mem hsalt))

/-- What an insertion does to the bits. -/
theorem BloomFilter.Sized.insert (h : f.Sized) (e : Bytes) :
    (f.insert e).Sized ∧ ∀ j, (f.insert e).bitTable.isset j = true ↔
      j ∈ f.salt.map (f.bitIndex e) ∨ f.bitTable.isset j = true := by
  have hin : ∀ i ∈ f.salt.map (f.bitIndex e), i / 8 < f.bitTable.length :=
    List.forall_mem_map.mpr fun salt hsalt => h.div_lt e hsalt
  obtain ⟨hlen, hset⟩ := Bitmap.isset_foldl_setbit (by decide) hin
  exact ⟨⟨h.pos, h.bits.trans (congrArg (· * 8) hlen.symm), h.salts⟩, hset⟩

theorem BloomFilter.Sized.contains_insert_self (h : f.Sized) : (f.insert e).contains e = true := by
  rw [BloomFilter.contains, List.all_eq_true]
  exact fun salt hsalt => ((h.insert e).2 _).mpr (Or.inl (List.mem_map_of_mem hsalt))

theorem BloomFilter.Sized.contains_insert (h : f.Sized) (hc : f.contains e' = true) :
    (f.insert e).contains e' = true := by
  rw [BloomFilter.contains, List.all_eq_true] at hc ⊢
  exact fun salt hsalt => ((h.insert e).2 _).mpr (Or.inr (hc salt hsalt))

/-- **No false negatives**: every string that was inserted is found. -/
theorem BloomFilter.Sized.foldl_insert (h : f.Sized) (es : List Bytes) :
    (es.foldl BloomFilter.insert f).Sized ∧
      (∀ e, f.contains e = true → (es.foldl BloomFilter.insert f).contains e = true) ∧
      ∀ e ∈ es, (es.foldl BloomFilter.insert f).contains e = true := by
  induction es generalizing f with
  | nil => exact ⟨h, fun e he => he, fun e he => absurd he List.not_mem_nil⟩
  | cons a es ih =>
    obtain ⟨hsized, hkeep, hin⟩ := ih (h.insert a).1
    refine ⟨hsized, fun e he => hkeep e (h.contains_insert he), fun e he => ?_⟩
    rcases List.mem_cons.mp he with rfl | he
    · exact hkeep e h.contains_insert_self
    · exact hin e he

end

/-! ## In a file -/

/-- `unsigned char` of a word of the table. -/
def packCell : Wire (BitVec 8) := packUint8.via UInt8.ofBitVec UInt8.toBitVec

/-- `Dump` and `Load`. -/
def packBloomFilter : Wire BloomFilter :=
  ((packVector packUint32).pair ((packVector packCell).pair (packUint32.pair (packUint64.pair (packUint64.pair
      (packUint64.pair (packUint64.pair packUint64))))))).via
    (fun f => (f.salt, f.bitTable, f.saltCount, f.tableSize, f.projectedElementCount, f.insertedElementCount,
      f.randomSeed, f.desiredFalsePositiveProbability))
    (fun t => let (salt, bitTable, saltCount, tableSize, projected, inserted, seed, probability) := t
      ⟨salt, bitTable, saltCount, tableSize, projected, inserted, seed, probability⟩)

theorem packBloomFilter_carries {f : BloomFilter} (hsalt : f.salt.length < 2 ^ 32)
    (htable : f.bitTable.length < 2 ^ 32) : packBloomFilter.Carries f := by
  have hcell : ∀ b ∈ f.bitTable, packCell.Carries b := fun b _ => (packUint8_carries _).via rfl
  refine Wire.Carries.via ?_ rfl
  exact (packVector_carries hsalt fun s _ => packUint32_carries s).pair ((packVector_carries htable hcell).pair
    ((packUint32_carries _).pair ((packUint64_carries _).pair ((packUint64_carries _).pair
      ((packUint64_carries _).pair ((packUint64_carries _).pair (packUint64_carries _)))))))

end Zapdos.Jamspell
