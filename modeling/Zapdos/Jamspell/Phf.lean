/-
  `phf` — the perfect hash function of the spelling model.

  The keys are strings.  `init` puts them into buckets by a first hash, sorts the buckets by size and
  gives each a displacement: the first number for which a second hash sends its keys to slots that are
  free.  Two bitmaps tell which slots are taken, by buckets that are placed (`T`) and by the keys of
  the bucket at hand (`T_b`).

  THE CRUX.  `T_b` is never cleared after a success, so it holds slots of buckets placed earlier; a
  failed attempt takes some of these out again.  All of them are in `T` as well (`Placing.working`), so
  nothing is lost.

  `init` never gives up.  `fuel` bounds the displacements it tries for one bucket; out of fuel is an
  `init` that does not return.  `qsort` may leave keys of one bucket in any order.
-/
import Mathlib.Data.List.Sort
import Mathlib.Data.Prod.Lex
import Zapdos.Lib.Bitmap
import Zapdos.Lib.HashDisplace
import Zapdos.Store.Types

namespace Zapdos.Jamspell

open Zapdos.Lib Zapdos.Lib.HashDisplace Zapdos.Store

/-! ## Modular arithmetic -/

def phfHowmany (x y : ℕ) : ℕ := (x + (y - 1)) / y

/-- The loop of `phf_a_s_mod_n`; the exponent has 64 bits. -/
def aSModNLoop (n : ℕ) : ℕ → ℕ → ℕ → ℕ → ℕ
  | 0, _, _, v => v
  | fuel + 1, a, s, v =>
    if s > 0 then aSModNLoop n fuel (a * a % n) (s / 2) (if s % 2 = 1 then v * a % n else v) else v

/-- `phf_a_s_mod_n`. -/
def phfASModN (a s n : ℕ) : ℕ := aSModNLoop n 64 (a % n) s 1

/-- The loop of `phf_witness`, with `t - i` turns to go. -/
def witnessLoop (n : ℕ) : ℕ → ℕ → Bool
  | 0, v => v = n - 1
  | 1, v => v = n - 1
  | turns + 2, v => if v = n - 1 then true else witnessLoop n (turns + 1) (v * v % n)

/-- `phf_witness`. -/
def phfWitness (n a s t : ℕ) : Bool :=
  let v := phfASModN a s n
  if v = 1 then true else witnessLoop n t v

/-- `n - 1` as `2^t * s`. -/
def oddPart : ℕ → ℕ → ℕ → ℕ × ℕ
  | 0, s, t => (s, t)
  | fuel + 1, s, t => if s % 2 = 0 then oddPart fuel (s / 2) (t + 1) else (s, t)

/-- `phf_rabinmiller`. -/
def phfRabinmiller (n : ℕ) : Bool :=
  if n < 3 ∨ n % 2 = 0 then false
  else
    let (s, t) := oddPart 64 (n - 1) 0
    if n < 2027 then phfWitness n 2 s t
    else [2, 7, 61].all (fun a => phfWitness n a s t)

/-- `phf_isprime`; 1 counts as a prime. -/
def phfIsprime (n : ℕ) : Bool :=
  let map := [0, 1, 2, 3, 0, 5, 0, 7]
  if n < map.length then map.getD n 0 ≠ 0
  else if (map.drop 2).any (fun p => p ≠ 0 && n % p = 0) then false
  else phfRabinmiller n

def sizeMax : ℕ := 2 ^ 64 - 1

/-- The loop of `phf_primeup`, with `SIZE_MAX - n` turns to go. -/
def primeupLoop : ℕ → ℕ → ℕ
  | 0, n => n
  | turns + 1, n => if phfIsprime n then n else primeupLoop turns (n + 1)

/-- `phf_primeup`. -/
def phfPrimeup (n : ℕ) : ℕ := if n > 4294967291 then 0 else primeupLoop (sizeMax - n) n

/-! ## Hash primitives -/

def phfRotl (x y : UInt32) : UInt32 := (x <<< y) ||| (x >>> (32 - y))

/-- `phf_round32` of a number. -/
def phfRound32 (k1 h1 : UInt32) : UInt32 :=
  let k1 := k1 * 0xcc9e2d51
  let k1 := phfRotl k1 15
  let k1 := k1 * 0x1b873593
  let h1 := h1 ^^^ k1
  let h1 := phfRotl h1 13
  h1 * 5 + 0xe6546b64

/-- `phf_round32` of a string: four bytes at a time, the rest padded with zeros. -/
def phfRound32String : Bytes → UInt32 → UInt32
  | a :: b :: c :: d :: p, h1 =>
    phfRound32String p (phfRound32
      ((a.toUInt32 <<< 24) ||| (b.toUInt32 <<< 16) ||| (c.toUInt32 <<< 8) ||| d.toUInt32) h1)
  | [a, b, c], h1 => phfRound32 ((c.toUInt32 <<< 8) ||| (b.toUInt32 <<< 16) ||| (a.toUInt32 <<< 24)) h1
  | [a, b], h1 => phfRound32 ((b.toUInt32 <<< 16) ||| (a.toUInt32 <<< 24)) h1
  | [a], h1 => phfRound32 (a.toUInt32 <<< 24) h1
  | [], h1 => h1

/-- `phf_mix32`. -/
def phfMix32 (h1 : UInt32) : UInt32 :=
  let h1 := h1 ^^^ (h1 >>> 16)
  let h1 := h1 * 0x85ebca6b
  let h1 := h1 ^^^ (h1 >>> 13)
  let h1 := h1 * 0xc2b2ae35
  h1 ^^^ (h1 >>> 16)

/-- `phf_g`. -/
def phfG (k : Bytes) (seed : UInt32) : UInt32 := phfMix32 (phfRound32String k seed)

/-- `phf_f`. -/
def phfF (d : UInt32) (k : Bytes) (seed : UInt32) : UInt32 :=
  phfMix32 (phfRound32String k (phfRound32 d seed))

/-- `phf_g_mod_r<false>`. -/
def phfGModR (seed : UInt32) (r : ℕ) (k : Bytes) : ℕ := (phfG k seed).toNat % r

/-- `phf_f_mod_m<false>`. -/
def phfFModM (seed : UInt32) (m : ℕ) (d : UInt32) (k : Bytes) : ℕ := (phfF d k seed).toNat % m

/-! ## Buckets -/

/-- `phf_key`, with the number that `n` points to. -/
structure PhfKey where
  k : Bytes
  g : ℕ
  n : ℕ
  deriving DecidableEq, Repr

/-- `phf_keycmp`, on keys that differ. -/
def phfKeycmp (a b : PhfKey) : ℤ :=
  if a.n > b.n then -1 else if a.n < b.n then 1
  else if a.g > b.g then -1 else if a.g < b.g then 1 else 0

/-- `qsort`: the elements in the order of the comparison. -/
structure QSort where
  sort : (PhfKey → PhfKey → ℤ) → List PhfKey → List PhfKey
  perm : ∀ cmp l, (sort cmp l).Perm l
  sorted : ∀ cmp l, (∀ a b, cmp a b ≤ 0 ∨ cmp b a ≤ 0) → (∀ a b c, cmp a b ≤ 0 → cmp b c ≤ 0 → cmp a c ≤ 0) →
    (sort cmp l).Pairwise (fun a b => cmp a b ≤ 0)

/-- The sizes of the buckets: `++*B_k[i].n` for each key. -/
def bucketSizes (seed : UInt32) (r : ℕ) (keys : List Bytes) : List ℕ :=
  keys.foldl (fun bz k => bz.modify (phfGModR seed r k) (· + 1)) (List.replicate r 0)

/-- The array `B_k` before it is sorted. -/
def bucketKeys (seed : UInt32) (r : ℕ) (keys : List Bytes) : List PhfKey :=
  let bz := bucketSizes seed r keys
  keys.map (fun k => ⟨k, phfGModR seed r k, bz.getD (phfGModR seed r k) 0⟩)

/-! ## Displacements -/

/-- The keys of a bucket with displacement `d`: a slot that is taken ends the attempt. -/
def attempt (slot : Bytes → ℕ) (T : Bitmap 64) : List PhfKey → Bitmap 64 → Bitmap 64 × Bool
  | [], Tb => (Tb, true)
  | b :: bs, Tb =>
    if T.isset (slot b.k) || Tb.isset (slot b.k) then (Tb, false)
    else attempt slot T bs (Tb.setbit (slot b.k))

/-- The `retry` loop: the displacement that is found, and `T_b`. -/
def displace (seed : UInt32) (m : ℕ) (T : Bitmap 64) (bs : List PhfKey) :
    ℕ → ℕ → Bitmap 64 → Option (ℕ × Bitmap 64)
  | 0, _, _ => none
  | fuel + 1, d, Tb =>
    let slot := phfFModM seed m (UInt32.ofNat (d + 1))
    match attempt slot T bs Tb with
    | (Tb, true) => some (d + 1, Tb)
    | (Tb, false) => displace seed m T bs fuel (d + 1) (bs.foldl (fun Tb b => Tb.clrbit (slot b.k)) Tb)

/-- The bitmaps, the displacement map and its maximum. -/
structure Placing where
  T : Bitmap 64
  Tb : Bitmap 64
  g : List UInt32
  dMax : UInt32

/-- The outer loop: one bucket a turn. -/
def placeBuckets (fuel : ℕ) (seed : UInt32) (m : ℕ) : ℕ → List PhfKey → Placing → Option Placing
  | 0, _, p => some p
  | _, [], p => some p
  | turns + 1, b :: bs, p =>
    if b.n > 0 then do
      let bucket := (b :: bs).take b.n
      let (d, Tb) ← displace seed m p.T bucket fuel 0 p.Tb
      let T := bucket.foldl (fun T b => T.setbit (phfFModM seed m (UInt32.ofNat d) b.k)) p.T
      let dMax := if d > p.dMax.toNat then UInt32.ofNat d else p.dMax
      placeBuckets fuel seed m turns ((b :: bs).drop b.n) ⟨T, Tb, p.g.set b.g (UInt32.ofNat d), dMax⟩
    else some p

def phfGUint32ModR : UInt32 := 5
def phfGUint32BandR : UInt32 := 6

/-- `phf`. -/
structure Phf where
  nodiv : Bool
  seed : UInt32
  r : ℕ
  m : ℕ
  g : List UInt32
  dMax : ℕ
  gOp : UInt32
  deriving DecidableEq, Repr

/-- `PHF::init<phf_string_t, false>`; an error when `phf_primeup` finds no prime. -/
def phfInit (qs : QSort) (fuel : ℕ) (keys : List Bytes) (l a : ℕ) (seed : UInt32) : Option Phf :=
  let n1 := max keys.length 1
  let l1 := max l 1
  let a1 := max (min a 100) 1
  let r := phfPrimeup (phfHowmany n1 l1)
  let m := phfPrimeup (n1 * 100 / a1)
  if r = 0 ∨ m = 0 then none
  else do
    let words := phfHowmany m 64
    let bk := qs.sort phfKeycmp (bucketKeys seed r keys)
    let p ← placeBuckets fuel seed m bk.length bk
      ⟨Bitmap.blank 64 words, Bitmap.blank 64 words, List.replicate r 0, 0⟩
    return ⟨false, seed, r, m, p.g, p.dMax.toNat, phfGUint32ModR⟩

/-- `PHF::hash`, for a function that was not compacted. -/
def phfHash (phf : Phf) (k : Bytes) : ℕ :=
  if phf.gOp = phfGUint32BandR then
    let d := phf.g.getD ((phfG k phf.seed).toNat &&& (phf.r - 1)) 0
    (phfF d k phf.seed).toNat &&& (phf.m - 1)
  else
    let d := phf.g.getD ((phfG k phf.seed).toNat % phf.r) 0
    (phfF d k phf.seed).toNat % phf.m

/-- `TPerfectHash::Init`. -/
def perfectHashInit (qs : QSort) (fuel : ℕ) (keys : List Bytes) : Option Phf :=
  phfInit qs fuel keys 4 80 42

/-! ## The search for a displacement -/

section

variable {m : ℕ} {T Tb : Bitmap 64} {bs : List PhfKey} {slot : Bytes → ℕ}

/-- The bitmap has a bit for every slot. -/
def Covers (m : ℕ) (T : Bitmap 64) : Prop := T.length = phfHowmany m 64

theorem covers_setbit {i : ℕ} (h : Covers m T) : Covers m (T.setbit i) := Bitmap.length_setbit.trans h

theorem Covers.div_lt {i : ℕ} (h : Covers m T) (hi : i < m) : i / 64 < T.length := by
  rw [h, phfHowmany]
  exact Bitmap.div_lt_words (by decide) hi

/-- Setting the slots of some keys. -/
theorem foldl_setbit (hT : Covers m T) (hslot : ∀ k, slot k < m) (bs : List PhfKey) :
    Covers m (bs.foldl (fun T b => T.setbit (slot b.k)) T) ∧
      ∀ i, (bs.foldl (fun T b => T.setbit (slot b.k)) T).isset i = true ↔
        T.isset i = true ∨ i ∈ bs.map (fun b => slot b.k) := by
  have hcovers : ∀ i ∈ bs.map (fun b => slot b.k), i / 64 < T.length :=
    List.forall_mem_map.mpr fun b _ => hT.div_lt (hslot b.k)
  obtain ⟨hlen, hset⟩ := Bitmap.isset_foldl_setbit (by decide) hcovers
  rw [List.foldl_map] at hlen hset
  exact ⟨hlen.trans hT, fun i => (hset i).trans or_comm⟩

/-- Clearing the slots of some keys. -/
theorem foldl_clrbit (hT : Covers m T) (hslot : ∀ k, slot k < m) (bs : List PhfKey) :
    Covers m (bs.foldl (fun T b => T.clrbit (slot b.k)) T) ∧
      ∀ i, (bs.foldl (fun T b => T.clrbit (slot b.k)) T).isset i = true ↔
        T.isset i = true ∧ i ∉ bs.map (fun b => slot b.k) := by
  induction bs generalizing T with
  | nil => exact ⟨hT, fun i => by simp⟩
  | cons b bs ih =>
    obtain ⟨hcov, hset⟩ := ih (T := T.clrbit (slot b.k)) (Bitmap.length_clrbit.trans hT)
    refine ⟨hcov, fun i => ?_⟩
    rw [List.foldl_cons, hset, Bitmap.isset_clrbit (by decide) (hT.div_lt (hslot b.k)), Bool.and_eq_true,
      decide_eq_true_eq, List.map_cons, List.mem_cons]
    tauto

/-- **An attempt** succeeds when the keys have free slots of their own; it only adds slots of its keys
    to the working bitmap. -/
theorem attempt_spec (hTb : Covers m Tb) (hslot : ∀ k, slot k < m) (bs : List PhfKey) :
    Covers m (attempt slot T bs Tb).1 ∧
      (∀ i, (attempt slot T bs Tb).1.isset i = true → Tb.isset i = true ∨ i ∈ bs.map (fun b => slot b.k)) ∧
      ((attempt slot T bs Tb).2 = true → (bs.map (fun b => slot b.k)).Nodup ∧
        ∀ i ∈ bs.map (fun b => slot b.k), T.isset i = false ∧ Tb.isset i = false) := by
  induction bs generalizing Tb with
  | nil => exact ⟨hTb, fun i h => Or.inl h, fun _ => ⟨List.nodup_nil, fun i hi => absurd hi List.not_mem_nil⟩⟩
  | cons b bs ih =>
    rw [attempt]
    -- a slot that is taken ends the attempt, with what it has added so far
    split_ifs with htaken
    · exact ⟨hTb, fun i h => Or.inl h, fun h => absurd h (by simp)⟩
    · rw [Bool.or_eq_true, not_or, Bool.not_eq_true, Bool.not_eq_true] at htaken
      obtain ⟨hcov, hadds, hok⟩ := ih (covers_setbit hTb (i := slot b.k))
      have hset := fun i => Bitmap.isset_setbit (j := i) (by decide) (hTb.div_lt (hslot b.k))
      refine ⟨hcov, fun i hi => ?_, fun h => ?_⟩
      · rcases hadds i hi with h | h
        · rw [hset, Bool.or_eq_true, decide_eq_true_eq] at h
          rcases h with rfl | h
          · exact Or.inr List.mem_cons_self
          · exact Or.inl h
        · exact Or.inr (List.mem_cons_of_mem _ h)
      · obtain ⟨hnodup, hfree⟩ := hok h
        -- a later key finds the slot of this one taken
        have hrest : ∀ i ∈ bs.map (fun b => slot b.k), slot b.k ≠ i ∧ Tb.isset i = false := by
          intro i hi
          have hi' := (hfree i hi).2
          rw [hset, Bool.or_eq_false_iff, decide_eq_false_iff_not] at hi'
          exact hi'
        rw [List.map_cons, List.nodup_cons]
        refine ⟨⟨fun hb => (hrest _ hb).1 rfl, hnodup⟩, fun i hi => ?_⟩
        rcases List.mem_cons.mp hi with rfl | hi
        · exact htaken
        · exact ⟨(hfree i hi).1, (hrest i hi).2⟩

theorem phfFModM_lt (hm : 0 < m) (seed d : UInt32) (k : Bytes) : phfFModM seed m d k < m :=
  Nat.mod_lt _ hm

/-- **The search** finds a displacement that puts the keys on free slots of their own; the working
    bitmap keeps to slots that are taken then. -/
theorem displace_spec {seed : UInt32} (hm : 0 < m) (hTb : Covers m Tb)
    (hwork : ∀ i, Tb.isset i = true → T.isset i = true) {fuel d d' : ℕ} {Tb' : Bitmap 64}
    (h : displace seed m T bs fuel d Tb = some (d', Tb')) :
    let slots := bs.map (fun b => phfFModM seed m (UInt32.ofNat d') b.k)
    Covers m Tb' ∧ slots.Nodup ∧ (∀ i ∈ slots, T.isset i = false) ∧
      ∀ i, Tb'.isset i = true → T.isset i = true ∨ i ∈ slots := by
  induction fuel generalizing d Tb with
  | zero => cases h
  | succ fuel ih =>
    rw [displace] at h
    have hslot := phfFModM_lt hm seed (UInt32.ofNat (d + 1))
    obtain ⟨hcov, hadds, hok⟩ := attempt_spec (T := T) hTb hslot bs
    generalize attempt (phfFModM seed m (UInt32.ofNat (d + 1))) T bs Tb = r at h hcov hadds hok
    obtain ⟨Tb₁, _ | _⟩ := r
    · -- a slot was taken: what the attempt added goes again
      obtain ⟨hcov', hclr⟩ := foldl_clrbit hcov hslot bs
      refine ih hcov' (fun i hi => ?_) h
      obtain ⟨hi, hnot⟩ := (hclr i).mp hi
      exact hwork i ((hadds i hi).resolve_right hnot)
    · -- all slots were free: they stay in the working set
      cases h
      obtain ⟨hnodup, hfree⟩ := hok rfl
      exact ⟨hcov, hnodup, fun i hi => (hfree i hi).1, fun i hi => (hadds i hi).imp_left (hwork i)⟩

end

/-! ## The buckets in order -/

theorem getD_modify (l : List ℕ) (i j : ℕ) (hi : i < l.length) :
    (l.modify i (· + 1)).getD j 0 = l.getD j 0 + if i = j then 1 else 0 := by
  rw [List.getD_eq_getElem?_getD, List.getElem?_modify, List.getD_eq_getElem?_getD]
  split_ifs with h
  · subst h
    rw [List.getElem?_eq_getElem hi]
    rfl
  · simp

/-- A bucket's size is the number of its keys. -/
theorem getD_bucketSizes {seed : UInt32} {r : ℕ} (hr : 0 < r) (keys : List Bytes) (b : ℕ) :
    (bucketSizes seed r keys).getD b 0 = keys.countP (fun k => phfGModR seed r k = b) := by
  have hfold : ∀ bz : List ℕ, bz.length = r →
      (keys.foldl (fun bz k => bz.modify (phfGModR seed r k) (· + 1)) bz).getD b 0 =
        bz.getD b 0 + keys.countP (fun k => phfGModR seed r k = b) := by
    induction keys with
    | nil => exact fun bz _ => rfl
    | cons k keys ih =>
      intro bz hbz
      have hk : phfGModR seed r k < bz.length := (Nat.mod_lt _ hr).trans_eq hbz.symm
      rw [List.foldl_cons, ih _ ((List.length_modify _ _ _).trans hbz), getD_modify _ _ _ hk, List.countP_cons]
      simp only [decide_eq_true_eq]
      omega
  rw [bucketSizes, hfold _ List.length_replicate]
  have hzero : (List.replicate r 0).getD b 0 = 0 := by
    rw [List.getD_eq_getElem?_getD, List.getElem?_replicate]
    split_ifs <;> rfl
  rw [hzero, Nat.zero_add]

/-- What `phf_keycmp` sorts by, the greatest first. -/
def PhfKey.rank (b : PhfKey) : ℕ ×ₗ ℕ := toLex (b.n, b.g)

theorem phfKeycmp_le {a b : PhfKey} : phfKeycmp a b ≤ 0 ↔ b.rank ≤ a.rank := by
  rw [PhfKey.rank, PhfKey.rank, Prod.Lex.toLex_le_toLex, phfKeycmp]
  split_ifs <;> simp <;> omega

/-- The entries still to be placed: complete buckets, in order. -/
structure Pending (seed : UInt32) (r : ℕ) (bs : List PhfKey) : Prop where
  bucket : ∀ b ∈ bs, b.g = phfGModR seed r b.k
  size : ∀ b ∈ bs, b.n = bs.countP (fun a => a.g = b.g)
  order : bs.Pairwise (fun a b => b.rank ≤ a.rank)

theorem pending_sort (qs : QSort) {seed : UInt32} {r : ℕ} (hr : 0 < r) (keys : List Bytes) :
    Pending seed r (qs.sort phfKeycmp (bucketKeys seed r keys)) := by
  have hperm := qs.perm phfKeycmp (bucketKeys seed r keys)
  have hentry : ∀ b ∈ bucketKeys seed r keys, b.g = phfGModR seed r b.k ∧
      b.n = (bucketKeys seed r keys).countP (fun a => a.g = b.g) := by
    intro b hb
    obtain ⟨k, -, rfl⟩ := List.mem_map.mp hb
    refine ⟨rfl, ?_⟩
    show (bucketSizes seed r keys).getD (phfGModR seed r k) 0 = _
    rw [getD_bucketSizes hr, bucketKeys, List.countP_map]
    rfl
  refine ⟨fun b hb => (hentry b (hperm.mem_iff.mp hb)).1, fun b hb => ?_, ?_⟩
  · rw [hperm.countP_eq]
    exact (hentry b (hperm.mem_iff.mp hb)).2
  · refine (qs.sorted phfKeycmp _ (fun a b => ?_) fun a b c hab hbc => ?_).imp fun h => phfKeycmp_le.mp h
    · rw [phfKeycmp_le, phfKeycmp_le]
      exact le_total _ _
    · rw [phfKeycmp_le] at hab hbc ⊢
      exact hbc.trans hab

/-- **The first entries are a whole bucket**, and what is left are whole buckets again. -/
theorem Pending.split {seed : UInt32} {r : ℕ} {b : PhfKey} {bs : List PhfKey}
    (h : Pending seed r (b :: bs)) :
    (b :: bs).take b.n = (b :: bs).filter (fun a => a.g = b.g) ∧
      (b :: bs).drop b.n = (b :: bs).filter (fun a => a.g ≠ b.g) ∧
      Pending seed r ((b :: bs).drop b.n) ∧ 0 < b.n := by
  -- keys of one rank are those of one bucket, as a bucket has one size
  have hrank : ∀ a ∈ b :: bs, a.rank = b.rank ↔ a.g = b.g := by
    intro a ha
    rw [PhfKey.rank, PhfKey.rank, toLex_inj, Prod.mk.injEq]
    refine ⟨And.right, fun hg => ⟨?_, hg⟩⟩
    rw [h.size a ha, h.size b List.mem_cons_self, hg]
  have hmax : ∀ a ∈ b :: bs, a.rank ≤ b.rank := by
    intro a ha
    rcases List.mem_cons.mp ha with rfl | ha
    · exact le_rfl
    · exact (List.pairwise_cons.mp h.order).1 a ha
  obtain ⟨htake, hdrop⟩ := take_countP PhfKey.rank h.order hmax
  have hcount : (b :: bs).countP (fun a => a.rank = b.rank) = b.n := by
    rw [h.size b List.mem_cons_self]
    exact List.countP_congr fun a ha => by simpa using hrank a ha
  rw [hcount] at htake hdrop
  have hdrop' : (b :: bs).drop b.n = (b :: bs).filter (fun a => a.g ≠ b.g) := by
    rw [hdrop]
    exact List.filter_congr fun a ha => by simpa using hrank a ha
  refine ⟨?_, hdrop', ⟨?_, ?_, ?_⟩, ?_⟩
  · rw [htake]
    exact List.filter_congr fun a ha => by simpa using hrank a ha
  · exact fun a ha => h.bucket a (List.mem_of_mem_drop ha)
  · intro a ha
    -- the other buckets keep their sizes
    rw [h.size a (List.mem_of_mem_drop ha), hdrop', List.countP_filter]
    rw [hdrop', List.mem_filter] at ha
    refine List.countP_congr fun x _ => ?_
    have hne : a.g ≠ b.g := by simpa using ha.2
    simp only [decide_eq_true_eq, Bool.and_eq_true]
    exact ⟨fun hx => ⟨hx, hx ▸ hne⟩, And.left⟩
  · exact h.order.sublist (List.drop_sublist _ _)
  · rw [h.size b List.mem_cons_self]
    exact List.countP_pos_iff.mpr ⟨b, List.mem_cons_self, by simp⟩

/-! ## The perfect hash -/

section

variable {seed : UInt32} {r m : ℕ}

/-- The displacement map as a function. -/
def Placing.disp (p : Placing) (b : ℕ) : UInt32 := p.g.getD b 0

/-- The keys that are placed have slots of their own, and `T` tells which. -/
structure Placing.Sound (seed : UInt32) (r m : ℕ) (p : Placing) (done : List Bytes) : Prop where
  size : p.g.length = r
  covers : Covers m p.T
  coversb : Covers m p.Tb
  taken : ∀ i, p.T.isset i = true ↔ i ∈ done.map (place (phfGModR seed r) (phfFModM seed m) p.disp)
  working : ∀ i, p.Tb.isset i = true → p.T.isset i = true
  perfect : Perfect (phfGModR seed r) (phfFModM seed m) p.disp done

theorem Placing.disp_set {p : Placing} {T Tb : Bitmap 64} {dMax d : UInt32} {b : ℕ} (hb : b < p.g.length) :
    Placing.disp ⟨T, Tb, p.g.set b d, dMax⟩ = Function.update p.disp b d := by
  funext c
  rw [Placing.disp, List.getD_eq_getElem?_getD, List.getElem?_set, Function.update_apply, Placing.disp,
    List.getD_eq_getElem?_getD]
  by_cases hc : b = c
  · subst hc
    simp [hb]
  · rw [if_neg hc, if_neg (Ne.symm hc)]

/-- **One bucket is placed**, and the others stay. -/
theorem Placing.Sound.place (hm : 0 < m) {p : Placing} {done : List Bytes}
    (hp : p.Sound seed r m done) {b : ℕ} {group : List PhfKey} (hb : b < r)
    (hgroup : ∀ a ∈ group, phfGModR seed r a.k = b) (hdone : ∀ k ∈ done, phfGModR seed r k ≠ b)
    {fuel d : ℕ} {Tb : Bitmap 64} (hd : displace seed m p.T group fuel 0 p.Tb = some (d, Tb)) (dMax : UInt32) :
    Placing.Sound seed r m ⟨group.foldl (fun T a => T.setbit (phfFModM seed m (UInt32.ofNat d) a.k)) p.T, Tb,
      p.g.set b (UInt32.ofNat d), dMax⟩ (done ++ group.map PhfKey.k) := by
  obtain ⟨hcovb, hnodup, hfree, hwork⟩ := displace_spec hm hp.coversb hp.working hd
  obtain ⟨hcov, hset⟩ := foldl_setbit hp.covers (phfFModM_lt hm seed (UInt32.ofNat d)) group
  have hdisp : Placing.disp ⟨group.foldl (fun T a => T.setbit (phfFModM seed m (UInt32.ofNat d) a.k)) p.T, Tb,
      p.g.set b (UInt32.ofNat d), dMax⟩ = Function.update p.disp b (UInt32.ofNat d) :=
    Placing.disp_set (hb.trans_eq hp.size.symm)
  have hkeys : ∀ k ∈ group.map PhfKey.k, phfGModR seed r k = b := List.forall_mem_map.mpr hgroup
  have hslots : group.map (fun a => phfFModM seed m (UInt32.ofNat d) a.k) =
      (group.map PhfKey.k).map (phfFModM seed m (UInt32.ofNat d)) := by rw [List.map_map]; rfl
  refine ⟨?_, hcov, hcovb, fun i => ?_, fun i hi => ?_, ?_⟩
  · exact List.length_set.trans hp.size
  · rw [hset, hp.taken, hdisp, map_place_update hdone hkeys, List.mem_append, hslots]
  · exact (hset i).mpr (hwork i hi)
  · rw [hdisp]
    -- the slots of the group are free, so none of them is taken by a key that was placed
    refine hp.perfect.extend hdone hkeys (hslots ▸ hnodup) fun k hk hmem => ?_
    have hslot : phfFModM seed m (UInt32.ofNat d) k ∈ group.map (fun a => phfFModM seed m (UInt32.ofNat d) a.k) := by
      rw [hslots]
      exact List.mem_map_of_mem hk
    have htaken := (hp.taken _).mpr hmem
    rw [hfree _ hslot] at htaken
    exact absurd htaken (by simp)

/-- **All buckets are placed.** -/
theorem placeBuckets_sound (hr : 0 < r) (hm : 0 < m) {fuel turns : ℕ} {bs : List PhfKey} {p p' : Placing}
    {done : List Bytes} (hbs : Pending seed r bs) (hturns : bs.length ≤ turns) (hp : p.Sound seed r m done)
    (hdone : ∀ k ∈ done, ∀ b ∈ bs, phfGModR seed r k ≠ b.g)
    (h : placeBuckets fuel seed m turns bs p = some p') :
    ∃ all, all.Perm (done ++ bs.map PhfKey.k) ∧ p'.Sound seed r m all := by
  induction turns generalizing bs p done with
  | zero =>
    have hnil : bs = [] := List.eq_nil_of_length_eq_zero (Nat.le_zero.mp hturns)
    subst hnil
    cases h
    exact ⟨done, by simp, hp⟩
  | succ turns ih =>
    cases bs with
    | nil =>
      cases h
      exact ⟨done, by simp, hp⟩
    | cons b bs =>
      -- the next bucket is the front of the sorted keys
      obtain ⟨htake, hdrop, hrest, hpos⟩ := hbs.split
      rw [placeBuckets, if_pos hpos] at h
      simp only at h
      cases hd : displace seed m p.T ((b :: bs).take b.n) fuel 0 p.Tb with
      | none =>
        rw [hd] at h
        cases h
      | some found =>
        obtain ⟨d, Tb⟩ := found
        rw [hd] at h
        have hgroup : ∀ a ∈ (b :: bs).take b.n, phfGModR seed r a.k = b.g := by
          intro a ha
          rw [htake, List.mem_filter] at ha
          rw [← hbs.bucket a ha.1]
          exact of_decide_eq_true ha.2
        have hb : b.g < r := by
          rw [hbs.bucket b List.mem_cons_self]
          exact Nat.mod_lt _ hr
        have hnext := hp.place hm hb hgroup (fun k hk => hdone k hk b List.mem_cons_self) hd
          (if d > p.dMax.toNat then UInt32.ofNat d else p.dMax)
        have hlen : ((b :: bs).drop b.n).length ≤ turns := by
          rw [List.length_drop]
          simp only [List.length_cons] at hturns ⊢
          omega
        -- no key that is placed belongs to a bucket that waits
        have hother : ∀ k ∈ done ++ ((b :: bs).take b.n).map PhfKey.k, ∀ a ∈ (b :: bs).drop b.n,
            phfGModR seed r k ≠ a.g := by
          intro k hk a ha
          rcases List.mem_append.mp hk with hk | hk
          · exact hdone k hk a (List.mem_of_mem_drop ha)
          · obtain ⟨x, hx, rfl⟩ := List.mem_map.mp hk
            rw [hgroup x hx]
            rw [hdrop, List.mem_filter] at ha
            exact fun heq => (of_decide_eq_true ha.2) heq.symm
        obtain ⟨all, hall, hsound⟩ := ih hrest hlen hnext hother h
        refine ⟨all, hall.trans ?_, hsound⟩
        rw [List.append_assoc, ← List.map_append, List.take_append_drop]

theorem phfHash_eq {phf : Phf} (h : phf.gOp = phfGUint32ModR) (k : Bytes) :
    phfHash phf k = phfFModM phf.seed phf.m (phf.g.getD (phfGModR phf.seed phf.r k) 0) k := by
  rw [phfHash, h, phfFModM, phfGModR]
  exact if_neg (by decide)

/-- The loop stops at a prime, if it gets that far. -/
theorem primeupLoop_le {p : ℕ} (hp : phfIsprime p = true) {turns n : ℕ} (hn : n ≤ p) (hturns : p ≤ turns + n) :
    primeupLoop turns n ≤ p := by
  induction turns generalizing n with
  | zero => exact hn
  | succ turns ih =>
    rw [primeupLoop]
    split_ifs with hprime
    · exact hn
    · have hne : n ≠ p := by
        rintro rfl
        exact hprime hp
      exact ih (by omega) (by omega)

/-- `4294967291` is the greatest prime of 32 bits. -/
theorem phfPrimeup_le (n : ℕ) : phfPrimeup n ≤ 4294967291 := by
  rw [phfPrimeup]
  split_ifs with hn
  · exact Nat.zero_le _
  · have hprime : phfIsprime 4294967291 = true := by decide +kernel
    refine primeupLoop_le hprime (Nat.le_of_not_lt hn) ?_
    rw [sizeMax]
    omega

/-- What `init` returns: sizes of 32 bits and a hash that is perfect on the keys. -/
structure Phf.Sound (phf : Phf) (seed : UInt32) (keys : List Bytes) : Prop where
  pos : 0 < phf.m
  size : phf.g.length = phf.r
  r_le : phf.r ≤ 4294967291
  m_le : phf.m ≤ 4294967291
  dMax_lt : phf.dMax < 2 ^ 32
  perfect : ∃ disp, (∀ k, phfHash phf k = place (phfGModR seed phf.r) (phfFModM seed phf.m) disp k) ∧
    Perfect (phfGModR seed phf.r) (phfFModM seed phf.m) disp keys

theorem phfInit_sound {qs : QSort} {fuel l a : ℕ} {keys : List Bytes} {phf : Phf}
    (h : phfInit qs fuel keys l a seed = some phf) : phf.Sound seed keys := by
  unfold phfInit at h
  simp only at h
  split_ifs at h with hzero
  rw [not_or] at hzero
  have hr_le := phfPrimeup_le (phfHowmany (max keys.length 1) (max l 1))
  have hm_le := phfPrimeup_le (max keys.length 1 * 100 / max (min a 100) 1)
  generalize phfPrimeup (phfHowmany (max keys.length 1) (max l 1)) = r at h hzero hr_le
  generalize phfPrimeup (max keys.length 1 * 100 / max (min a 100) 1) = m at h hzero hm_le
  have hr : 0 < r := Nat.pos_of_ne_zero hzero.1
  have hm : 0 < m := Nat.pos_of_ne_zero hzero.2
  rw [Option.bind_eq_bind, Option.bind_eq_some_iff] at h
  obtain ⟨p, hp, hphf⟩ := h
  cases hphf
  -- the invariant of the empty table
  have hstart : Placing.Sound seed r m
      ⟨Bitmap.blank 64 (phfHowmany m 64), Bitmap.blank 64 (phfHowmany m 64), List.replicate r 0, 0⟩ [] :=
    { size := List.length_replicate
      covers := Bitmap.length_blank _
      coversb := Bitmap.length_blank _
      taken := fun i => by simp [Bitmap.isset_blank]
      working := fun i hi => hi
      perfect := perfect_nil }
  obtain ⟨all, hall, hsound⟩ := placeBuckets_sound hr hm (pending_sort qs hr keys) le_rfl hstart
    (fun k hk => absurd hk List.not_mem_nil) hp
  refine ⟨hm, hsound.size, hr_le, hm_le, p.dMax.toNat_lt, p.disp,
    fun k => by rw [phfHash_eq rfl, HashDisplace.place, Placing.disp], hsound.perfect.perm (hall.trans ?_)⟩
  rw [List.nil_append]
  -- what was placed are the keys, in another order
  refine ((qs.perm _ _).map PhfKey.k).trans (List.Perm.of_eq ?_)
  rw [bucketKeys, List.map_map]
  exact List.map_id' keys

/-- **The hash is perfect**: once `init` has returned, the keys are all different, their hashes are
    different numbers, and every string hashes to a slot of the table. -/
theorem phfHash_perfect {qs : QSort} {fuel l a : ℕ} {keys : List Bytes} {phf : Phf}
    (h : phfInit qs fuel keys l a seed = some phf) :
    keys.Nodup ∧ (∀ k ∈ keys, ∀ k' ∈ keys, phfHash phf k = phfHash phf k' → k = k') ∧
      ∀ k, phfHash phf k < phf.m := by
  have hsound := phfInit_sound h
  obtain ⟨disp, hhash, hperfect⟩ := hsound.perfect
  refine ⟨hperfect.nodup, fun k hk k' hk' heq => hperfect.inj hk hk' ?_, fun k => ?_⟩
  · rw [← hhash, ← hhash, heq]
  · rw [hhash, HashDisplace.place]
    exact phfFModM_lt hsound.pos _ _ k

end

/-- Sorting by insertion. -/
def insertionQsort : QSort where
  sort cmp l := l.insertionSort (fun a b => cmp a b ≤ 0)
  perm cmp l := List.perm_insertionSort _ l
  sorted cmp l htotal htrans := by
    have : Std.Total (fun a b : PhfKey => cmp a b ≤ 0) := ⟨htotal⟩
    have : IsTrans PhfKey (fun a b => cmp a b ≤ 0) := ⟨htrans⟩
    exact List.pairwise_insertionSort _ l

def sampleKeys : List Bytes := [[1], [2], [3], [4], [7], [9]]

def samplePhf : Phf := ⟨false, 42, 2, 7, [5, 1], 5, 5⟩

/-- Six keys in two buckets and seven slots. -/
theorem phfHash_perfect_six :
    sampleKeys.Nodup ∧ (∀ k ∈ sampleKeys, ∀ k' ∈ sampleKeys, phfHash samplePhf k = phfHash samplePhf k' → k = k') ∧
      ∀ k, phfHash samplePhf k < samplePhf.m := by
  have hinit : phfInit insertionQsort 10 sampleKeys 4 80 42 = some samplePhf := by decide +kernel
  exact phfHash_perfect hinit

end Zapdos.Jamspell
