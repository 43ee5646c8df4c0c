/-
  Database keys — `StoreBase::EncodePrimaryKey` and `EncodeSecondaryKey`, as structured keys.

  A key of the store is a fixed-width key type followed either by a fixed-width id (primary) or by
  the parts of an index (secondary).  A key is kept here as that structure; the order is the one of
  the encoded strings on the keys of one shape: key type first, then the id, or the parts one after
  the other.  `Key.code` spells a key as a list of integers and the order of keys is the
  lexicographic order of the spellings.
-/
import Mathlib.Data.List.Lex
import Mathlib.Order.Lattice
import Zapdos.Store.Types

namespace Zapdos.Store

/-- One part of a secondary key. -/
inductive KeyPart
  | num (n : Int)
  | text (s : Bytes)
  deriving DecidableEq, Repr

/-- A database key. -/
inductive Key
  | primary (keytype : KeyTypeE) (id : Nat)
  | secondary (keytype : KeyTypeE) (parts : List KeyPart)
  deriving DecidableEq, Repr

/-- The key type a key starts with. -/
def Key.keytype : Key → KeyTypeE
  | .primary kt _ => kt
  | .secondary kt _ => kt

/-- `EncodePrimaryKey(keytype, id)`. -/
def encodePrimaryKey (keytype : KeyTypeE) (id : Nat) : Key := .primary keytype id

/-- `EncodeSecondaryKey<std::string>(keytype, name)`. -/
def encodeSecondaryKey (keytype : KeyTypeE) (name : Bytes) : Key := .secondary keytype [.text name]

/-- `EncodeSecondaryKey<int32_t,std::string>(keytype, n, name)`. -/
def encodeSecondaryKeyNum (keytype : KeyTypeE) (n : Int) (name : Bytes) : Key :=
  .secondary keytype [.num n, .text name]

/-- `EncodeSecondaryKey<int64_t,int64_t>(keytype, ts, id)`. -/
def encodeSecondaryKeyTs (keytype : KeyTypeE) (ts id : Nat) : Key :=
  .secondary keytype [.num ts, .num id]

/-! ## The order of keys -/

/-- The spelling of one part; the closing `0` is below every byte of a text. -/
def KeyPart.code : KeyPart → List Int
  | .num n => [0, n]
  | .text s => 1 :: (s.map (fun c => (c.toNat : Int) + 1) ++ [0])

/-- The spelling of a key. -/
def Key.code : Key → List Int
  | .primary kt id => [(kt : Int), 0, (id : Int)]
  | .secondary kt parts => (kt : Int) :: 1 :: parts.flatMap KeyPart.code

/-- A terminated text can be read off the front of a spelling. -/
theorem textCode_append_inj {s t : Bytes} {l l' : List Int}
    (h : s.map (fun c => (c.toNat : Int) + 1) ++ 0 :: l =
      t.map (fun c => (c.toNat : Int) + 1) ++ 0 :: l') : s = t ∧ l = l' := by
  induction s generalizing t with
  | nil =>
    cases t with
    | nil => exact ⟨rfl, (List.cons.inj h).2⟩
    | cons c t =>
      have hc : (0 : Int) = (c.toNat : Int) + 1 := (List.cons.inj h).1
      omega
  | cons c s ih =>
    cases t with
    | nil =>
      have hc : (c.toNat : Int) + 1 = 0 := (List.cons.inj h).1
      omega
    | cons d t =>
      have hcd : (c.toNat : Int) + 1 = (d.toNat : Int) + 1 := (List.cons.inj h).1
      obtain ⟨hst, hl⟩ := ih (List.cons.inj h).2
      have hc : c = d := UInt8.toNat_inj.mp (by omega)
      exact ⟨by rw [hc, hst], hl⟩

theorem partCode_append_inj {p q : KeyPart} {l l' : List Int}
    (h : p.code ++ l = q.code ++ l') : p = q ∧ l = l' := by
  cases p with
  | num n =>
    cases q with
    | num m => simpa [KeyPart.code] using h
    | text t => simp [KeyPart.code] at h
  | text s =>
    cases q with
    | num m => simp [KeyPart.code] at h
    | text t =>
      have h' : (s.map (fun c => (c.toNat : Int) + 1) ++ [0]) ++ l =
          (t.map (fun c => (c.toNat : Int) + 1) ++ [0]) ++ l' := (List.cons.inj h).2
      rw [List.append_assoc, List.append_assoc, List.singleton_append, List.singleton_append] at h'
      obtain ⟨hst, hl⟩ := textCode_append_inj h'
      exact ⟨by rw [hst], hl⟩

theorem partsCode_inj : ∀ {ps qs : List KeyPart},
    ps.flatMap KeyPart.code = qs.flatMap KeyPart.code → ps = qs
  | [], [], _ => rfl
  | [], q :: qs, h => by cases q <;> simp [KeyPart.code] at h
  | p :: ps, [], h => by cases p <;> simp [KeyPart.code] at h
  | p :: ps, q :: qs, h => by
    rw [List.flatMap_cons, List.flatMap_cons] at h
    obtain ⟨hpq, hl⟩ := partCode_append_inj h
    rw [hpq, partsCode_inj hl]

theorem Key.code_injective : Function.Injective Key.code := by
  intro a b h
  cases a with
  | primary kt id =>
    cases b with
    | primary kt' id' =>
      simp only [Key.code, List.cons.injEq, Int.natCast_inj] at h
      rw [h.1, h.2.2.1]
    | secondary kt' ps' => simp [Key.code] at h
  | secondary kt ps =>
    cases b with
    | primary kt' id' => simp [Key.code] at h
    | secondary kt' ps' =>
      simp only [Key.code, List.cons.injEq, Int.natCast_inj] at h
      rw [h.1, partsCode_inj h.2.2]

instance : LinearOrder Key where
  __ := PartialOrder.lift Key.code Key.code_injective
  le_total a b := le_total a.code b.code
  toDecidableLE a b := inferInstanceAs (Decidable (a.code ≤ b.code))
  toDecidableLT a b := inferInstanceAs (Decidable (a.code < b.code))
  toDecidableEq := inferInstance

theorem Key.lt_def {a b : Key} : a < b ↔ a.code < b.code := Iff.rfl

/-- Primary keys of one type are ordered by id. -/
theorem primary_lt_primary {kt id id' : Nat} :
    encodePrimaryKey kt id < encodePrimaryKey kt id' ↔ id < id' := by
  rw [Key.lt_def]
  simp only [encodePrimaryKey, Key.code, List.cons_lt_cons_iff, lt_self_iff_false, false_or,
    true_and, and_false, or_false, Int.ofNat_lt]

theorem primary_le_primary {kt id id' : Nat} :
    encodePrimaryKey kt id ≤ encodePrimaryKey kt id' ↔ id ≤ id' := by
  rw [← not_lt, primary_lt_primary, not_lt]

/-- A smaller key type comes first. -/
theorem lt_of_keytype_lt {a b : Key} (h : a.keytype < b.keytype) : a < b := by
  rw [Key.lt_def]
  have hc : ∀ k : Key, ∃ l, k.code = (k.keytype : Int) :: l := by
    intro k
    cases k <;> exact ⟨_, rfl⟩
  obtain ⟨la, ha⟩ := hc a
  obtain ⟨lb, hb⟩ := hc b
  rw [ha, hb]
  exact List.Lex.rel (Int.ofNat_lt.mpr h)

theorem keytype_le_of_le {a b : Key} (h : a ≤ b) : a.keytype ≤ b.keytype := by
  by_contra hlt
  exact absurd (lt_of_keytype_lt (not_le.mp hlt)) (not_lt.mpr h)

end Zapdos.Store
