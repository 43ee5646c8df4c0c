/-
  Opening one database.

  `Initialize` gets one database, which holds records, log, or both, and two counters that it raises.
  It adds the fences, steps back once from the first row of `K_MAXNODE` for the last log id, and once
  from the first row of each record type and of `K_LOGNODE` for the last record id.

  THE CRUX.  Between the fences of two neighbouring key types there are only rows of the first of them,
  in the order of their ids, because secondary keys come after all primary ones.  So each step back
  meets the greatest id of one type (`lastIdBefore_spec`), and never a row of another kind.
-/
import Mathlib.Order.Bounds.Basic
import Zapdos.Store.StoreLevel

namespace Zapdos.Store.Startup

open Zapdos.Lib

variable {V : Type}

/-- `Initialize`: the database with its fences, `last_pkey` and `last_lkey`. -/
def levelInitialize (blank : V) (db : OrdMap Key V) (lastPkey lastLkey : Nat) :
    Except Exc (OrdMap Key V × Nat × Nat) := do
  let db := putFences blank db
  let id ← lastIdBefore db kMaxnode "Fixed record K_MAXNODE missing"
    "Zero record before K_MAXNODE missing"
  let lastLkey := max lastLkey (id.getD 0)
  let lastPkey ← lastPkeyLoop db pkeyTypes lastPkey
  pure (db, lastPkey, lastLkey)

/-- A node with a log of its own opens two databases, one after the other. -/
def levelInitialize2 (blank : V) (db logdb : OrdMap Key V) (lastPkey lastLkey : Nat) :
    Except Exc (OrdMap Key V × OrdMap Key V × Nat × Nat) := do
  let (db, lastPkey, lastLkey) ← levelInitialize blank db lastPkey lastLkey
  let (logdb, lastPkey, lastLkey) ← levelInitialize blank logdb lastPkey lastLkey
  pure (db, logdb, lastPkey, lastLkey)

/-- The ids of all records. -/
def recordIds (db : OrdMap Key V) : Set Nat :=
  {id | ∃ kt, (kNonode ≤ kt ∧ kt < kLognode) ∧ (db.get (encodePrimaryKey kt id)).isSome = true}

/-- The ids of the log. -/
def logIds (db : OrdMap Key V) : Set Nat :=
  {id | ∃ kt, kt = kLognode ∧ (db.get (encodePrimaryKey kt id)).isSome = true}

/-- `n` is the last of these ids, `0` when there are none. -/
def IsLast (ids : Set Nat) (n : Nat) : Prop := IsGreatest (insert 0 ids) n

/-- The fences are there and nothing else has changed. -/
def AddsFences (blank : V) (db db' : OrdMap Key V) : Prop :=
  ∀ k, db'.get k = if isFence k then some ((db.get k).getD blank) else db.get k

/-! ## Fences and ids -/

/-- Fences add no id but `0`. -/
theorem isSome_putFences (blank : V) (db : OrdMap Key V) {kt id : Nat} (hid : id ≠ 0) :
    ((putFences blank db).get (encodePrimaryKey kt id)).isSome =
      (db.get (encodePrimaryKey kt id)).isSome := by
  have hno : isFence (encodePrimaryKey kt id) = false := by
    simp [isFence, encodePrimaryKey, hid]
  rw [get_putFences, hno]
  rfl

/-- What the steps back over some key types find beyond `n₀`, in terms of the rows before. -/
theorem isGreatest_of_putFences (blank : V) {db : OrdMap Key V} {types : KeyTypeE → Prop}
    {n₀ n : Nat}
    (hmem : n = n₀ ∨ ∃ kt, types kt ∧
      ((putFences blank db).get (encodePrimaryKey kt n)).isSome = true)
    (hle : n₀ ≤ n)
    (hmax : ∀ kt, types kt → ∀ i,
      ((putFences blank db).get (encodePrimaryKey kt i)).isSome = true → i ≤ n) :
    IsGreatest (insert n₀ {id | ∃ kt, types kt ∧
      (db.get (encodePrimaryKey kt id)).isSome = true}) n := by
  constructor
  · rcases hmem with h0 | ⟨kt, hkt, hrow⟩
    · exact Set.mem_insert_iff.mpr (Or.inl h0)
    · by_cases h0 : n = 0
      · have hn : n = n₀ := by omega
        exact Set.mem_insert_iff.mpr (Or.inl hn)
      · rw [isSome_putFences blank db h0] at hrow
        exact Set.mem_insert_iff.mpr (Or.inr ⟨kt, hkt, hrow⟩)
  · intro i hi
    rcases Set.mem_insert_iff.mp hi with h0 | ⟨kt, hkt, hrow⟩
    · omega
    · by_cases h0 : i = 0
      · omega
      · rw [← isSome_putFences blank db h0] at hrow
        exact hmax kt hkt i hrow

/-! ## One database -/

theorem wellKeyed_empty : WellKeyed (OrdMap.empty : OrdMap Key V) := by
  intro k v hk
  rw [OrdMap.get_empty] at hk
  cases hk

theorem WellKeyed.put {db : OrdMap Key V} (h : WellKeyed db) (kt : KeyTypeE) (id : Nat) (v : V) :
    WellKeyed (db.put (encodePrimaryKey kt id) v) := by
  intro k w hk hkt
  by_cases hkey : k = encodePrimaryKey kt id
  · subst hkey
    exact ⟨id, rfl⟩
  · rw [OrdMap.get_put_ne db hkey] at hk
    exact h k w hk hkt

/-- Two steps of the source, both on the database with its fences: the last log id, then the loop. -/
theorem levelInitialize_spec (blank : V) {db : OrdMap Key V} (h : WellKeyed db) (p₀ l₀ : Nat) :
    ∃ p l, levelInitialize blank db p₀ l₀ = .ok (putFences blank db, p, l) ∧
      IsGreatest (insert p₀ (recordIds db)) p ∧ IsGreatest (insert l₀ (logIds db)) l := by
  have hf : Fenced (putFences blank db) := fenced_putFences blank h
  have hmax : kLognode < kMaxnode := by decide
  have hmin : kNonode < kMaxnode := by decide
  obtain ⟨l, hl, hlin, hlmax⟩ := lastIdBefore_spec hf hmin (le_refl _)
    "Fixed record K_MAXNODE missing" "Zero record before K_MAXNODE missing"
  obtain ⟨p, hp, hple, hpall, hpin⟩ := lastPkeyLoop_spec hf pkeyTypes
    (fun kt hkt => ⟨(mem_pkeyTypes.mp hkt).1, (mem_pkeyTypes.mp hkt).2.trans hmax.le⟩) p₀
  refine ⟨p, max l₀ l, ?_, ?_, ?_⟩
  · simp only [levelInitialize, hl, hp, bind, Except.bind, pure, Except.pure, Option.getD_some]
  · apply isGreatest_of_putFences blank _ hple
    · rintro kt ⟨h1, h2⟩ i hi
      have hkt := hpall (kt + 1) (mem_pkeyTypes.mpr ⟨Nat.lt_succ_of_le h1, h2⟩) i
      rw [Nat.add_sub_cancel] at hkt
      exact hkt hi
    · rcases hpin with h0 | ⟨kt, hkt, hrow⟩
      · exact Or.inl h0
      · obtain ⟨h1, h2⟩ := mem_pkeyTypes.mp hkt
        have h1' : 10 < kt := h1
        have h2' : kt ≤ 49 := h2
        have h3 : kNonode ≤ kt - 1 := show 10 ≤ (kt : Nat) - 1 from Nat.le_sub_one_of_lt h1'
        have h4 : kt - 1 < kLognode := show (kt : Nat) - 1 < 49 from Nat.lt_of_lt_of_le
          (Nat.sub_one_lt (Nat.ne_of_gt (Nat.zero_lt_of_lt h1'))) h2'
        exact Or.inr ⟨kt - 1, ⟨h3, h4⟩, hrow⟩
  · apply isGreatest_of_putFences blank _ (le_max_left l₀ l)
    · intro kt hkt i hi
      subst hkt
      have hil : i ≤ l := hlmax i hi
      omega
    · rcases le_total l l₀ with hle | hle
      · exact Or.inl (max_eq_left hle)
      · rw [max_eq_right hle]
        exact Or.inr ⟨kLognode, rfl, hlin⟩

/-- Opening again, with the same counters, changes nothing. -/
theorem levelInitialize_putFences (blank : V) {db : OrdMap Key V} (h : WellKeyed db)
    (p₀ l₀ : Nat) :
    levelInitialize blank (putFences blank db) p₀ l₀ = levelInitialize blank db p₀ l₀ := by
  have hf : Fenced (putFences blank db) := fenced_putFences blank h
  rw [levelInitialize, levelInitialize, putFences_eq_self blank _ hf.fence]

/-! ## The counters -/

/-- The greatest of some ids, and then of some more, is the greatest of all of them. -/
theorem IsLast.union {ids more : Set Nat} {m n : Nat} (hm : IsLast ids m)
    (hn : IsGreatest (insert m more) n) : IsLast (ids ∪ more) n := by
  constructor
  · rcases Set.mem_insert_iff.mp hn.1 with h | h
    · subst h
      rcases Set.mem_insert_iff.mp hm.1 with h0 | hin
      · exact Set.mem_insert_iff.mpr (Or.inl h0)
      · exact Set.mem_insert_iff.mpr (Or.inr (Or.inl hin))
    · exact Set.mem_insert_iff.mpr (Or.inr (Or.inr h))
  · intro i hi
    have hmn : m ≤ n := hn.2 (Set.mem_insert m more)
    rcases Set.mem_insert_iff.mp hi with h0 | hin | hin
    · omega
    · have him : i ≤ m := hm.2 (Set.mem_insert_of_mem 0 hin)
      omega
    · exact hn.2 (Set.mem_insert_of_mem m hin)

/-- **Startup recovers the exact counters.** On every database whose primary rows have primary keys,
    with or without its fences, `Initialize` returns the last record id and the last log id, adds the
    missing fences and changes nothing else, and returns the same counters when it is run again. Two
    databases opened one after the other give the last ids of both. -/
theorem initialize_exact (blank : V) {db logdb : OrdMap Key V} (h : WellKeyed db)
    (hlog : WellKeyed logdb) :
    (∃ db' p l, levelInitialize blank db 0 0 = .ok (db', p, l) ∧
      IsLast (recordIds db) p ∧ IsLast (logIds db) l ∧ AddsFences blank db db' ∧
      levelInitialize blank db' 0 0 = .ok (db', p, l)) ∧
    ∃ db' logdb' p l, levelInitialize2 blank db logdb 0 0 = .ok (db', logdb', p, l) ∧
      IsLast (recordIds db ∪ recordIds logdb) p ∧ IsLast (logIds db ∪ logIds logdb) l ∧
      AddsFences blank db db' ∧ AddsFences blank logdb logdb' ∧
      levelInitialize2 blank db' logdb' 0 0 = .ok (db', logdb', p, l) := by
  obtain ⟨p, l, hinit, hp, hl⟩ := levelInitialize_spec blank h 0 0
  obtain ⟨p', l', hinit', hp', hl'⟩ := levelInitialize_spec blank hlog p l
  constructor
  · refine ⟨putFences blank db, p, l, hinit, hp, hl, get_putFences blank db, ?_⟩
    rw [levelInitialize_putFences blank h]
    exact hinit
  · have hboth : levelInitialize2 blank db logdb 0 0 =
        .ok (putFences blank db, putFences blank logdb, p', l') := by
      simp only [levelInitialize2, hinit, hinit', bind, Except.bind, pure, Except.pure]
    refine ⟨putFences blank db, putFences blank logdb, p', l', hboth, IsLast.union hp hp',
      IsLast.union hl hl', get_putFences blank db, get_putFences blank logdb, ?_⟩
    rw [← hboth, levelInitialize2, levelInitialize_putFences blank h]
    simp only [levelInitialize2, hinit, bind, Except.bind, levelInitialize_putFences blank hlog]

/-- A user `7` and a log entry `3`, without fences. -/
def twoRows : OrdMap Key Unit :=
  (OrdMap.empty.put (encodePrimaryKey kUserdata 7) ()).put (encodePrimaryKey kLognode 3) ()

/-- A database with a record and a log entry, and an empty one. -/
theorem initialize_exact_two :
    (∃ db' p l, levelInitialize () twoRows 0 0 = .ok (db', p, l) ∧
      IsLast (recordIds twoRows) p ∧ IsLast (logIds twoRows) l ∧ AddsFences () twoRows db' ∧
      levelInitialize () db' 0 0 = .ok (db', p, l)) ∧
    ∃ db' logdb' p l, levelInitialize2 () twoRows OrdMap.empty 0 0 = .ok (db', logdb', p, l) ∧
      IsLast (recordIds twoRows ∪ recordIds (V := Unit) OrdMap.empty) p ∧
      IsLast (logIds twoRows ∪ logIds (V := Unit) OrdMap.empty) l ∧
      AddsFences () twoRows db' ∧ AddsFences () OrdMap.empty logdb' ∧
      levelInitialize2 () db' logdb' 0 0 = .ok (db', logdb', p, l) :=
  initialize_exact () (WellKeyed.put (WellKeyed.put wellKeyed_empty kUserdata 7 ()) kLognode 3 ())
    wellKeyed_empty

end Zapdos.Store.Startup
