/-
  Wire formats — values written to and read from a stream of bytes.

  A format writes a value and reads one back with what is left of the stream; it carries a value when
  it reads what it wrote, whatever comes behind.  Formats are put together one after the other.

  THE LAWS THE CLIENTS USE.
    * `Carries.pair`, `Carries.list`, … — a format made of formats carries what these carry;
    * `Carries.dump_inj`                — values that are carried are written differently.
-/
import Mathlib.Algebra.Order.Group.Nat
import Mathlib.Data.Nat.ModEq
import Mathlib.Tactic.SplitIfs

namespace Zapdos.Lib

/-- A writer and a reader of one type. -/
structure Wire (α : Type*) where
  dump : α → List UInt8
  load : List UInt8 → Option (α × List UInt8)

namespace Wire

variable {α β : Type*}

/-- What is written is read back, and what comes behind is left. -/
def Carries (w : Wire α) (a : α) : Prop := ∀ rest, w.load (w.dump a ++ rest) = some (a, rest)

/-- Two values that are carried do not start the same stream. -/
theorem Carries.append_inj {w : Wire α} {a b : α} (ha : w.Carries a) (hb : w.Carries b)
    {s t : List UInt8} (h : w.dump a ++ s = w.dump b ++ t) : a = b ∧ s = t := by
  have heq : some (a, s) = some (b, t) := by rw [← ha s, ← hb t, h]
  simpa using heq

/-- What is carried is told by its bytes. -/
theorem Carries.dump_inj {w : Wire α} {a b : α} (ha : w.Carries a) (hb : w.Carries b)
    (h : w.dump a = w.dump b) : a = b := (ha.append_inj hb (s := []) (t := []) (by rw [h])).1

/-! ## Numbers -/

/-- The `n` low bytes of a number, the lowest first. -/
def leBytes : ℕ → ℕ → List UInt8
  | 0, _ => []
  | n + 1, x => UInt8.ofNat x :: leBytes n (x / 256)

/-- The number that `n` bytes make, when the stream has that many. -/
def leLoad : ℕ → List UInt8 → Option (ℕ × List UInt8)
  | 0, s => some (0, s)
  | _ + 1, [] => none
  | n + 1, c :: s => (leLoad n s).map (fun r => (c.toNat + 256 * r.1, r.2))

/-- A number of `n` bytes. -/
def le (n : ℕ) : Wire ℕ := ⟨leBytes n, leLoad n⟩

/-- The width is kept. -/
theorem length_leBytes (n x : ℕ) : (leBytes n x).length = n := by
  induction n generalizing x with
  | zero => rfl
  | succ n ih => rw [leBytes, List.length_cons, ih]

/-- A number that fits is carried. -/
theorem le_carries {n x : ℕ} (h : x < 256 ^ n) : (le n).Carries x := by
  intro rest
  show leLoad n (leBytes n x ++ rest) = _
  induction n generalizing x with
  | zero =>
    rw [Nat.pow_zero, Nat.lt_one_iff] at h
    rw [h]
    rfl
  | succ n ih =>
    have hdiv : x / 256 < 256 ^ n := by
      rw [Nat.div_lt_iff_lt_mul (by decide), ← Nat.pow_succ]
      exact h
    rw [leBytes, List.cons_append, leLoad, ih hdiv, Option.map_some]
    show some (x % 256 + 256 * (x / 256), rest) = _
    rw [Nat.mod_add_div]

/-! ## Formats made of formats -/

/-- The same bytes for another type. -/
def via (w : Wire α) (f : β → α) (g : α → β) : Wire β :=
  ⟨fun b => w.dump (f b), fun s => (w.load s).map (fun r => (g r.1, r.2))⟩

/-- A type that is written as another one. -/
theorem Carries.via {w : Wire α} {f : β → α} {g : α → β} {b : β} (h : w.Carries (f b)) (hg : g (f b) = b) :
    (w.via f g).Carries b := by
  intro rest
  show (w.load (w.dump (f b) ++ rest)).map _ = _
  rw [h rest, Option.map_some, hg]

/-- One after the other. -/
def pair (w : Wire α) (v : Wire β) : Wire (α × β) :=
  ⟨fun p => w.dump p.1 ++ v.dump p.2,
    fun s => (w.load s).bind (fun r => (v.load r.2).map (fun t => ((r.1, t.1), t.2)))⟩

/-- One after the other. -/
theorem Carries.pair {w : Wire α} {v : Wire β} {p : α × β} (ha : w.Carries p.1) (hb : v.Carries p.2) :
    (w.pair v).Carries p := by
  intro rest
  show (w.load (w.dump p.1 ++ v.dump p.2 ++ rest)).bind _ = _
  rw [List.append_assoc, ha, Option.bind_some]
  show (v.load (v.dump p.2 ++ rest)).map _ = _
  rw [hb, Option.map_some]

/-- The second one depends on what the first one reads. -/
def dep (w : Wire α) (v : α → Wire β) : Wire (α × β) :=
  ⟨fun p => w.dump p.1 ++ (v p.1).dump p.2,
    fun s => (w.load s).bind (fun r => ((v r.1).load r.2).map (fun t => ((r.1, t.1), t.2)))⟩

/-- The first says how the second is written. -/
theorem Carries.dep {w : Wire α} {v : α → Wire β} {p : α × β} (ha : w.Carries p.1) (hb : (v p.1).Carries p.2) :
    (w.dep v).Carries p := by
  intro rest
  show (w.load (w.dump p.1 ++ (v p.1).dump p.2 ++ rest)).bind _ = _
  rw [List.append_assoc, ha, Option.bind_some]
  show ((v p.1).load ((v p.1).dump p.2 ++ rest)).map _ = _
  rw [hb, Option.map_some]

/-- A given number of elements. -/
def loadMany (w : Wire α) : ℕ → List UInt8 → Option (List α × List UInt8)
  | 0, s => some ([], s)
  | n + 1, s => (w.load s).bind (fun r => (loadMany w n r.2).map (fun t => (r.1 :: t.1, t.2)))

/-- Many of one kind are read back, and the rest is left. -/
theorem loadMany_flatMap {w : Wire α} {l : List α} (h : ∀ a ∈ l, w.Carries a) (rest : List UInt8) :
    loadMany w l.length (l.flatMap w.dump ++ rest) = some (l, rest) := by
  induction l with
  | nil => rfl
  | cons a l ih =>
    rw [List.flatMap_cons, List.append_assoc, List.length_cons, loadMany, h a List.mem_cons_self,
      Option.bind_some]
    show (loadMany w l.length (l.flatMap w.dump ++ rest)).map _ = _
    rw [ih fun b hb => h b (List.mem_cons_of_mem a hb), Option.map_some]

/-- The elements of a list whose length is known. -/
def many (n : ℕ) (w : Wire α) : Wire (List α) := ⟨fun l => l.flatMap w.dump, loadMany w n⟩

/-- As many as were written. -/
theorem Carries.many {w : Wire α} {l : List α} {n : ℕ} (hlen : l.length = n) (h : ∀ a ∈ l, w.Carries a) :
    (many n w).Carries l := by
  intro rest
  subst hlen
  exact loadMany_flatMap h rest

/-- The number of elements and the elements. -/
def list (size : Wire ℕ) (w : Wire α) : Wire (List α) :=
  ⟨fun l => size.dump l.length ++ l.flatMap w.dump, fun s => (size.load s).bind (fun r => loadMany w r.1 r.2)⟩

/-- The number first, then the elements. -/
theorem Carries.list {size : Wire ℕ} {w : Wire α} {l : List α} (hsize : size.Carries l.length)
    (h : ∀ a ∈ l, w.Carries a) : (list size w).Carries l := by
  intro rest
  show (size.load (size.dump l.length ++ l.flatMap w.dump ++ rest)).bind _ = _
  rw [List.append_assoc, hsize, Option.bind_some]
  exact loadMany_flatMap h rest

end Wire

end Zapdos.Lib
