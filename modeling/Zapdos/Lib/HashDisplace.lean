/-
  Hash and displace — a perfect hash in two steps.

  Every key belongs to a bucket and every bucket has a displacement; a key's place depends on the key
  and on the displacement of its bucket.  The buckets are placed one after the other: a displacement
  will do when it puts the keys of its bucket on places that are free, each on one of its own.

  THE CRUX.  A displacement moves the keys of one bucket only, so a bucket that is placed stays placed
  as long as no later one is the same bucket again (`Perfect.extend`); and in a list in the order of
  the buckets each bucket is one piece (`take_countP`).
-/
import Mathlib.Data.List.Nodup
import Mathlib.Logic.Function.Basic
import Mathlib.Order.Lattice

namespace Zapdos.Lib.HashDisplace

section

variable {K B D V : Type*} (bucket : K → B) (f : D → K → V)

/-- The place of a key. -/
def place (g : B → D) (k : K) : V := f (g (bucket k)) k

/-- The keys have places of their own. -/
def Perfect (g : B → D) (ks : List K) : Prop := (ks.map (place bucket f g)).Nodup

variable {bucket f} {g : B → D} {ks : List K}

/-- No keys collide. -/
theorem perfect_nil : Perfect bucket f g [] := List.nodup_nil

/-- The keys are different. -/
theorem Perfect.nodup (h : Perfect bucket f g ks) : ks.Nodup := List.Nodup.of_map _ h

/-- The place tells the key. -/
theorem Perfect.inj (h : Perfect bucket f g ks) {k k' : K} (hk : k ∈ ks) (hk' : k' ∈ ks)
    (heq : place bucket f g k = place bucket f g k') : k = k' :=
  List.inj_on_of_nodup_map h hk hk' heq

/-- The order of the keys does not matter. -/
theorem Perfect.perm {ks' : List K} (h : Perfect bucket f g ks) (hp : ks.Perm ks') :
    Perfect bucket f g ks' := (hp.map _).nodup_iff.mp h

variable [DecidableEq B]

/-- Placing one bucket leaves the keys of the others where they are. -/
theorem place_update_of_ne {b : B} {d : D} {k : K} (h : bucket k ≠ b) :
    place bucket f (Function.update g b d) k = place bucket f g k := by
  rw [place, Function.update_of_ne h, place]

/-- The keys of a bucket go where its displacement says. -/
theorem place_update {b : B} {d : D} {k : K} (h : bucket k = b) :
    place bucket f (Function.update g b d) k = f d k := by
  rw [place, h, Function.update_self]

/-- The other buckets stay where they are. -/
theorem map_place_update {b : B} {d : D} {group : List K} (hks : ∀ k ∈ ks, bucket k ≠ b)
    (hgroup : ∀ k ∈ group, bucket k = b) :
    (ks ++ group).map (place bucket f (Function.update g b d)) =
      ks.map (place bucket f g) ++ group.map (f d) := by
  rw [List.map_append]
  congr 1
  · exact List.map_congr_left fun k hk => place_update_of_ne (hks k hk)
  · exact List.map_congr_left fun k hk => place_update (hgroup k hk)

/-- **Placing a bucket**: its keys go to places of their own that are free. -/
theorem Perfect.extend (h : Perfect bucket f g ks) {b : B} {d : D} {group : List K}
    (hks : ∀ k ∈ ks, bucket k ≠ b) (hgroup : ∀ k ∈ group, bucket k = b)
    (hnodup : (group.map (f d)).Nodup) (hfree : ∀ k ∈ group, f d k ∉ ks.map (place bucket f g)) :
    Perfect bucket f (Function.update g b d) (ks ++ group) := by
  rw [Perfect, map_place_update hks hgroup, List.nodup_append']
  refine ⟨h, hnodup, fun v hv hv' => ?_⟩
  obtain ⟨k, hk, rfl⟩ := List.mem_map.mp hv'
  exact hfree k hk hv

end

/-! ## Pieces of a list in order -/

section

variable {α κ : Type*} [LinearOrder κ] (key : α → κ)

/-- In a descending list the elements with the greatest key come first. -/
theorem take_countP {l : List α} (h : l.Pairwise (fun a b => key b ≤ key a)) {c : κ}
    (hc : ∀ a ∈ l, key a ≤ c) :
    l.take (l.countP (key · = c)) = l.filter (key · = c) ∧
      l.drop (l.countP (key · = c)) = l.filter (key · ≠ c) := by
  induction l with
  | nil => exact ⟨rfl, rfl⟩
  | cons a l ih =>
    rw [List.pairwise_cons] at h
    by_cases ha : key a = c
    · -- the head has the greatest key, and is the next to be taken
      obtain ⟨htake, hdrop⟩ := ih h.2 fun b hb => hc b (List.mem_cons_of_mem a hb)
      rw [List.countP_cons_of_pos (by simpa using ha), List.take_succ_cons, List.drop_succ_cons,
        List.filter_cons_of_pos (by simpa using ha), List.filter_cons_of_neg (by simpa using ha), htake, hdrop]
      exact ⟨rfl, rfl⟩
    · -- the head is smaller, and so is everything after it
      have hlt : ∀ b ∈ a :: l, key b ≠ c := by
        intro b hb hbc
        rcases List.mem_cons.mp hb with rfl | hb
        · exact ha hbc
        · exact ha (le_antisymm (hc a List.mem_cons_self) (hbc ▸ h.1 b hb))
      have hcount : (a :: l).countP (key · = c) = 0 := List.countP_eq_zero.mpr fun b hb => by
        simpa using hlt b hb
      rw [hcount, List.take_zero, List.drop_zero]
      refine ⟨(List.filter_eq_nil_iff.mpr fun b hb => by simpa using hlt b hb).symm,
        (List.filter_eq_self.mpr fun b hb => by simpa using hlt b hb).symm⟩

end

end Zapdos.Lib.HashDisplace
