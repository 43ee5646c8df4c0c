/-
  Tables — lists of keys and values in which every key stands once.

  THE LAWS THE CLIENTS USE.
    * `lookup_eq_none_iff_keys`, `mem_iff_lookup` — what is found, in terms of the entries;
    * `lookup_perm`                               — the order of the entries does not matter.
-/
import Mathlib.Data.List.Nodup

namespace Zapdos.Lib

variable {K V : Type*} [BEq K] [LawfulBEq K] {l l' : List (K × V)} {k : K} {v : V}

/-- A key is not found exactly when no entry has it. -/
theorem lookup_eq_none_iff_keys : l.lookup k = none ↔ k ∉ l.map Prod.fst := by
  rw [List.lookup_eq_none_iff, List.mem_map]
  constructor
  · rintro h ⟨p, hp, rfl⟩
    simpa using h p hp
  · intro h p hp
    refine bne_iff_ne.mpr ?_
    rintro rfl
    exact h ⟨p, hp, rfl⟩

/-- **The entry of a key** is the one that is found. -/
theorem mem_iff_lookup (h : (l.map Prod.fst).Nodup) : (k, v) ∈ l ↔ l.lookup k = some v := by
  induction l with
  | nil => simp
  | cons p l ih =>
    rw [List.map_cons, List.nodup_cons] at h
    obtain ⟨a, b⟩ := p
    by_cases hk : k = a
    · subst hk
      rw [List.lookup_cons_self, List.mem_cons]
      constructor
      · rintro (heq | hmem)
        · rw [(Prod.mk.inj heq).2]
        · exact absurd (List.mem_map_of_mem (f := Prod.fst) hmem) h.1
      · intro heq
        cases heq
        exact Or.inl rfl
    · rw [List.lookup_cons, beq_false_of_ne hk, List.mem_cons, ← ih h.2]
      exact or_iff_right fun heq => hk (Prod.mk.inj heq).1

/-- Tables with the same entries find the same, whatever the order. -/
theorem lookup_perm (hp : l'.Perm l) (h : (l.map Prod.fst).Nodup) (k : K) : l'.lookup k = l.lookup k := by
  have h' : (l'.map Prod.fst).Nodup := (hp.map Prod.fst).nodup_iff.mpr h
  refine Option.ext fun v => ?_
  rw [← mem_iff_lookup h', ← mem_iff_lookup h, hp.mem_iff]

end Zapdos.Lib
