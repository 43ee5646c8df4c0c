/-
  Merging result lists — a set of identities and an ordered map.

  Results come in one after another.  A result whose identity was seen before is skipped; a new one
  goes into an ordered map under its sort key, where the first entry of a key stays.  Reading the map
  backwards gives the answer, the largest key first.

  THE LAWS THE CLIENTS USE.
    * `mem_answer`         — the answer is what is left after dropping repeated identities and then
                             repeated keys;
    * `answer_nodup`       — no identity is answered twice;
    * `answer_pairwise`    — an earlier identity has the larger key;
    * `answer_complete_iff` — nothing is lost exactly when fresh results never share a key;
    * `take_answer_append` — results with smaller keys do not change the first entries.
-/
import Zapdos.Lib.OrdMap

namespace Zapdos.Lib

variable {α ι κ : Type*}

/-! ## Pairs of a list -/

/-- Of two different elements of a list one stands before the other. -/
theorem rel_or_rel_of_pairwise {r : α → α → Prop} {l : List α} (h : l.Pairwise r) {a b : α}
    (ha : a ∈ l) (hb : b ∈ l) (hne : a ≠ b) : r a b ∨ r b a := by
  have hsymm : Std.Symm (fun x y => r x y ∨ r y x) := ⟨fun _ _ => Or.symm⟩
  exact (h.imp (fun hxy => Or.inl hxy) : l.Pairwise (fun x y => r x y ∨ r y x)).forall ha hb hne

/-! ## Keeping the first of each kind -/

section firsts

variable [DecidableEq ι] (f : α → ι)

/-- The elements of a list whose image under `f` is neither in `seen` nor the image of an earlier
    element. -/
def firsts : List ι → List α → List α
  | _, [] => []
  | seen, a :: l => if f a ∈ seen then firsts seen l else a :: firsts (f a :: seen) l

variable {f}

theorem mem_of_mem_firsts {seen : List ι} {l : List α} {a : α} (h : a ∈ firsts f seen l) :
    a ∈ l := by
  induction l generalizing seen with
  | nil => simp [firsts] at h
  | cons b l ih =>
    rw [firsts] at h
    split_ifs at h with hb
    · exact List.mem_cons_of_mem _ (ih h)
    · rcases List.mem_cons.mp h with rfl | h
      · exact List.mem_cons_self
      · exact List.mem_cons_of_mem _ (ih h)

theorem not_mem_seen_of_mem_firsts {seen : List ι} {l : List α} {a : α}
    (h : a ∈ firsts f seen l) : f a ∉ seen := by
  induction l generalizing seen with
  | nil => simp [firsts] at h
  | cons b l ih =>
    rw [firsts] at h
    split_ifs at h with hb
    · exact ih h
    · rcases List.mem_cons.mp h with rfl | h
      · exact hb
      · exact fun hmem => ih h (List.mem_cons_of_mem _ hmem)

/-- No two kept elements are of one kind. -/
theorem firsts_nodup (seen : List ι) (l : List α) : ((firsts f seen l).map f).Nodup := by
  induction l generalizing seen with
  | nil => simp [firsts]
  | cons b l ih =>
    rw [firsts]
    split_ifs with hb
    · exact ih seen
    · rw [List.map_cons, List.nodup_cons]
      refine ⟨?_, ih _⟩
      intro hmem
      obtain ⟨a, ha, hab⟩ := List.mem_map.mp hmem
      exact not_mem_seen_of_mem_firsts ha (hab ▸ List.mem_cons_self)

/-- Of every kind that was not seen before, one element is kept. -/
theorem exists_mem_firsts {seen : List ι} {l : List α} {a : α} (ha : a ∈ l) (hs : f a ∉ seen) :
    ∃ b ∈ firsts f seen l, f b = f a := by
  induction l generalizing seen with
  | nil => exact absurd ha List.not_mem_nil
  | cons b l ih =>
    rw [firsts]
    split_ifs with hb
    · rcases List.mem_cons.mp ha with rfl | ha
      · exact absurd hb hs
      · exact ih ha hs
    · by_cases hab : f a = f b
      · exact ⟨b, List.mem_cons_self, hab.symm⟩
      · rcases List.mem_cons.mp ha with rfl | ha
        · exact absurd rfl hab
        · have hs' : f a ∉ f b :: seen := by
            intro hmem
            rcases List.mem_cons.mp hmem with h | h
            · exact hab h
            · exact hs h
          obtain ⟨c, hc, hca⟩ := ih ha hs'
          exact ⟨c, List.mem_cons_of_mem _ hc, hca⟩

/-- The second list continues where the first one ends. -/
theorem firsts_append (seen : List ι) (l l' : List α) :
    firsts f seen (l ++ l')
      = firsts f seen l ++ firsts f (((firsts f seen l).map f).reverse ++ seen) l' := by
  induction l generalizing seen with
  | nil => rfl
  | cons b l ih =>
    rw [List.cons_append, firsts, firsts]
    split_ifs with hb
    · exact ih seen
    · rw [ih, List.cons_append, List.map_cons, List.reverse_cons, List.append_assoc,
        List.singleton_append]

/-- A kept element is the only one of its kind among the kept ones. -/
theorem eq_of_mem_firsts {seen : List ι} {l : List α} {a b : α} (ha : a ∈ firsts f seen l)
    (hb : b ∈ firsts f seen l) (h : f a = f b) : a = b :=
  List.inj_on_of_nodup_map (firsts_nodup seen l) ha hb h

end firsts

/-! ## The first entry of a key stays -/

namespace OrdMap

variable {K V : Type*} [LinearOrder K]

/-- `std::map::emplace`: an entry is added unless its key is there. -/
def emplace (m : OrdMap K V) (k : K) (v : V) : OrdMap K V :=
  match m.get k with
  | some _ => m
  | none => m.put k v

theorem emplace_of_isSome {m : OrdMap K V} {k : K} (h : (m.get k).isSome) (v : V) :
    m.emplace k v = m := by
  obtain ⟨w, hw⟩ := Option.isSome_iff_exists.mp h
  unfold emplace
  rw [hw]

theorem emplace_of_none {m : OrdMap K V} {k : K} (h : m.get k = none) (v : V) :
    m.emplace k v = m.put k v := by
  unfold emplace
  rw [h]

end OrdMap

/-! ## Merging -/

section merge

variable [DecidableEq ι] [LinearOrder κ] (ident : α → ι) (key : α → κ)

/-- The map after a list of results. -/
def emplaceAll (m : OrdMap κ ι) (l : List α) : OrdMap κ ι :=
  l.foldl (fun m a => m.emplace (key a) (ident a)) m

/-- The results that end up in the map: the first of each identity, and of these the first of each
    key. -/
def kept (l : List α) : List α := firsts key [] (firsts ident [] l)

/-- The answer: the identities in the map, the largest key first. -/
def answer (l : List α) : List ι :=
  (emplaceAll ident key OrdMap.empty (firsts ident [] l)).rows.reverse.map Prod.snd

variable {ident : α → ι} {key : α → κ}

omit [DecidableEq ι] in
/-- What the map holds: what it held before, and the first new result of every other key. -/
theorem get_emplaceAll {m : OrdMap κ ι} {seen : List κ} (hseen : ∀ k, k ∈ seen ↔ (m.get k).isSome)
    (l : List α) (k : κ) (i : ι) :
    (emplaceAll ident key m l).get k = some i ↔
      m.get k = some i ∨ ∃ a ∈ firsts key seen l, key a = k ∧ ident a = i := by
  induction l generalizing m seen with
  | nil => simp [emplaceAll, firsts]
  | cons b l ih =>
    show (emplaceAll ident key (m.emplace (key b) (ident b)) l).get k = some i ↔ _
    rw [firsts]
    by_cases hb : key b ∈ seen
    · rw [if_pos hb, OrdMap.emplace_of_isSome ((hseen _).mp hb)]
      exact ih hseen
    · have hnone : m.get (key b) = none := by
        rw [hseen, Option.not_isSome_iff_eq_none] at hb
        exact hb
      have hseen' : ∀ k, k ∈ key b :: seen ↔ ((m.put (key b) (ident b)).get k).isSome := by
        intro k
        rw [List.mem_cons, OrdMap.get_put, hseen k]
        split_ifs with hk
        · simp [hk]
        · simp [hk]
      rw [if_neg hb, OrdMap.emplace_of_none hnone, ih hseen', OrdMap.get_put]
      constructor
      · rintro (hget | ⟨a, ha, hak, hai⟩)
        · split_ifs at hget with hk
          · exact Or.inr ⟨b, List.mem_cons_self, hk.symm, Option.some.inj hget⟩
          · exact Or.inl hget
        · exact Or.inr ⟨a, List.mem_cons_of_mem _ ha, hak, hai⟩
      · rintro (hget | ⟨a, ha, hak, hai⟩)
        · have hne : k ≠ key b := by
            rintro rfl
            rw [hnone] at hget
            exact absurd hget (by simp)
          rw [if_neg hne]
          exact Or.inl hget
        · rcases List.mem_cons.mp ha with rfl | ha
          · rw [if_pos hak.symm, hai]
            exact Or.inl rfl
          · exact Or.inr ⟨a, ha, hak, hai⟩

theorem mem_rows {l : List α} {r : κ × ι} :
    r ∈ (emplaceAll ident key OrdMap.empty (firsts ident [] l)).rows ↔
      ∃ a ∈ kept ident key l, key a = r.1 ∧ ident a = r.2 := by
  obtain ⟨k, i⟩ := r
  have hseen : ∀ k, k ∈ ([] : List κ) ↔ ((OrdMap.empty : OrdMap κ ι).get k).isSome := by simp
  rw [← OrdMap.get_eq_some_iff, get_emplaceAll hseen]
  simp [kept]

theorem mem_of_mem_kept {l : List α} {a : α} (h : a ∈ kept ident key l) : a ∈ firsts ident [] l :=
  mem_of_mem_firsts h

/-- A kept result is the only one of its identity among the kept ones. -/
theorem eq_of_mem_kept {l : List α} {a b : α} (ha : a ∈ kept ident key l)
    (hb : b ∈ kept ident key l) (h : ident a = ident b) : a = b :=
  eq_of_mem_firsts (mem_of_mem_kept ha) (mem_of_mem_kept hb) h

/-- A kept result is the only one of its key among the kept ones. -/
theorem eq_of_mem_kept_of_key {l : List α} {a b : α} (ha : a ∈ kept ident key l)
    (hb : b ∈ kept ident key l) (h : key a = key b) : a = b :=
  eq_of_mem_firsts ha hb h

/-- The identities of the answer are those of the kept results. -/
theorem mem_answer {l : List α} {i : ι} :
    i ∈ answer ident key l ↔ ∃ a ∈ kept ident key l, ident a = i := by
  unfold answer
  rw [List.mem_map]
  constructor
  · rintro ⟨r, hr, rfl⟩
    obtain ⟨a, ha, -, hi⟩ := mem_rows.mp (List.mem_reverse.mp hr)
    exact ⟨a, ha, hi⟩
  · rintro ⟨a, ha, rfl⟩
    exact ⟨(key a, ident a), List.mem_reverse.mpr (mem_rows.mpr ⟨a, ha, rfl, rfl⟩), rfl⟩

variable (ident key)

/-- **Larger keys first.** -/
theorem answer_pairwise (l : List α) :
    (answer ident key l).Pairwise (fun i j => ∀ a ∈ kept ident key l, ∀ b ∈ kept ident key l,
      ident a = i → ident b = j → key b < key a) := by
  unfold answer
  rw [List.pairwise_map, List.pairwise_reverse]
  refine ((emplaceAll ident key OrdMap.empty (firsts ident [] l)).sorted).imp_of_mem ?_
  intro r s hr hs hlt a ha b hb hai hbi
  -- the entries of a row come from one kept result, which its identity determines
  obtain ⟨b', hb', hbk, hbi'⟩ := mem_rows.mp hr
  obtain ⟨a', ha', hak, hai'⟩ := mem_rows.mp hs
  have hbb : b = b' := eq_of_mem_kept hb hb' (hbi.trans hbi'.symm)
  have haa : a = a' := eq_of_mem_kept ha ha' (hai.trans hai'.symm)
  rw [hbb, haa, hbk, hak]
  exact hlt

/-- **No identity twice.** -/
theorem answer_nodup (l : List α) : (answer ident key l).Nodup := by
  refine (answer_pairwise ident key l).imp_of_mem ?_
  intro i j hi _ hlt heq
  obtain ⟨a, ha, hai⟩ := mem_answer.mp hi
  exact absurd (hlt a ha a ha hai (hai.trans heq)) (lt_irrefl _)

/-- **Nothing is lost** exactly when fresh results never share a key. -/
theorem answer_complete_iff (l : List α) :
    (∀ a ∈ l, ident a ∈ answer ident key l) ↔
      ∀ a ∈ firsts ident [] l, ∀ b ∈ firsts ident [] l, key a = key b → a = b := by
  constructor
  · intro hall
    -- a fresh result is found in the answer as itself
    have hkept : ∀ a ∈ firsts ident [] l, a ∈ kept ident key l := by
      intro a ha
      obtain ⟨b, hb, hba⟩ := mem_answer.mp (hall a (mem_of_mem_firsts ha))
      rw [← eq_of_mem_firsts (mem_of_mem_kept hb) ha hba]
      exact hb
    intro a ha b hb hab
    exact eq_of_mem_firsts (hkept a ha) (hkept b hb) hab
  · intro hinj a ha
    obtain ⟨b, hb, hba⟩ := exists_mem_firsts ha (f := ident) List.not_mem_nil
    obtain ⟨c, hc, hcb⟩ := exists_mem_firsts hb (f := key) List.not_mem_nil
    rw [mem_answer]
    exact ⟨c, hc, by rw [hinj c (mem_of_mem_firsts hc) b hb hcb, hba]⟩

/-! ## The first entries of an answer -/

variable {ident key}

omit [DecidableEq ι] in
/-- Entries with smaller keys go before the rows that are there. -/
theorem rows_emplaceAll {m : OrdMap κ ι} {pre rows : List (κ × ι)} (hm : m.rows = pre ++ rows)
    {l : List α} (hl : ∀ a ∈ l, ∀ r ∈ rows, key a < r.1) :
    ∃ pre', (emplaceAll ident key m l).rows = pre' ++ rows := by
  induction l generalizing m pre with
  | nil => exact ⟨pre, hm⟩
  | cons a l ih =>
    have hl' : ∀ b ∈ l, ∀ r ∈ rows, key b < r.1 := fun b hb => hl b (List.mem_cons_of_mem _ hb)
    cases hget : m.get (key a) with
    | some i =>
      have hput : m.emplace (key a) (ident a) = m := OrdMap.emplace_of_isSome (by simp [hget]) _
      exact ih (m := m.emplace (key a) (ident a)) (hput ▸ hm) hl'
    | none =>
      have hput : (m.emplace (key a) (ident a)).rows
          = OrdMap.insertRow (key a) (ident a) pre ++ rows := by
        rw [OrdMap.emplace_of_none hget]
        show OrdMap.insertRow (key a) (ident a) m.rows = _
        rw [hm, OrdMap.insertRow_append (hl a List.mem_cons_self)]
      exact ih hput hl'

/-- As many identities are answered as fresh results come in, when these have different keys. -/
theorem length_answer {l : List α}
    (hinj : ∀ a ∈ firsts ident [] l, ∀ b ∈ firsts ident [] l, key a = key b → a = b) :
    (answer ident key l).length = (firsts ident [] l).length := by
  have hperm : (answer ident key l).Perm ((firsts ident [] l).map ident) := by
    rw [List.perm_ext_iff_of_nodup (answer_nodup ident key l) (firsts_nodup [] l)]
    intro i
    constructor
    · intro hi
      obtain ⟨a, ha, rfl⟩ := mem_answer.mp hi
      exact List.mem_map_of_mem (mem_of_mem_kept ha)
    · intro hi
      obtain ⟨a, ha, rfl⟩ := List.mem_map.mp hi
      exact (answer_complete_iff ident key l).mpr hinj a (mem_of_mem_firsts ha)
  rw [hperm.length_eq, List.length_map]

/-- Results with smaller keys are answered after the ones that came before. -/
theorem answer_append {l l' : List α} (hlt : ∀ a ∈ l, ∀ b ∈ l', key b < key a) :
    ∃ rest, answer ident key (l ++ l') = answer ident key l ++ rest := by
  have hrows : ∀ b ∈ firsts ident (((firsts ident [] l).map ident).reverse ++ []) l',
      ∀ r ∈ (emplaceAll ident key OrdMap.empty (firsts ident [] l)).rows, key b < r.1 := by
    intro b hb r hr
    obtain ⟨a, ha, hak, -⟩ := mem_rows.mp hr
    rw [← hak]
    exact hlt a (mem_of_mem_firsts (mem_of_mem_kept ha)) b (mem_of_mem_firsts hb)
  obtain ⟨pre, hpre⟩ := rows_emplaceAll
    (List.nil_append (emplaceAll ident key OrdMap.empty (firsts ident [] l)).rows).symm hrows
  refine ⟨pre.reverse.map Prod.snd, ?_⟩
  unfold answer
  rw [firsts_append, emplaceAll, List.foldl_append, ← emplaceAll, ← emplaceAll, hpre,
    List.reverse_append, List.map_append]

/-- **The first `n` entries** do not change when results with smaller keys follow `n` fresh ones. -/
theorem take_answer_append {l l' : List α} {n : ℕ} (hlt : ∀ a ∈ l, ∀ b ∈ l', key b < key a)
    (hinj : ∀ a ∈ firsts ident [] l, ∀ b ∈ firsts ident [] l, key a = key b → a = b)
    (hn : n ≤ (firsts ident [] l).length) :
    (answer ident key (l ++ l')).take n = (answer ident key l).take n := by
  obtain ⟨rest, hrest⟩ := @answer_append α ι κ _ _ ident key _ _ hlt
  rw [hrest, List.take_append_of_le_length (by rw [length_answer hinj]; exact hn)]

end merge

end Zapdos.Lib
