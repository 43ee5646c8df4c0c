/-
  Reservations under concurrency — `TempNameCache` objects of many requests, interleaved.

  Each call into the shared `CacheContainer` is one atomic step and everything else a
  `TempNameCache` does is local to its request, so a request's `ReserveName` is TWO steps: the
  `CheckAssoc`, and, if the key was free, the `SetAssoc` that takes it (`inset.insert` and the
  `return true` follow without touching anything shared).  The destructor is one `DelAssoc` step for
  each key it holds.

  THE CRUX.  Between the two steps of one object, the key it is about to take is not yet in the
  cache: a second object that checks in that window takes the key too (`overlap_breaks_exclusion`).
  If no check of a key runs inside such a window (`NoOverlap`), the cache always holds exactly the
  keys of the live objects, each for one owner (`reservation_run`).
-/
import Zapdos.Lib.Runs
import Zapdos.Store.TempNameCache

namespace Zapdos.Store.Reservation

open Zapdos.Lib

/-- Where the request thread that owns an object stands. -/
inductive Phase
  /-- not constructed yet -/
  | absent
  /-- constructed, between two calls -/
  | idle
  /-- `CheckAssoc` said the key is free; `SetAssoc` comes next -/
  | checked (key : Key)
  /-- in the destructor, with these keys still to delete -/
  | destroying (rest : List Key)
  /-- destroyed -/
  | gone
  deriving DecidableEq, Repr

/-- One `TempNameCache` object. -/
structure Obj where
  phase : Phase := .absent
  nc : TempNameCache := {}
  deriving DecidableEq, Repr

/-- The shared cache, the record database `ReserveName` may look into, and all the objects. -/
structure State where
  tmpcache : OrdMap Key Bytes
  maindb : DataDb
  objs : Nat → Obj

/-- A reserving call. -/
inductive Call
  | reserveName (keytype : KeyTypeE) (indata : Bytes) (isnew : Bool)
  | multiTypeLock (locktype : Nat)
  deriving DecidableEq, Repr

/-- One atomic step. -/
inductive Label
  | construct (o : Nat)
  | check (o : Nat) (call : Call)
  | set (o : Nat)
  | beginDestroy (o : Nat)
  | delAssoc (o : Nat)
  | endDestroy (o : Nat)
  /-- some other thread writes the record database -/
  | write (db : DataDb)

/-- The part of a call before `SetAssoc`: `none` when the call returns false (or throws), else the
    key it goes on to take. -/
def checkCall (s : State) : Call → Except Exc (Option Key)
  | .reserveName keytype indata isnew => do
    let xdata ← TempNameCache.makeKey keytype indata
    if isnew && TempNameCache.checkKeyExists s.maindb xdata then pure none
    else if CacheContainer.checkAssoc s.tmpcache xdata then pure none
    else pure (some xdata)
  | .multiTypeLock locktype =>
    let xdata := encodePrimaryKey kNonode locktype
    if CacheContainer.checkAssoc s.tmpcache xdata then pure none else pure (some xdata)

/-- Replace one object. -/
def State.setObj (s : State) (o : Nat) (x : Obj) : State :=
  { s with objs := Function.update s.objs o x }

/-- One step of one thread. -/
def step (s : State) : Label → Option State
  | .construct o =>
    if (s.objs o).phase = .absent then some (s.setObj o { phase := .idle }) else none
  | .check o call =>
    if (s.objs o).phase = .idle then
      match checkCall s call with
      | .ok (some key) => some (s.setObj o { s.objs o with phase := .checked key })
      | _ => some s
    else none
  | .set o =>
    match (s.objs o).phase with
    | .checked key =>
      some ({ s with tmpcache := CacheContainer.setAssoc s.tmpcache key [] false }.setObj o
        { phase := .idle, nc := { inset := (s.objs o).nc.inset.insert key } })
    | _ => none
  | .beginDestroy o =>
    if (s.objs o).phase = .idle then
      some (s.setObj o { s.objs o with phase := .destroying (s.objs o).nc.inset })
    else none
  | .delAssoc o =>
    match (s.objs o).phase with
    | .destroying (key :: rest) =>
      some ({ s with tmpcache := CacheContainer.delAssoc s.tmpcache key }.setObj o
        { s.objs o with phase := .destroying rest })
    | _ => none
  | .endDestroy o =>
    if (s.objs o).phase = .destroying [] then
      some (s.setObj o { s.objs o with phase := .gone })
    else none
  | .write db => some { s with maindb := db }

/-- The server starts with an empty cache and no request. -/
def machine : Machine State Label where
  init s := s.tmpcache = OrdMap.empty ∧ ∀ o, s.objs o = {}
  step := step

/-! ## Holding a key -/

/-- The keys of an object that it has not released yet. -/
def Obj.keys (x : Obj) : List Key :=
  match x.phase with
  | .absent => []
  | .idle => x.nc.inset
  | .checked _ => x.nc.inset
  | .destroying rest => rest
  | .gone => []

/-- `o` holds `key`: a reserving call of `o` returned true for it and `o` has not released it. -/
def Held (s : State) (o : Nat) (key : Key) : Prop := key ∈ (s.objs o).keys

instance (s : State) (o : Nat) (key : Key) : Decidable (Held s o key) :=
  inferInstanceAs (Decidable (key ∈ (s.objs o).keys))

/-- The key a call is about. -/
def Call.key : Call → Except Exc Key
  | .reserveName keytype indata _ => TempNameCache.makeKey keytype indata
  | .multiTypeLock locktype => .ok (encodePrimaryKey kNonode locktype)

/-- No object starts its check of a key while another one is between its own check and its
    `SetAssoc` on that key. -/
def NoOverlap (s : State) : Label → Prop
  | .check o call => ∀ o' key, o' ≠ o → call.key = .ok key → (s.objs o').phase ≠ .checked key
  | _ => True

/-! ## What one step can do -/

theorem checkCall_ok_some {s : State} {call : Call} {key : Key}
    (h : checkCall s call = .ok (some key)) :
    call.key = .ok key ∧ CacheContainer.checkAssoc s.tmpcache key = false := by
  cases call with
  | reserveName kt nm isnew =>
    simp only [checkCall, Call.key] at h ⊢
    cases hk : TempNameCache.makeKey kt nm with
    | error e => simp [hk, bind, Except.bind] at h
    | ok x =>
      simp only [hk, bind, Except.bind, pure, Except.pure] at h
      by_cases h1 : (isnew && TempNameCache.checkKeyExists s.maindb x) = true
      · rw [if_pos h1] at h
        cases h
      · rw [if_neg h1] at h
        by_cases h2 : CacheContainer.checkAssoc s.tmpcache x = true
        · rw [if_pos h2] at h
          cases h
        · rw [if_neg h2] at h
          cases h
          exact ⟨rfl, by simpa using h2⟩
  | multiTypeLock n =>
    simp only [checkCall, Call.key] at h ⊢
    by_cases h2 : CacheContainer.checkAssoc s.tmpcache (encodePrimaryKey kNonode n) = true
    · rw [if_pos h2] at h
      cases h
    · rw [if_neg h2] at h
      cases h
      exact ⟨rfl, by simpa using h2⟩

/-- **Everything a step can do.** -/
theorem step_cases {s s' : State} {l : Label} (h : step s l = some s') :
    (∃ o, l = .construct o ∧ (s.objs o).phase = .absent ∧ s' = s.setObj o { phase := .idle }) ∨
    (∃ o call key, l = .check o call ∧ (s.objs o).phase = .idle ∧
      checkCall s call = .ok (some key) ∧
      s' = s.setObj o { s.objs o with phase := .checked key }) ∨
    (∃ o call, l = .check o call ∧ (s.objs o).phase = .idle ∧
      (∀ key, checkCall s call ≠ .ok (some key)) ∧ s' = s) ∨
    (∃ o key, l = .set o ∧ (s.objs o).phase = .checked key ∧
      s' = { s with tmpcache := CacheContainer.setAssoc s.tmpcache key [] false }.setObj o
        { phase := .idle, nc := { inset := (s.objs o).nc.inset.insert key } }) ∨
    (∃ o, l = .beginDestroy o ∧ (s.objs o).phase = .idle ∧
      s' = s.setObj o { s.objs o with phase := .destroying (s.objs o).nc.inset }) ∨
    (∃ o key rest, l = .delAssoc o ∧ (s.objs o).phase = .destroying (key :: rest) ∧
      s' = { s with tmpcache := CacheContainer.delAssoc s.tmpcache key }.setObj o
        { s.objs o with phase := .destroying rest }) ∨
    (∃ o, l = .endDestroy o ∧ (s.objs o).phase = .destroying [] ∧
      s' = s.setObj o { s.objs o with phase := .gone }) ∨
    (∃ db, l = .write db ∧ s' = { s with maindb := db }) := by
  cases l with
  | construct o =>
    simp only [step] at h
    split at h
    · rename_i hp
      exact .inl ⟨o, rfl, hp, by simpa using h.symm⟩
    · cases h
  | check o call =>
    simp only [step] at h
    split at h
    · rename_i hp
      split at h
      · rename_i key hc
        exact .inr (.inl ⟨o, call, key, rfl, hp, hc, by simpa using h.symm⟩)
      · rename_i hc
        exact .inr (.inr (.inl ⟨o, call, rfl, hp, fun key he => hc key he, by simpa using h.symm⟩))
    · cases h
  | set o =>
    simp only [step] at h
    split at h
    · rename_i key hp
      exact .inr (.inr (.inr (.inl ⟨o, key, rfl, hp, by simpa using h.symm⟩)))
    · cases h
  | beginDestroy o =>
    simp only [step] at h
    split at h
    · rename_i hp
      exact .inr (.inr (.inr (.inr (.inl ⟨o, rfl, hp, by simpa using h.symm⟩))))
    · cases h
  | delAssoc o =>
    simp only [step] at h
    split at h
    · rename_i key rest hp
      exact .inr (.inr (.inr (.inr (.inr (.inl ⟨o, key, rest, rfl, hp, by simpa using h.symm⟩)))))
    · cases h
  | endDestroy o =>
    simp only [step] at h
    split at h
    · rename_i hp
      exact .inr (.inr (.inr (.inr (.inr (.inr (.inl ⟨o, rfl, hp, by simpa using h.symm⟩))))))
    · cases h
  | write db =>
    exact .inr (.inr (.inr (.inr (.inr (.inr (.inr ⟨db, rfl, by simpa [step] using h.symm⟩))))))

/-! ## The invariant -/

/-- The cache is the union of what the objects hold, every key has one owner, and a key about to be
    taken is free and promised to one object only. -/
structure Inv (s : State) : Prop where
  excl : ∀ o₁ o₂ key, Held s o₁ key → Held s o₂ key → o₁ = o₂
  cached : ∀ key, CacheContainer.checkAssoc s.tmpcache key = true ↔ ∃ o, Held s o key
  free : ∀ o key, (s.objs o).phase = .checked key →
    CacheContainer.checkAssoc s.tmpcache key = false
  promised : ∀ o₁ o₂ key, (s.objs o₁).phase = .checked key → (s.objs o₂).phase = .checked key →
    o₁ = o₂
  nodup : ∀ o, (s.objs o).nc.inset.Nodup
  rest : ∀ o keys, (s.objs o).phase = .destroying keys → keys.Nodup ∧ keys ⊆ (s.objs o).nc.inset
  blank : ∀ o, (s.objs o).phase = .absent → (s.objs o).nc.inset = []

@[simp] theorem setObj_objs (s : State) (o : Nat) (x : Obj) :
    (s.setObj o x).objs = Function.update s.objs o x := rfl

@[simp] theorem setObj_tmpcache (s : State) (o : Nat) (x : Obj) :
    (s.setObj o x).tmpcache = s.tmpcache := rfl

theorem inv_init {s : State} (h : machine.init s) : Inv s := by
  obtain ⟨hc, ho⟩ := h
  have hkeys : ∀ o, (s.objs o).keys = [] := fun o => by rw [ho o]; rfl
  have hno : ∀ o key, ¬ Held s o key := fun o key hk => by simp [Held, hkeys o] at hk
  refine ⟨fun o₁ _ key h₁ _ => absurd h₁ (hno o₁ key), fun key => ?_, ?_, ?_, ?_, ?_, ?_⟩
  · rw [hc]
    constructor
    · intro h
      cases h
    · rintro ⟨o, h⟩
      exact absurd h (hno o key)
  · intro o key hp
    rw [ho o] at hp
    cases hp
  · intro o₁ o₂ key hp
    rw [ho o₁] at hp
    cases hp
  · intro o
    rw [ho o]
    exact List.nodup_nil
  · intro o keys hp
    rw [ho o] at hp
    cases hp
  · intro o _
    rw [ho o]

/-- Replacing an object by one with the same keys and no new promise keeps the invariant. -/
theorem inv_setObj {s : State} (hi : Inv s) {o : Nat} {x : Obj}
    (hkeys : x.keys = (s.objs o).keys)
    (hfree : ∀ key, x.phase = .checked key → CacheContainer.checkAssoc s.tmpcache key = false ∧
      ∀ o', o' ≠ o → (s.objs o').phase ≠ .checked key)
    (hnd : x.nc.inset.Nodup)
    (hrest : ∀ keys, x.phase = .destroying keys → keys.Nodup ∧ keys ⊆ x.nc.inset)
    (hblank : x.phase = .absent → x.nc.inset = []) : Inv (s.setObj o x) := by
  have hheld : ∀ o' key, Held (s.setObj o x) o' key ↔ Held s o' key := by
    intro o' key
    by_cases ho : o' = o
    · subst ho
      simp [Held, hkeys]
    · simp [Held, Function.update_of_ne ho]
  refine ⟨?_, ?_, ?_, ?_, ?_, ?_, ?_⟩
  · intro o₁ o₂ key h₁ h₂
    exact hi.excl o₁ o₂ key ((hheld o₁ key).mp h₁) ((hheld o₂ key).mp h₂)
  · intro key
    rw [setObj_tmpcache, hi.cached key]
    exact exists_congr (fun o' => (hheld o' key).symm)
  · intro o' key hp
    by_cases ho : o' = o
    · subst ho
      exact (hfree key (by simpa using hp)).1
    · exact hi.free o' key (by simpa [Function.update_of_ne ho] using hp)
  · intro o₁ o₂ key h₁ h₂
    by_cases e₁ : o₁ = o
    · by_cases e₂ : o₂ = o
      · rw [e₁, e₂]
      · subst e₁
        exact absurd (by simpa [Function.update_of_ne e₂] using h₂)
          ((hfree key (by simpa using h₁)).2 o₂ e₂)
    · by_cases e₂ : o₂ = o
      · subst e₂
        exact absurd (by simpa [Function.update_of_ne e₁] using h₁)
          ((hfree key (by simpa using h₂)).2 o₁ e₁)
      · exact hi.promised o₁ o₂ key (by simpa [Function.update_of_ne e₁] using h₁)
          (by simpa [Function.update_of_ne e₂] using h₂)
  · intro o'
    by_cases ho : o' = o
    · subst ho
      simpa using hnd
    · simpa [Function.update_of_ne ho] using hi.nodup o'
  · intro o' keys hp
    by_cases ho : o' = o
    · subst ho
      simpa using hrest keys (by simpa using hp)
    · simpa [Function.update_of_ne ho] using
        hi.rest o' keys (by simpa [Function.update_of_ne ho] using hp)
  · intro o' hp
    by_cases ho : o' = o
    · subst ho
      simpa using hblank (by simpa using hp)
    · simpa [Function.update_of_ne ho] using
        hi.blank o' (by simpa [Function.update_of_ne ho] using hp)

/-- Taking a free key that is promised to `o` keeps the invariant. -/
theorem inv_set {s : State} (hi : Inv s) {o : Nat} {key : Key}
    (hp : (s.objs o).phase = .checked key) :
    Inv ({ s with tmpcache := CacheContainer.setAssoc s.tmpcache key [] false }.setObj o
      { phase := .idle, nc := { inset := (s.objs o).nc.inset.insert key } }) := by
  set s' := { s with tmpcache := CacheContainer.setAssoc s.tmpcache key [] false }.setObj o
      { phase := .idle, nc := { inset := (s.objs o).nc.inset.insert key } } with hs'
  have hobj : s'.objs o = { phase := .idle, nc := { inset := (s.objs o).nc.inset.insert key } } := by
    simp [hs']
  have hother : ∀ o', o' ≠ o → s'.objs o' = s.objs o' := fun o' ho => by
    simp [hs', Function.update_of_ne ho]
  have hcache : ∀ key', CacheContainer.checkAssoc s'.tmpcache key' =
      (decide (key' = key) || CacheContainer.checkAssoc s.tmpcache key') := fun key' => by
    simp only [hs', setObj_tmpcache, CacheContainer.checkAssoc_setAssoc]
  have hnone : ∀ o', ¬ Held s o' key := fun o' hh => by
    have := (hi.cached key).mpr ⟨o', hh⟩
    rw [hi.free o key hp] at this
    cases this
  have hheld : ∀ o' key', Held s' o' key' ↔ Held s o' key' ∨ (o' = o ∧ key' = key) := by
    intro o' key'
    by_cases ho : o' = o
    · subst ho
      have hk : (s.objs o').keys = (s.objs o').nc.inset := by simp [Obj.keys, hp]
      simp [Held, hobj, Obj.keys, hp, or_comm]
    · simp [Held, hother o' ho, ho]
  refine ⟨?_, ?_, ?_, ?_, ?_, ?_, ?_⟩
  · intro o₁ o₂ key' h₁ h₂
    rcases (hheld o₁ key').mp h₁ with h₁ | ⟨e₁, k₁⟩
    · rcases (hheld o₂ key').mp h₂ with h₂ | ⟨_, k₂⟩
      · exact hi.excl o₁ o₂ key' h₁ h₂
      · exact absurd (k₂ ▸ h₁) (hnone o₁)
    · rcases (hheld o₂ key').mp h₂ with h₂ | ⟨e₂, _⟩
      · exact absurd (k₁ ▸ h₂) (hnone o₂)
      · rw [e₁, e₂]
  · intro key'
    rw [hcache, Bool.or_eq_true, decide_eq_true_iff, hi.cached]
    constructor
    · rintro (hk | ⟨o', ho'⟩)
      · exact ⟨o, (hheld o key').mpr (Or.inr ⟨rfl, hk⟩)⟩
      · exact ⟨o', (hheld o' key').mpr (Or.inl ho')⟩
    · rintro ⟨o', ho'⟩
      rcases (hheld o' key').mp ho' with h | ⟨_, hk⟩
      · exact Or.inr ⟨o', h⟩
      · exact Or.inl hk
  · intro o' key' hp'
    by_cases ho : o' = o
    · rw [ho, hobj] at hp'
      cases hp'
    · rw [hother o' ho] at hp'
      have hne : key' ≠ key := fun e => ho (hi.promised o' o key (e ▸ hp') hp)
      rw [hcache, hi.free o' key' hp']
      simp [hne]
  · intro o₁ o₂ key' h₁ h₂
    have hne : ∀ o', (s'.objs o').phase = .checked key' → o' ≠ o := by
      intro o' h ho
      rw [ho, hobj] at h
      cases h
    rw [hother o₁ (hne o₁ h₁)] at h₁
    rw [hother o₂ (hne o₂ h₂)] at h₂
    exact hi.promised o₁ o₂ key' h₁ h₂
  · intro o'
    by_cases ho : o' = o
    · rw [ho, hobj]
      exact (hi.nodup o).insert
    · rw [hother o' ho]
      exact hi.nodup o'
  · intro o' keys hp'
    by_cases ho : o' = o
    · rw [ho, hobj] at hp'
      cases hp'
    · rw [hother o' ho] at hp' ⊢
      exact hi.rest o' keys hp'
  · intro o' hp'
    by_cases ho : o' = o
    · rw [ho, hobj] at hp'
      cases hp'
    · rw [hother o' ho] at hp' ⊢
      exact hi.blank o' hp'

/-- Deleting the next key in the destructor keeps the invariant. -/
theorem inv_delAssoc {s : State} (hi : Inv s) {o : Nat} {key : Key} {rest : List Key}
    (hp : (s.objs o).phase = .destroying (key :: rest)) :
    Inv ({ s with tmpcache := CacheContainer.delAssoc s.tmpcache key }.setObj o
      { s.objs o with phase := .destroying rest }) := by
  set s' := { s with tmpcache := CacheContainer.delAssoc s.tmpcache key }.setObj o
      { s.objs o with phase := .destroying rest } with hs'
  have hobj : s'.objs o = { s.objs o with phase := .destroying rest } := by simp [hs']
  have hother : ∀ o', o' ≠ o → s'.objs o' = s.objs o' := fun o' ho => by
    simp [hs', Function.update_of_ne ho]
  have hcache : ∀ key', CacheContainer.checkAssoc s'.tmpcache key' =
      (!decide (key' = key) && CacheContainer.checkAssoc s.tmpcache key') := fun key' => by
    simp only [hs', setObj_tmpcache, CacheContainer.checkAssoc_delAssoc]
  have hnd := (hi.rest o _ hp).1
  have hown : Held s o key := by simp [Held, Obj.keys, hp]
  have hheld : ∀ o' key', Held s' o' key' ↔ Held s o' key' ∧ key' ≠ key := by
    intro o' key'
    by_cases ho : o' = o
    · subst ho
      have hnot : key ∉ rest := (List.nodup_cons.mp hnd).1
      constructor
      · intro h
        have h' : key' ∈ rest := by simpa [Held, hobj, Obj.keys] using h
        exact ⟨by simp [Held, Obj.keys, hp, h'], fun e => hnot (e ▸ h')⟩
      · rintro ⟨h, hne⟩
        have h' : key' ∈ key :: rest := by simpa [Held, Obj.keys, hp] using h
        rcases List.mem_cons.mp h' with h' | h'
        · exact absurd h' hne
        · simpa [Held, hobj, Obj.keys] using h'
    · constructor
      · intro h
        have h' : Held s o' key' := by simpa [Held, hother o' ho] using h
        exact ⟨h', fun e => ho (hi.excl o' o key (e ▸ h') hown)⟩
      · rintro ⟨h, _⟩
        simpa [Held, hother o' ho] using h
  refine ⟨?_, ?_, ?_, ?_, ?_, ?_, ?_⟩
  · intro o₁ o₂ key' h₁ h₂
    exact hi.excl o₁ o₂ key' ((hheld o₁ key').mp h₁).1 ((hheld o₂ key').mp h₂).1
  · intro key'
    rw [hcache, Bool.and_eq_true, hi.cached]
    constructor
    · rintro ⟨hne, o', ho'⟩
      exact ⟨o', (hheld o' key').mpr ⟨ho', by simpa using hne⟩⟩
    · rintro ⟨o', ho'⟩
      obtain ⟨h, hne⟩ := (hheld o' key').mp ho'
      exact ⟨by simpa using hne, o', h⟩
  · intro o' key' hp'
    by_cases ho : o' = o
    · rw [ho, hobj] at hp'
      cases hp'
    · rw [hother o' ho] at hp'
      rw [hcache, hi.free o' key' hp', Bool.and_false]
  · intro o₁ o₂ key' h₁ h₂
    have hne : ∀ o', (s'.objs o').phase = .checked key' → o' ≠ o := by
      intro o' h ho
      rw [ho, hobj] at h
      cases h
    rw [hother o₁ (hne o₁ h₁)] at h₁
    rw [hother o₂ (hne o₂ h₂)] at h₂
    exact hi.promised o₁ o₂ key' h₁ h₂
  · intro o'
    by_cases ho : o' = o
    · rw [ho, hobj]
      exact hi.nodup o
    · rw [hother o' ho]
      exact hi.nodup o'
  · intro o' keys hp'
    by_cases ho : o' = o
    · rw [ho, hobj] at hp' ⊢
      cases hp'
      exact ⟨hnd.of_cons, fun x hx => (hi.rest o _ hp).2 (List.mem_cons_of_mem _ hx)⟩
    · rw [hother o' ho] at hp' ⊢
      exact hi.rest o' keys hp'
  · intro o' hp'
    by_cases ho : o' = o
    · rw [ho, hobj] at hp'
      cases hp'
    · rw [hother o' ho] at hp' ⊢
      exact hi.blank o' hp'

/-- **The step lemma.**  A step that starts no overlapping check keeps the invariant. -/
theorem inv_step {s s' : State} {l : Label} (hi : Inv s) (hok : NoOverlap s l)
    (h : step s l = some s') : Inv s' := by
  rcases step_cases h with ⟨o, rfl, hp, rfl⟩ | ⟨o, call, key, rfl, hp, hc, rfl⟩ |
    ⟨o, call, rfl, hp, hc, rfl⟩ | ⟨o, key, rfl, hp, rfl⟩ | ⟨o, rfl, hp, rfl⟩ |
    ⟨o, key, rest, rfl, hp, rfl⟩ | ⟨o, rfl, hp, rfl⟩ | ⟨db, rfl, rfl⟩
  · refine inv_setObj hi ?_ ?_ List.nodup_nil ?_ ?_
    · simp [Obj.keys, hp]
    · intro key hk
      cases hk
    · intro keys hk
      cases hk
    · intro hk
      cases hk
  · obtain ⟨hkey, hfree⟩ := checkCall_ok_some hc
    refine inv_setObj hi ?_ ?_ (hi.nodup o) ?_ ?_
    · simp [Obj.keys, hp]
    · intro key' hk
      cases hk
      exact ⟨hfree, fun o' ho' => hok o' key ho' hkey⟩
    · intro keys hk
      cases hk
    · intro hk
      cases hk
  · exact hi
  · exact inv_set hi hp
  · refine inv_setObj hi ?_ ?_ (hi.nodup o) ?_ ?_
    · simp [Obj.keys, hp]
    · intro key hk
      cases hk
    · intro keys hk
      cases hk
      exact ⟨hi.nodup o, fun x hx => hx⟩
    · intro hk
      cases hk
  · exact inv_delAssoc hi hp
  · refine inv_setObj hi ?_ ?_ (hi.nodup o) ?_ ?_
    · simp [Obj.keys, hp]
    · intro key hk
      cases hk
    · intro keys hk
      cases hk
    · intro hk
      cases hk
  · exact ⟨hi.excl, hi.cached, hi.free, hi.promised, hi.nodup, hi.rest, hi.blank⟩

theorem inv_reach {s : State} (h : machine.ReachWhere NoOverlap s) : Inv s :=
  h.invariant (fun _ => inv_init) (fun _ _ _ hi hok hs => inv_step hi hok hs)

/-! ## Mutual exclusion -/

/-- What the reservations promise in one state: no key has two holders; a call that returns false
    leaves every held key in the cache and with its holder; each step of a destructor deletes
    exactly one key, which its object had acquired and nobody else holds, and a destroyed object
    has left none of its keys behind. -/
structure Exclusive (s : State) : Prop where
  one_holder : ∀ o₁ o₂ key, Held s o₁ key → Held s o₂ key → o₁ = o₂
  refusal : ∀ o call s', step s (.check o call) = some s' →
    (∀ key, checkCall s call ≠ .ok (some key)) → ∀ o' key, Held s o' key →
      Held s' o' key ∧ CacheContainer.checkAssoc s'.tmpcache key = true
  release : ∀ o s', step s (.delAssoc o) = some s' → ∃ key ∈ (s.objs o).nc.inset,
    Held s o key ∧ ¬ Held s' o key ∧
      (∀ key', CacheContainer.checkAssoc s'.tmpcache key' = true ↔
        key' ≠ key ∧ CacheContainer.checkAssoc s.tmpcache key' = true) ∧
      (∀ o' key', o' ≠ o → (Held s' o' key' ↔ Held s o' key'))
  released : ∀ o, (s.objs o).phase = .gone → ∀ key ∈ (s.objs o).nc.inset,
    CacheContainer.checkAssoc s.tmpcache key = true → ∃ o', o' ≠ o ∧ Held s o' key

theorem exclusive_of_inv {s : State} (hi : Inv s) : Exclusive s := by
  refine ⟨hi.excl, ?_, ?_, ?_⟩
  · intro o call s' h hc o' key hh
    have hs : s' = s := by
      rcases step_cases h with ⟨_, hl, _⟩ | ⟨_, _, key', hl, _, hc', _⟩ | ⟨_, _, _, _, _, hs⟩ |
        ⟨_, _, hl, _⟩ | ⟨_, hl, _⟩ | ⟨_, _, _, hl, _⟩ | ⟨_, hl, _⟩ | ⟨_, hl, _⟩
      · cases hl
      · cases hl
        exact absurd hc' (hc key')
      · exact hs
      all_goals cases hl
    rw [hs]
    exact ⟨hh, (hi.cached key).mpr ⟨o', hh⟩⟩
  · intro o s' h
    have hd : ∃ key rest, (s.objs o).phase = .destroying (key :: rest) := by
      simp only [step] at h
      split at h
      · rename_i key rest hp
        exact ⟨key, rest, hp⟩
      · cases h
    obtain ⟨key, rest, hp⟩ := hd
    have hs : s' = { s with tmpcache := CacheContainer.delAssoc s.tmpcache key }.setObj o
        { s.objs o with phase := .destroying rest } := by
      simpa [step, hp] using h.symm
    obtain ⟨hnd, hsub⟩ := hi.rest o _ hp
    refine ⟨key, hsub List.mem_cons_self, by simp [Held, Obj.keys, hp], ?_, ?_, ?_⟩
    · rw [hs]
      simpa [Held, Obj.keys] using (List.nodup_cons.mp hnd).1
    · intro key'
      rw [hs]
      simp [CacheContainer.checkAssoc_delAssoc]
    · intro o' key' ho
      rw [hs]
      simp [Held, Function.update_of_ne ho]
  · intro o hp key _ hk
    obtain ⟨o', ho'⟩ := (hi.cached key).mp hk
    refine ⟨o', fun e => ?_, ho'⟩
    rw [e] at ho'
    simp [Held, Obj.keys, hp] at ho'

/-- **Reservation mutual exclusion**, in every state of every run in which no object starts its
    check of a key inside another object's window between check and `SetAssoc` on that key. -/
theorem reservation_run {s : State} (h : machine.ReachWhere NoOverlap s) : Exclusive s :=
  exclusive_of_inv (inv_reach h)

/-- The server before its first request. -/
def State.start : State := { tmpcache := OrdMap.empty, maindb := OrdMap.empty, objs := fun _ => {} }

/-- Two requests for the user name `bob`, one after the other. -/
def bobCall : Call := .reserveName kUserdata (str "bob") false

/-- The key both of them reserve. -/
def bobKey : Key := encodeSecondaryKey uUserdataName (str "bob")

/-- One request takes the name, and the next one is refused. -/
theorem reservation_run_bob : ∃ s, machine.exec State.start
    [.construct 0, .check 0 bobCall, .set 0, .construct 1, .check 1 bobCall] = some s ∧
    Held s 0 bobKey ∧ Exclusive s := by
  refine ⟨_, rfl, by decide, reservation_run ?_⟩
  refine .step (l := .check 1 bobCall) (.step (l := .construct 1) (.step (l := .set 0)
    (.step (l := .check 0 bobCall) (.step (l := .construct 0) (.init (s := State.start)
      ⟨rfl, fun _ => rfl⟩) trivial rfl) ?_ rfl) trivial rfl) trivial rfl) ?_ rfl
  · intro o' key ho _
    simp [State.setObj, State.start, Function.update_of_ne ho]
  · intro o' key ho _
    by_cases h0 : o' = 0
    · subst h0
      simp [State.setObj]
    · simp [State.setObj, State.start, Function.update_of_ne ho, Function.update_of_ne h0]

/-- Two requests check the name before either of them takes it: both hold it. -/
theorem overlap_breaks_exclusion :
    ¬ ∀ s, machine.Reach s → ∀ o₁ o₂ key, Held s o₁ key → Held s o₂ key → o₁ = o₂ := by
  intro hall
  have h : ∃ s, machine.exec State.start [.construct 0, .construct 1, .check 0 bobCall,
      .check 1 bobCall, .set 0, .set 1] = some s ∧ Held s 0 bobKey ∧ Held s 1 bobKey :=
    ⟨_, rfl, by decide, by decide⟩
  obtain ⟨s, he, h₀, h₁⟩ := h
  have hr : machine.Reach s := Machine.Reach.of_exec ⟨rfl, fun _ => rfl⟩ he
  exact absurd (hall s hr 0 1 bobKey h₀ h₁) (by decide)

end Zapdos.Store.Reservation
