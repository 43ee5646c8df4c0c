/-
  Looking up options — whether `Find` ends, and what `Update` changes for it.

  THE CRUX.  A section without a parent inherits from the empty name.  As long as no header declares
  a section of that name, the walk of `Find` goes to ever earlier sections and ends there; once one
  does, every declared section has a declared parent and only a find ends the walk
  (`find_terminates_iff`).
-/
import Mathlib.Data.List.TakeWhile
import Zapdos.Lib.CString
import Zapdos.Utils.CfgFileOptions

namespace Zapdos.Utils

open Zapdos.Lib Zapdos.Store

/-! ## What reading a line does -/

/-- A line that declares a section. -/
def IsHeader (line : Bytes) : Prop := (trim line).head? = some 91

instance (line : Bytes) : Decidable (IsHeader line) :=
  inferInstanceAs (Decidable ((trim line).head? = some 91))

theorem mem_dropWhile {p : UInt8 → Bool} {x : Bytes} {c : UInt8} (h : c ∈ x.dropWhile p) : c ∈ x :=
  (List.dropWhile_sublist p).subset h

theorem mem_trim {x : Bytes} {c : UInt8} (h : c ∈ trim x) : c ∈ x := by
  have h1 := mem_dropWhile (List.mem_reverse.mp h)
  exact mem_dropWhile (List.mem_reverse.mp h1)

/-- A parent has no colon: it stands after the last one. -/
theorem inherits_noColon {line parent : Bytes} (h : inherits line = some parent) : 58 ∉ parent := by
  rw [inherits] at h
  split at h
  · cases h
    intro hmem
    have hafter := List.mem_reverse.mp (mem_trim hmem)
    have hne := List.mem_takeWhile_imp hafter
    simp at hne
  · cases h

/-- **One line** is skipped, declares a section that is new, under a parent that is declared or
    empty, or is an update of the section being read. -/
theorem parseLine_cases {p p' : Parsing} {line : Bytes} (h : parseLine p line = .ok p') :
    (¬ IsHeader line ∧ p' = p) ∨
    (IsHeader line ∧ p.cfg.inheritMap.get (sectionName (trim line)) = none ∧
      ∃ parent, 58 ∉ parent ∧ (parent = [] ∨ (p.cfg.inheritMap.get parent).isSome = true) ∧
        p' = ⟨{ p.cfg with
          inheritMap := p.cfg.inheritMap.put (sectionName (trim line)) parent },
          sectionName (trim line)⟩) ∨
    (¬ IsHeader line ∧ ∃ name value, p' = { p with cfg := p.cfg.update p.inSection name value }) := by
  rw [parseLine] at h
  cases hline : trim line with
  | nil =>
    rw [hline] at h
    cases h
    exact Or.inl ⟨by rw [IsHeader, hline]; nofun, rfl⟩
  | cons c cs =>
    have hhead : IsHeader line ↔ c = 91 := by
      rw [IsHeader, hline, List.head?_cons, Option.some.injEq]
    rw [hline] at h
    simp only at h
    by_cases hskip : c = 35 ∨ c = 59
    · rw [if_pos hskip] at h
      cases h
      refine Or.inl ⟨fun hh => ?_, rfl⟩
      rw [hhead.mp hh] at hskip
      exact absurd hskip (by decide)
    · rw [if_neg hskip] at h
      by_cases hsec : c = 91
      · rw [if_pos hsec, parseHeader] at h
        split at h
        · cases h
        · split at h
          · cases h
          · rename_i hnew
            have hnone := not_not.mp hnew
            refine Or.inr (Or.inl ⟨hhead.mpr hsec, hnone, ?_⟩)
            split at h
            · cases h
              rw [OrdMap.emplace_of_none hnone]
              exact ⟨[], by simp, Or.inl rfl, rfl⟩
            · rename_i parent hparent
              split at h
              · cases h
              · rename_i hdecl
                cases h
                rw [OrdMap.emplace_of_none hnone]
                exact ⟨parent, inherits_noColon hparent,
                  Or.inr (Option.isSome_iff_ne_none.mpr hdecl), rfl⟩
      · rw [if_neg hsec, parseOption] at h
        split at h
        · cases h
        · cases h
          exact Or.inr (Or.inr ⟨fun hh => hsec (hhead.mp hh), _, _, rfl⟩)

/-! ## The sections of a text -/

/-- Links lead to earlier sections or to the empty name, which may not be declared; and parents have
    no colon. -/
structure Declared (cfg : CfgFileOptions) : Prop where
  order : ∃ rank : Bytes → ℕ, ∀ s p, cfg.inheritMap.get s = some p →
    p = [] ∨ ((cfg.inheritMap.get p).isSome = true ∧ rank p < rank s)
  parents : ∀ s p, cfg.inheritMap.get s = some p → 58 ∉ p

theorem Declared.insert {cfg : CfgFileOptions} (h : Declared cfg) {s p : Bytes}
    (hnew : cfg.inheritMap.get s = none) (hcolon : 58 ∉ p)
    (hp : p = [] ∨ (cfg.inheritMap.get p).isSome = true) :
    Declared { cfg with inheritMap := cfg.inheritMap.put s p } := by
  obtain ⟨rank, horder⟩ := h.order
  have hkeep : ∀ q, (cfg.inheritMap.get q).isSome = true →
      q ≠ s ∧ ((cfg.inheritMap.put s p).get q).isSome = true := by
    intro q hq
    have hne : q ≠ s := fun he => by
      rw [he, hnew] at hq
      cases hq
    exact ⟨hne, by rw [OrdMap.get_put_ne _ hne]; exact hq⟩
  constructor
  · -- the new section goes above its parent; nothing declared so far inherits from it
    refine ⟨Function.update rank s (rank p + 1), fun s' p' hget => ?_⟩
    by_cases hs : s' = s
    · subst hs
      rw [OrdMap.get_put_self] at hget
      obtain rfl := Option.some.inj hget
      refine hp.imp_right fun hdecl => ?_
      obtain ⟨hne, hdecl'⟩ := hkeep p hdecl
      refine ⟨hdecl', ?_⟩
      rw [Function.update_of_ne hne, Function.update_self]
      exact Nat.lt_succ_self _
    · rw [OrdMap.get_put_ne _ hs] at hget
      refine (horder s' p' hget).imp_right fun ⟨hdecl, hlt⟩ => ?_
      obtain ⟨hne, hdecl'⟩ := hkeep p' hdecl
      refine ⟨hdecl', ?_⟩
      rw [Function.update_of_ne hne, Function.update_of_ne hs]
      exact hlt
  · intro s' p' hget
    by_cases hs : s' = s
    · subst hs
      rw [OrdMap.get_put_self] at hget
      obtain rfl := Option.some.inj hget
      exact hcolon
    · rw [OrdMap.get_put_ne _ hs] at hget
      exact h.parents s' p' hget

/-- A header of these lines has this section name. -/
def DeclaredIn (lines : List Bytes) (s : Bytes) : Prop :=
  ∃ line ∈ lines, IsHeader line ∧ sectionName (trim line) = s

/-- **The run over the lines**: links stay in order, and the sections are those of the headers. -/
theorem parseLines_spec {lines : List Bytes} {p p' : Parsing} (h : parseLines p lines = .ok p')
    (hd : Declared p.cfg) :
    Declared p'.cfg ∧ ∀ s, (p'.cfg.inheritMap.get s).isSome = true ↔
      (p.cfg.inheritMap.get s).isSome = true ∨ DeclaredIn lines s := by
  induction lines generalizing p with
  | nil =>
    cases h
    exact ⟨hd, fun s => by simp [DeclaredIn]⟩
  | cons line lines ih =>
    cases hline : parseLine p line with
    | error e =>
      rw [parseLines, hline] at h
      cases h
    | ok p₁ =>
      rw [parseLines, hline] at h
      have hrest : parseLines p₁ lines = .ok p' := h
      have hsplit : ∀ s, DeclaredIn (line :: lines) s ↔
          (IsHeader line ∧ sectionName (trim line) = s) ∨ DeclaredIn lines s := by
        intro s
        simp [DeclaredIn]
      rcases parseLine_cases hline with ⟨hno, rfl⟩ | ⟨hhead, hnew, parent, hcolon, hp, rfl⟩ |
        ⟨hno, name, value, rfl⟩
      · obtain ⟨hd', hsome⟩ := ih hrest hd
        refine ⟨hd', fun s => ?_⟩
        rw [hsome s, hsplit s]
        simp [hno]
      · obtain ⟨hd', hsome⟩ := ih hrest (hd.insert hnew hcolon hp)
        refine ⟨hd', fun s => ?_⟩
        rw [hsome s, hsplit s, OrdMap.get_put]
        by_cases hs : s = sectionName (trim line)
        · simp [hs, hhead]
        · simp [hs, Ne.symm hs]
      · obtain ⟨hd', hsome⟩ := ih hrest ⟨hd.order, hd.parents⟩
        refine ⟨hd', fun s => ?_⟩
        rw [hsome s, hsplit s]
        simp [hno, CfgFileOptions.update]

/-- A header of the text has this section name. -/
def Declares (text s : Bytes) : Prop := DeclaredIn (getlines text []) s

instance (text s : Bytes) : Decidable (Declares text s) :=
  inferInstanceAs (Decidable (∃ line ∈ getlines text [], IsHeader line ∧ sectionName (trim line) = s))

theorem parse_spec {text : Bytes} {cfg : CfgFileOptions} (h : parse text = .ok cfg) :
    Declared cfg ∧ ∀ s, (cfg.inheritMap.get s).isSome = true ↔ Declares text s := by
  rw [parse] at h
  cases hlines : parseLines {} (getlines text []) with
  | error e =>
    rw [hlines] at h
    cases h
  | ok p =>
    rw [hlines] at h
    cases h
    have hempty : Declared ({} : Parsing).cfg := ⟨⟨fun _ => 0, nofun⟩, nofun⟩
    obtain ⟨hd, hsome⟩ := parseLines_spec hlines hempty
    refine ⟨hd, fun s => (hsome s).trans ?_⟩
    simp [Declares]

/-! ## Whether `Find` ends -/

/-- `Find` ends, whatever it comes to. -/
def Terminates (cfg : CfgFileOptions) (section_ name : Bytes) : Prop :=
  ∃ fuel, (cfg.find fuel section_ name).isSome = true

/-- The sections that a section inherits from, itself included. -/
def InheritsFrom (cfg : CfgFileOptions) : Bytes → Bytes → Prop :=
  Relation.ReflTransGen (Link cfg.inheritMap.get)

theorem findLoop_eq_chase (cfg : CfgFileOptions) (name : Bytes) (fuel : ℕ) (section_ : Bytes) :
    cfg.findLoop name fuel section_ =
      chase cfg.inheritMap.get (fun p => cfg.value p name) fuel section_ := by
  induction fuel generalizing section_ with
  | zero => rfl
  | succ fuel ih =>
    rw [CfgFileOptions.findLoop, chase]
    cases cfg.inheritMap.get section_ with
    | none => rfl
    | some parent =>
      simp only
      cases cfg.value parent name with
      | some v => rfl
      | none => exact ih parent

theorem find_of_value {cfg : CfgFileOptions} {section_ name v : Bytes}
    (h : cfg.value section_ name = some v) (fuel : ℕ) :
    cfg.find fuel section_ name = some (some v) := by
  rw [CfgFileOptions.find, h]

theorem find_of_none {cfg : CfgFileOptions} {section_ name : Bytes}
    (h : cfg.value section_ name = none) (fuel : ℕ) :
    cfg.find fuel section_ name =
      chase cfg.inheritMap.get (fun p => cfg.value p name) fuel section_ := by
  rw [CfgFileOptions.find, h, ← findLoop_eq_chase]

/-- `Find` ends when the option is set on the way, or the way has an end. -/
theorem terminates_iff {cfg : CfgFileOptions} {section_ name : Bytes} :
    Terminates cfg section_ name ↔
      (∃ s, InheritsFrom cfg section_ s ∧ (cfg.value s name).isSome = true) ∨
        ∃ e, InheritsFrom cfg section_ e ∧ cfg.inheritMap.get e = none := by
  cases hv : cfg.value section_ name with
  | some v =>
    have hset : (cfg.value section_ name).isSome = true := by
      rw [hv]
      rfl
    have hfind : (cfg.find 0 section_ name).isSome = true := by
      rw [find_of_value hv]
      rfl
    exact ⟨fun _ => Or.inl ⟨section_, .refl, hset⟩, fun _ => ⟨0, hfind⟩⟩
  | none =>
    simp only [Terminates, find_of_none hv]
    rw [chase_ends_iff]
    refine or_congr_left (exists_congr fun s => and_congr_left fun hset => ?_)
    rw [InheritsFrom, Relation.reflTransGen_iff_eq_or_transGen]
    refine ⟨Or.inr, fun h => h.resolve_left fun he => ?_⟩
    rw [he, hv] at hset
    cases hset

/-- Without a section of an empty name every way has an end. -/
theorem exists_end {text : Bytes} {cfg : CfgFileOptions} (h : parse text = .ok cfg)
    (hblank : ¬ Declares text []) (section_ : Bytes) :
    ∃ e, InheritsFrom cfg section_ e ∧ cfg.inheritMap.get e = none := by
  obtain ⟨hd, hsome⟩ := parse_spec h
  obtain ⟨rank, horder⟩ := hd.order
  refine ends_of_rank rank (fun s p hp => ?_) section_
  refine (horder s p hp).imp (fun he => ?_) And.right
  rw [he, ← Option.not_isSome_iff_eq_none, hsome []]
  exact hblank

/-- With one, no way from a declared section has. -/
theorem no_end {text : Bytes} {cfg : CfgFileOptions} (h : parse text = .ok cfg)
    (hblank : Declares text []) {section_ e : Bytes} (hsec : Declares text section_)
    (hlinks : InheritsFrom cfg section_ e) : cfg.inheritMap.get e ≠ none := by
  obtain ⟨hd, hsome⟩ := parse_spec h
  obtain ⟨rank, horder⟩ := hd.order
  -- a declared section has a declared parent
  have hclosed : ∀ s, (cfg.inheritMap.get s).isSome = true →
      ∃ p, cfg.inheritMap.get s = some p ∧ (cfg.inheritMap.get p).isSome = true := by
    intro s hs
    obtain ⟨p, hp⟩ := Option.isSome_iff_exists.mp hs
    rcases horder s p hp with rfl | ⟨hdecl, -⟩
    · exact ⟨[], hp, (hsome []).mpr hblank⟩
    · exact ⟨p, hp, hdecl⟩
  exact no_end_of_closed hclosed ((hsome section_).mpr hsec) hlinks

/-- **When `Find` ends**: no header declares a section with an empty name; or the section asked for is
    not declared; or the option is set in it or in a section it inherits from. -/
theorem find_terminates_iff {text : Bytes} {cfg : CfgFileOptions} (h : parse text = .ok cfg)
    (section_ name : Bytes) :
    Terminates cfg section_ name ↔
      ¬ Declares text [] ∨ ¬ Declares text section_ ∨
        ∃ s, InheritsFrom cfg section_ s ∧ (cfg.value s name).isSome = true := by
  rw [terminates_iff]
  constructor
  · rintro (hfound | ⟨e, hlinks, hend⟩)
    · exact Or.inr (Or.inr hfound)
    · by_contra hnot
      obtain ⟨hblank, hsec⟩ := not_or.mp (fun h => hnot (h.imp_right Or.inl))
      exact no_end h (not_not.mp hblank) (not_not.mp hsec) hlinks hend
  · rintro (hblank | hsec | hfound)
    · exact Or.inr (exists_end h hblank section_)
    · refine Or.inr ⟨section_, .refl, ?_⟩
      rw [← Option.not_isSome_iff_eq_none, (parse_spec h).2 section_]
      exact hsec
    · exact Or.inl hfound

/-- A file with inherited options. -/
def inheritedText : Bytes := str "[base]\nport = 9093\n[http] : base\nhost = h\n"

theorem inheritedText_parsed : ∃ cfg, parse inheritedText = .ok cfg ∧
    cfg.value (str "http") (str "port") = none ∧
    cfg.value (str "base") (str "port") = some (str "9093") := by
  have hread : ((parse inheritedText).toOption.map fun cfg =>
      (cfg.value (str "http") (str "port"), cfg.value (str "base") (str "port"))) =
        some (none, some (str "9093")) := by decide +kernel
  cases hcfg : parse inheritedText with
  | error e =>
    rw [hcfg] at hread
    cases hread
  | ok cfg =>
    rw [hcfg] at hread
    have hpair := Option.some.inj hread
    exact ⟨cfg, rfl, (Prod.ext_iff.mp hpair).1, (Prod.ext_iff.mp hpair).2⟩

/-- Looking for an option that is set nowhere ends. -/
theorem find_terminates_inherited :
    ∃ cfg, parse inheritedText = .ok cfg ∧ Terminates cfg (str "http") (str "x") := by
  obtain ⟨cfg, hcfg, -⟩ := inheritedText_parsed
  have hnamed : ¬ Declares inheritedText [] := by decide +kernel
  exact ⟨cfg, hcfg, (find_terminates_iff hcfg (str "http") (str "x")).mpr (Or.inl hnamed)⟩

/-- The header `[]` is accepted, and then the lookup of an option that is not set never ends. -/
theorem blank_section_loops : ¬ ∀ text cfg, parse text = .ok cfg →
    ∀ section_ name, Terminates cfg section_ name := by
  intro hall
  have hread : ((parse (str "[system]\n[]\n")).toOption.map fun cfg => cfg.sectionMap.rows) =
      some [] := by decide +kernel
  cases hcfg : parse (str "[system]\n[]\n") with
  | error e =>
    rw [hcfg] at hread
    cases hread
  | ok cfg =>
    rw [hcfg] at hread
    have hrows : cfg.sectionMap.rows = [] := Option.some.inj hread
    rcases terminates_iff.mp (hall _ cfg hcfg (str "system") (str "lock_updates")) with
      ⟨s, -, hset⟩ | ⟨e, hlinks, hend⟩
    · rw [CfgFileOptions.value, OrdMap.get, hrows] at hset
      cases hset
    · exact no_end hcfg (by decide +kernel) (by decide +kernel) hlinks hend

/-- There is always an option that is set nowhere. -/
theorem exists_unset (cfg : CfgFileOptions) : ∃ name, ∀ s, cfg.value s name = none := by
  let keys := cfg.sectionMap.rows.map Prod.fst
  refine ⟨keys.flatten, fun s => ?_⟩
  -- its key is longer than all there are
  by_contra hset
  obtain ⟨v, hv⟩ := Option.ne_none_iff_exists'.mp hset
  have hmem : makeKey s keys.flatten ∈ keys :=
    List.mem_map.mpr ⟨_, (OrdMap.get_eq_some_iff _).mp hv, rfl⟩
  have hlen := (List.sublist_flatten_of_mem hmem).length_le
  rw [makeKey, List.length_append, List.length_cons] at hlen
  omega

/-- Every lookup ends exactly when no header declares a section with an empty name. -/
theorem find_total_iff {text : Bytes} {cfg : CfgFileOptions} (h : parse text = .ok cfg) :
    (∀ section_ name, Terminates cfg section_ name) ↔ ¬ Declares text [] := by
  constructor
  · intro hall hblank
    obtain ⟨name, hunset⟩ := exists_unset cfg
    rcases terminates_iff.mp (hall [] name) with ⟨s, -, hset⟩ | ⟨e, hlinks, hend⟩
    · rw [hunset s] at hset
      cases hset
    · exact no_end h hblank hblank hlinks hend
  · intro hblank section_ name
    exact terminates_iff.mpr (Or.inr (exists_end h hblank section_))

/-! ## Updates -/

/-- A key tells section and name, as long as the section has no colon. -/
theorem makeKey_inj {s s' n n' : Bytes} (h : 58 ∉ s) (h' : 58 ∉ s') :
    makeKey s n = makeKey s' n' ↔ s = s' ∧ n = n' := by
  constructor
  · exact CString.append_sep_inj h h'
  · rintro ⟨rfl, rfl⟩
    rfl

/-- An update sets a value only where there is none. -/
theorem value_update (cfg : CfgFileOptions) (s n v s' n' : Bytes) :
    (cfg.update s n v).value s' n' =
      if makeKey s' n' = makeKey s n then some ((cfg.value s n).getD v) else cfg.value s' n' := by
  unfold CfgFileOptions.value CfgFileOptions.update
  cases hget : cfg.sectionMap.get (makeKey s n) with
  | some w =>
    have hkeep : cfg.sectionMap.emplace (makeKey s n) v = cfg.sectionMap :=
      OrdMap.emplace_of_isSome (by rw [hget]; rfl) v
    rw [hkeep]
    by_cases hkey : makeKey s' n' = makeKey s n
    · rw [if_pos hkey, hkey, hget]
      rfl
    · rw [if_neg hkey]
  | none =>
    rw [OrdMap.emplace_of_none hget, OrdMap.get_put, Option.getD_none]
    split_ifs <;> rfl

namespace CfgFileOptions

/-- Several updates of one pair. -/
def updates (cfg : CfgFileOptions) (s n : Bytes) (vs : List Bytes) : CfgFileOptions :=
  vs.foldl (fun cfg v => cfg.update s n v) cfg

end CfgFileOptions

theorem updates_inheritMap (cfg : CfgFileOptions) (s n : Bytes) (vs : List Bytes) :
    (cfg.updates s n vs).inheritMap = cfg.inheritMap := by
  induction vs generalizing cfg with
  | nil => rfl
  | cons v vs ih => exact ih (cfg.update s n v)

/-- The first of several updates counts, if the pair was not set before. -/
theorem value_updates_self (cfg : CfgFileOptions) (s n : Bytes) (vs : List Bytes) :
    (cfg.updates s n vs).value s n = (cfg.value s n).or vs.head? := by
  induction vs generalizing cfg with
  | nil => exact (Option.or_none).symm
  | cons v vs ih =>
    have hstep := ih (cfg.update s n v)
    rw [value_update, if_pos rfl, Option.some_or] at hstep
    refine hstep.trans ?_
    cases cfg.value s n <;> rfl

theorem value_updates_of_ne (cfg : CfgFileOptions) {s n s' n' : Bytes}
    (hkey : makeKey s' n' ≠ makeKey s n) (vs : List Bytes) :
    (cfg.updates s n vs).value s' n' = cfg.value s' n' := by
  induction vs generalizing cfg with
  | nil => rfl
  | cons v vs ih =>
    have hstep := ih (cfg.update s n v)
    rwa [value_update, if_neg hkey] at hstep

/-- Configurations: a file that was read, and any updates after it. -/
inductive Configured : CfgFileOptions → Prop
  | parsed {text : Bytes} {cfg : CfgFileOptions} (h : parse text = .ok cfg) : Configured cfg
  | updated {cfg : CfgFileOptions} (h : Configured cfg) (s n v : Bytes) :
      Configured (cfg.update s n v)

theorem Configured.parents {cfg : CfgFileOptions} (h : Configured cfg) :
    ∀ s p, cfg.inheritMap.get s = some p → 58 ∉ p := by
  induction h with
  | parsed h => exact (parse_spec h).1.parents
  | updated _ s n v ih => exact ih

/-- The sections that a section without a colon inherits from have none either. -/
theorem InheritsFrom.noColon {cfg : CfgFileOptions} (h : Configured cfg) {s t : Bytes}
    (hs : 58 ∉ s) (hlinks : InheritsFrom cfg s t) : 58 ∉ t := by
  induction hlinks with
  | refl => exact hs
  | tail _ hlink _ => exact h.parents _ _ hlink

/-- **A lookup that does not reach the pair** is as before. -/
theorem find_updates_of_not_reached {cfg : CfgFileOptions} (h : Configured cfg) {s n s' n' : Bytes}
    (hs : 58 ∉ s) (hs' : 58 ∉ s') (hreach : ¬ (n' = n ∧ InheritsFrom cfg s' s)) (vs : List Bytes)
    (fuel : ℕ) : (cfg.updates s n vs).find fuel s' n' = cfg.find fuel s' n' := by
  have hsame : ∀ t, InheritsFrom cfg s' t →
      (cfg.updates s n vs).value t n' = cfg.value t n' := by
    intro t ht
    refine value_updates_of_ne cfg (fun hkey => hreach ?_) vs
    obtain ⟨rfl, hn⟩ := (makeKey_inj (ht.noColon h hs') hs).mp hkey
    exact ⟨hn, ht⟩
  cases hv : cfg.value s' n' with
  | some v => rw [find_of_value hv, find_of_value ((hsame s' .refl).trans hv)]
  | none =>
    rw [find_of_none hv, find_of_none ((hsame s' .refl).trans hv), updates_inheritMap]
    exact chase_congr (fun t ht => hsame t ht.to_reflTransGen) fuel

/-- **What an override promises**, for updates of one pair to the values `vs` and at last to `v`: the
    lookup of the pair yields `v`, and every lookup that does not reach the pair is as before. -/
structure Overrides (cfg : CfgFileOptions) (s n : Bytes) (vs : List Bytes) (v : Bytes) : Prop where
  wins : ∀ fuel, (cfg.updates s n (vs ++ [v])).find fuel s n = some (some v)
  frame : ∀ s' n' fuel, 58 ∉ s' → ¬ (n' = n ∧ InheritsFrom cfg s' s) →
    (cfg.updates s n (vs ++ [v])).find fuel s' n' = cfg.find fuel s' n'

/-- **Updates override** exactly when the first value that the pair gets, from the file or an update,
    is the one it is to have. -/
theorem overrides_iff {cfg : CfgFileOptions} (h : Configured cfg) {s : Bytes} (hs : 58 ∉ s)
    (n : Bytes) (vs : List Bytes) (v : Bytes) :
    Overrides cfg s n vs v ↔ (cfg.value s n).getD (vs.headD v) = v := by
  have hvalue : (cfg.updates s n (vs ++ [v])).value s n =
      some ((cfg.value s n).getD (vs.headD v)) := by
    rw [value_updates_self]
    cases cfg.value s n <;> cases vs <;> rfl
  constructor
  · intro hover
    have hwins := hover.wins 0
    rw [find_of_value hvalue] at hwins
    exact Option.some.inj (Option.some.inj hwins)
  · intro hfirst
    rw [hfirst] at hvalue
    exact ⟨find_of_value hvalue,
      fun s' n' fuel hs' hreach => find_updates_of_not_reached h hs hs' hreach _ fuel⟩

/-- An option that is only inherited is overridden. -/
theorem overrides_inherited : ∃ cfg, parse inheritedText = .ok cfg ∧
    Overrides cfg (str "http") (str "port") [] (str "80") := by
  obtain ⟨cfg, hcfg, hunset, -⟩ := inheritedText_parsed
  refine ⟨cfg, hcfg, (overrides_iff (.parsed hcfg) (by decide) _ _ _).mpr ?_⟩
  rw [hunset]
  rfl

/-- An option that the file sets is not. -/
theorem set_option_kept : ¬ ∀ text cfg, parse text = .ok cfg → ∀ s n v, 58 ∉ s → ∀ fuel,
    (cfg.update s n v).find fuel s n = some (some v) := by
  intro hall
  obtain ⟨cfg, hcfg, -, hset⟩ := inheritedText_parsed
  have hfind := hall inheritedText cfg hcfg (str "base") (str "port") (str "80") (by decide) 0
  have hvalue : (cfg.update (str "base") (str "port") (str "80")).value (str "base") (str "port") =
      some (str "9093") := by
    rw [value_update, if_pos rfl, hset]
    rfl
  rw [find_of_value hvalue] at hfind
  exact absurd (Option.some.inj (Option.some.inj hfind)) (by decide)

/-! ## The start-up of the server -/

/-- How the start-up settles the master: with an update, unless the flag is empty and the file has the
    option. -/
def startMaster (cfg : CfgFileOptions) (fuel : ℕ) (flag : Bytes) : Option CfgFileOptions :=
  (cfg.check fuel (str "system") (str "master")).map fun isSet =>
    if !(isSet && flag.isEmpty) then cfg.update (str "system") (str "master") flag else cfg

/-- The flag counts only when the file does not set the master in its own section. -/
theorem startMaster_value {cfg cfg' : CfgFileOptions} {fuel : ℕ} {flag : Bytes} (hflag : flag ≠ [])
    (h : startMaster cfg fuel flag = some cfg') :
    cfg'.value (str "system") (str "master") =
      some ((cfg.value (str "system") (str "master")).getD flag) := by
  obtain ⟨isSet, -, rfl⟩ := Option.map_eq_some_iff.mp h
  have hempty : flag.isEmpty = false := by simpa using hflag
  rw [hempty, Bool.and_false, Bool.not_false, if_pos rfl, value_update, if_pos rfl]

end Zapdos.Utils
