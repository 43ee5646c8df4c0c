/-
  What `HandleUserTags` makes of the tags of a record.

  A tag is filed under its name, or under its name and value when it may be repeated; the handler
  overwrites the entry of a key that is there and appends one for a key that is not.  The key is a
  text: the name, and behind a separator the value.  Names of tags never hold the separator, so the
  text tells the two kinds apart and the keys of different tags differ.
-/
import Zapdos.Store.Handlers
import Zapdos.Store.KeyText

namespace Zapdos.Store.TagMerge

open Zapdos.Lib

/-! ## The handler, for any kind of key -/

section

variable {κ : Type} [LinearOrder κ] (usekey : TagDataT → TagDataT → κ)
  (tagGet : KeyTypeE → Bytes → TagDataT) (keytypes : List KeyTypeE)

/-- The definition that a name refers to. -/
def refOf (name : Bytes) : TagDataT := tagRef tagGet name keytypes {}

/-- The loop over the old tags. -/
def oldTagsBy : List TagDataT → Nat → OrdMap κ Nat → Except Exc (OrdMap κ Nat)
  | [], _, kmap => .ok kmap
  | var :: odata, i, kmap =>
    let ref := refOf tagGet keytypes var.name
    if ref.notfound then badData "Old data has bad tag, corrupted"
    else oldTagsBy odata (i + 1) (kmap.put (usekey ref var) i)

/-- What an entry becomes. -/
def overwrite (ref var tag : TagDataT) : TagDataT :=
  { tag with value := var.value, isSearchable := ref.isSearchable }

/-- The loop over the tags of the request. -/
def userTagsBy : List TagDataT → OrdMap κ Nat → List TagDataT → List TagDataT
  | [], _, odata => odata
  | var :: idata, kmap, odata =>
    let ref := refOf tagGet keytypes var.name
    if ref.notfound || !ref.isAllowed || ref.isDeleted then userTagsBy idata kmap odata
    else
      match kmap.get (usekey ref var) with
      | none =>
        userTagsBy idata (kmap.put (usekey ref var) odata.length)
          (odata ++ [overwrite ref var { name := var.name }])
      | some i => userTagsBy idata kmap (odata.modify i (overwrite ref var))

/-- The handler with a map from keys to places. -/
def handleUserTagsBy (idata odata : List TagDataT) (merge : Bool) : Except Exc (List TagDataT) :=
  if merge then
    match oldTagsBy usekey tagGet keytypes odata 0 OrdMap.empty with
    | .error e => .error e
    | .ok kmap => .ok (userTagsBy usekey tagGet keytypes idata kmap odata)
  else .ok (userTagsBy usekey tagGet keytypes idata OrdMap.empty [])

end

/-- `usekey`. -/
def usekey (ref var : TagDataT) : Bytes :=
  if ref.isRepeated then
    KeyText.encodeSecondaryKey kNonode (.string var.name) [.string var.value]
  else KeyText.encodeSecondaryKey kNonode (.string var.name) []

/-- `HandleUserTags`. -/
def handleUserTags (tagGet : KeyTypeE → Bytes → TagDataT) (idata odata : List TagDataT)
    (keytypes : List KeyTypeE) (merge : Bool) : Except Exc (List TagDataT) :=
  handleUserTagsBy usekey tagGet keytypes idata odata merge

section

variable (tagGet : KeyTypeE → Bytes → TagDataT) (keytypes : List KeyTypeE)

/-- The tag table has the name. -/
def Known (name : Bytes) : Prop := (refOf tagGet keytypes name).notfound = false

/-- The tag is known, allowed and not deleted. -/
def Usable (name : Bytes) : Prop :=
  Known tagGet keytypes name ∧ (refOf tagGet keytypes name).isAllowed = true ∧
    (refOf tagGet keytypes name).isDeleted = false

/-- The key of an entry: its name, or its name and value when the tag is repeated. -/
def tagKey (var : TagDataT) : Bytes × Option Bytes :=
  (var.name, if (refOf tagGet keytypes var.name).isRepeated then some var.value else none)

/-- **A keyed upsert** of the tags of a request into a list. -/
structure Upserted (idata odata out : List TagDataT) : Prop where
  /-- the keys are distinct -/
  nodup : (out.map (tagKey tagGet keytypes)).Nodup
  /-- the last input value of a usable tag is there -/
  last : ∀ init var rest, idata = init ++ var :: rest → Usable tagGet keytypes var.name →
    (∀ v ∈ rest, tagKey tagGet keytypes v ≠ tagKey tagGet keytypes var) →
      ∃ e ∈ out, tagKey tagGet keytypes e = tagKey tagGet keytypes var ∧ e.value = var.value ∧
        e.isSearchable = (refOf tagGet keytypes var.name).isSearchable
  /-- entries keep their places, and change only when the request names a usable one -/
  kept : ∀ (i : Nat) (e : TagDataT), odata[i]? = some e → ∃ e' : TagDataT, out[i]? = some e' ∧
    tagKey tagGet keytypes e' = tagKey tagGet keytypes e ∧
    (¬ Usable tagGet keytypes e.name ∨
        (∀ v ∈ idata, tagKey tagGet keytypes v ≠ tagKey tagGet keytypes e) → e' = e)
  /-- only usable tags are added -/
  added : ∀ (i : Nat) (e : TagDataT), odata.length ≤ i → out[i]? = some e → Usable tagGet keytypes e.name

end

/-! ## Keys -/

section

variable {tagGet : KeyTypeE → Bytes → TagDataT} {keytypes : List KeyTypeE}

theorem tagUsekey_inj {a b : TagDataT} :
    tagUsekey (refOf tagGet keytypes a.name) a = tagUsekey (refOf tagGet keytypes b.name) b ↔
      tagKey tagGet keytypes a = tagKey tagGet keytypes b := by
  unfold tagUsekey tagKey encodeSecondaryKey
  split_ifs with ha hb hb
  · simp
  · simp
  · simp
  · simp

/-- The text of a key, after the key type. -/
theorem usekey_eq (ref var : TagDataT) :
    usekey ref var = KeyText.fmtIdKey kNonode ++
      (var.name ++ if ref.isRepeated then KeyText.fmtSep :: var.value else []) := by
  unfold usekey KeyText.encodeSecondaryKey KeyText.makeSuffix
  split_ifs <;> simp [KeyText.Arg.text]

/-- **Keys of names without the separator** are equal as texts when they are equal as keys. -/
theorem usekey_inj {ref ref' a b : TagDataT} (ha : KeyText.fmtSep ∉ a.name)
    (hb : KeyText.fmtSep ∉ b.name) : usekey ref a = usekey ref' b ↔ tagUsekey ref a = tagUsekey ref' b := by
  rw [usekey_eq, usekey_eq, List.append_cancel_left_eq]
  unfold tagUsekey encodeSecondaryKey
  split_ifs with hra hrb hrb
  · constructor
    · intro h
      obtain ⟨hname, hvalue⟩ := CString.append_sep_inj ha hb h
      rw [hname, hvalue]
    · intro h
      simp only [Key.secondary.injEq, List.cons.injEq, KeyPart.text.injEq] at h
      rw [h.2.1, h.2.2.1]
  · constructor
    · intro h
      rw [List.append_nil] at h
      exact absurd (h ▸ List.mem_append_right _ List.mem_cons_self) hb
    · intro h
      simp at h
  · constructor
    · intro h
      rw [List.append_nil] at h
      exact absurd (h ▸ List.mem_append_right _ List.mem_cons_self) ha
    · intro h
      simp at h
  · simp

/-- A known name is found under one of the key types. -/
theorem exists_found {name : Bytes} {ref : TagDataT} (hne : keytypes ≠ [])
    (h : (tagRef tagGet name keytypes ref).notfound = false) :
    ∃ ktype ∈ keytypes, (tagGet ktype name).notfound = false := by
  induction keytypes generalizing ref with
  | nil => exact absurd rfl hne
  | cons ktype keytypes ih =>
    rw [tagRef] at h
    by_cases hfound : (tagGet ktype name).notfound = true
    · simp only [hfound, if_true] at h
      cases keytypes with
      | nil =>
        rw [tagRef] at h
        rw [hfound] at h
        cases h
      | cons k ks =>
        obtain ⟨k', hk', hfound'⟩ := ih (List.cons_ne_nil k ks) h
        exact ⟨k', List.mem_cons_of_mem _ hk', hfound'⟩
    · exact ⟨ktype, List.mem_cons_self, by simpa using hfound⟩

/-- Without key types no tag is usable. -/
theorem Usable.keytypes_ne_nil {name : Bytes} (h : Usable tagGet keytypes name) :
    keytypes ≠ [] := by
  rintro rfl
  exact absurd h.2.1 (by simp [refOf, tagRef])

/-- Keys of usable tags tell the entries apart as their names and values do. -/
def KeysApart {κ : Type} (usekey : TagDataT → TagDataT → κ) (tagGet : KeyTypeE → Bytes → TagDataT)
    (keytypes : List KeyTypeE) : Prop :=
  ∀ a b : TagDataT, Known tagGet keytypes a.name → Usable tagGet keytypes b.name →
    (usekey (refOf tagGet keytypes a.name) a = usekey (refOf tagGet keytypes b.name) b ↔
      tagKey tagGet keytypes a = tagKey tagGet keytypes b)

/-- In a tag table whose names are free of the separator, the texts tell the entries apart. -/
theorem keysApart_usekey
    (hsep : ∀ ktype name, (tagGet ktype name).notfound = false → KeyText.fmtSep ∉ name) :
    KeysApart usekey tagGet keytypes := by
  intro a b ha hb
  have hne := hb.keytypes_ne_nil
  obtain ⟨ka, -, hfa⟩ := exists_found hne ha
  obtain ⟨kb, -, hfb⟩ := exists_found hne hb.1
  rw [usekey_inj (hsep ka _ hfa) (hsep kb _ hfb), tagUsekey_inj]

theorem keysApart_tagUsekey : KeysApart tagUsekey tagGet keytypes := fun _ _ _ _ => tagUsekey_inj

theorem name_eq_of_tagKey {a b : TagDataT}
    (h : tagKey tagGet keytypes a = tagKey tagGet keytypes b) : a.name = b.name :=
  congrArg Prod.fst h

/-- The new entry has the key of the tag of the request. -/
theorem tagKey_new (var : TagDataT) :
    tagKey tagGet keytypes
        (overwrite (refOf tagGet keytypes var.name) var { name := var.name })
      = tagKey tagGet keytypes var := rfl

/-- Overwriting an entry of the key leaves its key. -/
theorem tagKey_overwrite {var tag : TagDataT}
    (h : tagKey tagGet keytypes tag = tagKey tagGet keytypes var) :
    tagKey tagGet keytypes (overwrite (refOf tagGet keytypes var.name) var tag)
      = tagKey tagGet keytypes var := by
  have hname := name_eq_of_tagKey h
  unfold tagKey overwrite
  rw [hname]

/-! ## The map is in step with the list -/

section

variable {κ : Type} [LinearOrder κ] {usekey : TagDataT → TagDataT → κ}

/-- The map knows the place of every usable key. -/
def Places (usekey : TagDataT → TagDataT → κ) (tagGet : KeyTypeE → Bytes → TagDataT)
    (keytypes : List KeyTypeE) (kmap : OrdMap κ Nat) (keys : List (Bytes × Option Bytes)) : Prop :=
  ∀ v : TagDataT, Usable tagGet keytypes v.name → ∀ i,
    kmap.get (usekey (refOf tagGet keytypes v.name) v) = some i ↔
      keys[i]? = some (tagKey tagGet keytypes v)

theorem Places.blank : Places usekey tagGet keytypes OrdMap.empty [] := by
  intro v _ i
  simp

theorem Places.put (hkey : KeysApart usekey tagGet keytypes) {kmap : OrdMap κ Nat}
    {keys : List (Bytes × Option Bytes)} (h : Places usekey tagGet keytypes kmap keys)
    {var : TagDataT} (hvar : Known tagGet keytypes var.name)
    (hnew : tagKey tagGet keytypes var ∉ keys) :
    Places usekey tagGet keytypes
      (kmap.put (usekey (refOf tagGet keytypes var.name) var) keys.length)
      (keys ++ [tagKey tagGet keytypes var]) := by
  intro v hv i
  have hapart := hkey var v hvar hv
  rw [OrdMap.get_put]
  by_cases htag : tagKey tagGet keytypes var = tagKey tagGet keytypes v
  · rw [if_pos (hapart.mpr htag).symm, ← htag]
    constructor
    · intro hi
      rw [← Option.some.inj hi, List.getElem?_concat_length]
    · intro hi
      rcases Nat.lt_trichotomy i keys.length with hlt | heq | hgt
      · rw [List.getElem?_append_left hlt] at hi
        exact absurd (List.mem_of_getElem? hi) hnew
      · rw [heq]
      · rw [List.getElem?_eq_none (by rw [List.length_append, List.length_singleton]; omega)] at hi
        cases hi
  · rw [if_neg fun heq => htag (hapart.mp heq.symm), h v hv i]
    rcases Nat.lt_trichotomy i keys.length with hlt | heq | hgt
    · rw [List.getElem?_append_left hlt]
    · rw [heq, List.getElem?_concat_length, List.getElem?_eq_none (le_refl _)]
      constructor
      · intro hi
        cases hi
      · intro hi
        exact absurd (Option.some.inj hi) htag
    · rw [List.getElem?_eq_none (by omega),
        List.getElem?_eq_none (by rw [List.length_append, List.length_singleton]; omega)]

/-- **The loop over the old tags** records every place. -/
theorem oldTagsBy_places (hkey : KeysApart usekey tagGet keytypes) {odata : List TagDataT}
    {keys : List (Bytes × Option Bytes)} {kmap : OrdMap κ Nat}
    (h : Places usekey tagGet keytypes kmap keys)
    (hknown : ∀ var ∈ odata, Known tagGet keytypes var.name)
    (hnodup : (keys ++ odata.map (tagKey tagGet keytypes)).Nodup) :
    ∃ kmap', oldTagsBy usekey tagGet keytypes odata keys.length kmap = .ok kmap' ∧
      Places usekey tagGet keytypes kmap' (keys ++ odata.map (tagKey tagGet keytypes)) := by
  induction odata generalizing keys kmap with
  | nil =>
    refine ⟨kmap, rfl, ?_⟩
    rw [List.map_nil, List.append_nil]
    exact h
  | cons var odata ih =>
    have hvar := hknown var List.mem_cons_self
    have hnew : tagKey tagGet keytypes var ∉ keys := by
      intro hmem
      rw [List.map_cons, List.nodup_append] at hnodup
      exact hnodup.2.2 _ hmem _ List.mem_cons_self rfl
    have hassoc : keys ++ (var :: odata).map (tagKey tagGet keytypes)
        = (keys ++ [tagKey tagGet keytypes var]) ++ odata.map (tagKey tagGet keytypes) := by
      rw [List.map_cons, List.append_assoc, List.singleton_append]
    rw [hassoc] at hnodup ⊢
    obtain ⟨kmap', hrun, hplaces⟩ := ih (h.put hkey hvar hnew)
      (fun v hv => hknown v (List.mem_cons_of_mem _ hv)) hnodup
    refine ⟨kmap', ?_, hplaces⟩
    rw [List.length_append, List.length_singleton] at hrun
    rw [oldTagsBy]
    simp only [show (refOf tagGet keytypes var.name).notfound = false from hvar,
      Bool.false_eq_true, if_false]
    exact hrun

end

/-! ## Upserts -/

theorem Upserted.refl {odata : List TagDataT}
    (hnodup : (odata.map (tagKey tagGet keytypes)).Nodup) :
    Upserted tagGet keytypes [] odata odata where
  nodup := hnodup
  last init var rest h _ _ := absurd h.symm (List.append_ne_nil_of_right_ne_nil _ (List.cons_ne_nil _ _))
  kept i e h := ⟨e, h, rfl, fun _ => rfl⟩
  added i e hi h := by
    rw [List.getElem?_eq_none hi] at h
    cases h

/-- A tag that is not usable changes nothing. -/
theorem Upserted.skip {odata : List TagDataT} {var : TagDataT}
    (hnodup : (odata.map (tagKey tagGet keytypes)).Nodup)
    (hvar : ¬ Usable tagGet keytypes var.name) : Upserted tagGet keytypes [var] odata odata where
  nodup := hnodup
  last init v rest h hv _ := by
    cases init with
    | nil =>
      obtain ⟨rfl, -⟩ := List.cons.inj h
      exact absurd hv hvar
    | cons a init => exact absurd (List.cons.inj h).2.symm (by simp)
  kept i e h := ⟨e, h, rfl, fun _ => rfl⟩
  added i e hi h := by
    rw [List.getElem?_eq_none hi] at h
    cases h

/-- An entry of a new key is appended. -/
theorem Upserted.append {odata : List TagDataT} {var : TagDataT}
    (hnodup : (odata.map (tagKey tagGet keytypes)).Nodup)
    (hvar : Usable tagGet keytypes var.name)
    (hnew : tagKey tagGet keytypes var ∉ odata.map (tagKey tagGet keytypes)) :
    Upserted tagGet keytypes [var] odata
      (odata ++ [overwrite (refOf tagGet keytypes var.name) var { name := var.name }]) where
  nodup := by
    rw [List.map_append, List.map_cons, List.map_nil, tagKey_new]
    exact List.concat_eq_append .. ▸ hnodup.concat hnew
  last init v rest h _ _ := by
    cases init with
    | nil =>
      obtain ⟨rfl, -⟩ := List.cons.inj h
      exact ⟨_, List.mem_append_right _ (List.mem_singleton_self _), tagKey_new var, rfl, rfl⟩
    | cons a init => exact absurd (List.cons.inj h).2.symm (by simp)
  kept i e h := by
    have hi : i < odata.length := (List.getElem?_eq_some_iff.mp h).1
    exact ⟨e, by rw [List.getElem?_append_left hi, h], rfl, fun _ => rfl⟩
  added i e hi h := by
    have hlen := (List.getElem?_eq_some_iff.mp h).1
    rw [List.length_append, List.length_singleton] at hlen
    have hi' : i = odata.length := by omega
    rw [hi', List.getElem?_concat_length] at h
    cases h
    exact hvar

/-- The entry of a key that is there is overwritten in its place. -/
theorem Upserted.modify {odata : List TagDataT} {var : TagDataT} {i : Nat}
    (hnodup : (odata.map (tagKey tagGet keytypes)).Nodup)
    (hvar : Usable tagGet keytypes var.name)
    (hold : (odata.map (tagKey tagGet keytypes))[i]? = some (tagKey tagGet keytypes var)) :
    (odata.modify i (overwrite (refOf tagGet keytypes var.name) var)).map (tagKey tagGet keytypes)
        = odata.map (tagKey tagGet keytypes) ∧
      Upserted tagGet keytypes [var] odata
        (odata.modify i (overwrite (refOf tagGet keytypes var.name) var)) := by
  obtain ⟨tag, htag, hkey⟩ : ∃ tag, odata[i]? = some tag ∧
      tagKey tagGet keytypes tag = tagKey tagGet keytypes var := by
    rw [List.getElem?_map] at hold
    exact Option.map_eq_some_iff.mp hold
  have hplace : (odata.modify i (overwrite (refOf tagGet keytypes var.name) var))[i]?
      = some (overwrite (refOf tagGet keytypes var.name) var tag) := by
    rw [List.getElem?_modify_eq, htag]
    rfl
  have hkeys : (odata.modify i (overwrite (refOf tagGet keytypes var.name) var)).map
      (tagKey tagGet keytypes) = odata.map (tagKey tagGet keytypes) := by
    refine List.ext_getElem? ?_
    intro j
    rw [List.getElem?_map, List.getElem?_map]
    by_cases hij : i = j
    · rw [← hij, hplace, htag, Option.map_some, Option.map_some, tagKey_overwrite hkey, hkey]
    · rw [List.getElem?_modify_ne _ _ hij]
  refine ⟨hkeys, ?_⟩
  constructor
  · rw [hkeys]
    exact hnodup
  · intro init v rest h _ _
    cases init with
    | nil =>
      obtain ⟨rfl, -⟩ := List.cons.inj h
      exact ⟨_, List.mem_of_getElem? hplace, tagKey_overwrite hkey, rfl, rfl⟩
    | cons a init => exact absurd (List.cons.inj h).2.symm (by simp)
  · intro j e hj
    by_cases hij : i = j
    · rw [← hij] at hj ⊢
      rw [htag] at hj
      obtain rfl := Option.some.inj hj
      refine ⟨_, hplace, (tagKey_overwrite hkey).trans hkey.symm, ?_⟩
      rintro (hnot | hnot)
      · exact absurd (name_eq_of_tagKey hkey ▸ hvar) hnot
      · exact absurd hkey.symm (hnot var (List.mem_singleton_self var))
    · exact ⟨e, by rw [List.getElem?_modify_ne _ _ hij, hj], rfl, fun _ => rfl⟩
  · intro j e hj h
    have hlen := (List.getElem?_eq_some_iff.mp h).1
    rw [List.length_modify] at hlen
    omega

/-- One tag of the request after the other. -/
theorem Upserted.cons {idata odata mid out : List TagDataT} {var : TagDataT}
    (hstep : Upserted tagGet keytypes [var] odata mid)
    (hrest : Upserted tagGet keytypes idata mid out) :
    Upserted tagGet keytypes (var :: idata) odata out where
  nodup := hrest.nodup
  last init v rest h hv hlater := by
    cases init with
    | nil =>
      obtain ⟨rfl, rfl⟩ := List.cons.inj h
      obtain ⟨e, he, hkey, hvalue, hsearch⟩ := hstep.last [] var [] rfl hv
        (fun _ hmem => absurd hmem List.not_mem_nil)
      obtain ⟨i, hi⟩ := List.mem_iff_getElem?.mp he
      obtain ⟨e', he', -, hsame⟩ := hrest.kept i e hi
      rw [hsame (Or.inr fun w hw => hkey ▸ hlater w hw)] at he'
      exact ⟨e, List.mem_of_getElem? he', hkey, hvalue, hsearch⟩
    | cons a init => exact hrest.last init v rest (List.cons.inj h).2 hv hlater
  kept i e h := by
    obtain ⟨m, hm, hmkey, hmsame⟩ := hstep.kept i e h
    obtain ⟨e', he', hkey, hsame⟩ := hrest.kept i m hm
    refine ⟨e', he', hkey.trans hmkey, ?_⟩
    intro hnot
    have hme : m = e := hmsame (hnot.imp id fun hall v hv =>
      hall v (List.mem_singleton.mp hv ▸ List.mem_cons_self))
    rw [hme] at hsame
    exact hsame (hnot.imp id fun hall v hv => hall v (List.mem_cons_of_mem _ hv))
  added i e hi h := by
    by_cases hmid : i < mid.length
    · have hm : mid[i]? = some mid[i] := List.getElem?_eq_getElem hmid
      obtain ⟨e', he', hkey, -⟩ := hrest.kept i _ hm
      rw [h] at he'
      obtain rfl := Option.some.inj he'
      rw [name_eq_of_tagKey hkey]
      exact hstep.added i _ hi hm
    · exact hrest.added i e (by omega) h

/-! ## The handler -/

section

variable {κ : Type} [LinearOrder κ] {usekey : TagDataT → TagDataT → κ}

/-- The test of the loop. -/
theorem usable_iff (name : Bytes) :
    ((refOf tagGet keytypes name).notfound || !(refOf tagGet keytypes name).isAllowed
      || (refOf tagGet keytypes name).isDeleted) = false ↔ Usable tagGet keytypes name := by
  unfold Usable Known
  simp [and_assoc]

/-- **The loop over the request** upserts its tags one after the other. -/
theorem userTagsBy_upserted (hkey : KeysApart usekey tagGet keytypes) (idata : List TagDataT)
    {kmap : OrdMap κ Nat} {odata : List TagDataT}
    (hplaces : Places usekey tagGet keytypes kmap (odata.map (tagKey tagGet keytypes)))
    (hnodup : (odata.map (tagKey tagGet keytypes)).Nodup) :
    Upserted tagGet keytypes idata odata
      (userTagsBy usekey tagGet keytypes idata kmap odata) := by
  induction idata generalizing kmap odata with
  | nil => exact Upserted.refl hnodup
  | cons var idata ih =>
    rw [userTagsBy]
    by_cases hvar : Usable tagGet keytypes var.name
    · have htest := (usable_iff var.name).mpr hvar
      simp only [htest, Bool.false_eq_true, if_false]
      cases hget : kmap.get (usekey (refOf tagGet keytypes var.name) var) with
      | none =>
        have hnew : tagKey tagGet keytypes var ∉ odata.map (tagKey tagGet keytypes) := by
          intro hmem
          obtain ⟨i, hi⟩ := List.mem_iff_getElem?.mp hmem
          rw [(hplaces var hvar i).mpr hi] at hget
          cases hget
        have hstep := Upserted.append hnodup hvar hnew
        refine hstep.cons (ih ?_ hstep.nodup)
        have hput := hplaces.put hkey hvar.1 hnew
        rw [List.length_map] at hput
        rw [List.map_append, List.map_cons, List.map_nil, tagKey_new]
        exact hput
      | some i =>
        obtain ⟨hkeys, hstep⟩ := Upserted.modify hnodup hvar ((hplaces var hvar i).mp hget)
        refine hstep.cons (ih ?_ hstep.nodup)
        rw [hkeys]
        exact hplaces
    · have htest : ((refOf tagGet keytypes var.name).notfound
          || !(refOf tagGet keytypes var.name).isAllowed
          || (refOf tagGet keytypes var.name).isDeleted) = true := by
        rw [← Bool.not_eq_false]
        exact mt (usable_iff var.name).mp hvar
      simp only [htest, if_true]
      exact (Upserted.skip hnodup hvar).cons (ih hplaces hnodup)

theorem handleUserTagsBy_upserted (hkey : KeysApart usekey tagGet keytypes)
    (idata odata : List TagDataT) (merge : Bool)
    (hknown : ∀ e ∈ odata, Known tagGet keytypes e.name)
    (hnodup : (odata.map (tagKey tagGet keytypes)).Nodup) :
    ∃ out, handleUserTagsBy usekey tagGet keytypes idata odata merge = .ok out ∧
      Upserted tagGet keytypes idata (if merge then odata else []) out := by
  unfold handleUserTagsBy
  cases merge with
  | true =>
    obtain ⟨kmap, hrun, hplaces⟩ := oldTagsBy_places hkey Places.blank hknown hnodup
    refine ⟨_, ?_, userTagsBy_upserted hkey idata hplaces hnodup⟩
    rw [List.length_nil] at hrun
    simp only [if_true, hrun]
  | false => exact ⟨_, rfl, userTagsBy_upserted hkey idata Places.blank List.nodup_nil⟩

end

end

/-! ## Keys as texts and keys as structures -/

section

variable {tagGet : KeyTypeE → Bytes → TagDataT} {keytypes : List KeyTypeE}

section

variable {κ κ' : Type} [LinearOrder κ] [LinearOrder κ'] {usekey : TagDataT → TagDataT → κ}
  {usekey' : TagDataT → TagDataT → κ'}

/-- Two maps that are in step with one list give the same result. -/
theorem userTagsBy_congr (hkey : KeysApart usekey tagGet keytypes)
    (hkey' : KeysApart usekey' tagGet keytypes) (idata : List TagDataT) {kmap : OrdMap κ Nat}
    {kmap' : OrdMap κ' Nat} {odata : List TagDataT}
    (h : Places usekey tagGet keytypes kmap (odata.map (tagKey tagGet keytypes)))
    (h' : Places usekey' tagGet keytypes kmap' (odata.map (tagKey tagGet keytypes)))
    (hnodup : (odata.map (tagKey tagGet keytypes)).Nodup) :
    userTagsBy usekey tagGet keytypes idata kmap odata
      = userTagsBy usekey' tagGet keytypes idata kmap' odata := by
  induction idata generalizing kmap kmap' odata with
  | nil => rfl
  | cons var idata ih =>
    rw [userTagsBy, userTagsBy]
    split_ifs with htest
    · exact ih h h' hnodup
    · have hvar := (usable_iff var.name).mp (by simpa using htest)
      have hget : kmap.get (usekey (refOf tagGet keytypes var.name) var)
          = kmap'.get (usekey' (refOf tagGet keytypes var.name) var) := by
        refine Option.ext ?_
        intro i
        rw [h var hvar i, h' var hvar i]
      rw [← hget]
      cases hold : kmap.get (usekey (refOf tagGet keytypes var.name) var) with
      | none =>
        have hnew : tagKey tagGet keytypes var ∉ odata.map (tagKey tagGet keytypes) := by
          intro hmem
          obtain ⟨i, hi⟩ := List.mem_iff_getElem?.mp hmem
          rw [(h var hvar i).mpr hi] at hold
          cases hold
        have hput := h.put hkey hvar.1 hnew
        have hput' := h'.put hkey' hvar.1 hnew
        rw [List.length_map] at hput hput'
        refine ih ?_ ?_ (Upserted.append hnodup hvar hnew).nodup
        · rw [List.map_append, List.map_cons, List.map_nil, tagKey_new]
          exact hput
        · rw [List.map_append, List.map_cons, List.map_nil, tagKey_new]
          exact hput'
      | some i =>
        obtain ⟨hkeys, hstep⟩ := Upserted.modify hnodup hvar ((h var hvar i).mp hold)
        refine ih ?_ ?_ hstep.nodup
        · rw [hkeys]
          exact h
        · rw [hkeys]
          exact h'

end

theorem oldTagsBy_tagUsekey (odata : List TagDataT) (i : Nat) (kmap : OrdMap Key Nat) :
    oldTagsBy tagUsekey tagGet keytypes odata i kmap = oldTagsLoop tagGet keytypes odata i kmap := by
  induction odata generalizing i kmap with
  | nil => rfl
  | cons var odata ih =>
    rw [oldTagsBy, oldTagsLoop]
    simp only [ih]
    rfl

theorem userTagsBy_tagUsekey (idata : List TagDataT) (kmap : OrdMap Key Nat)
    (odata : List TagDataT) :
    userTagsBy tagUsekey tagGet keytypes idata kmap odata
      = userTagsLoop tagGet keytypes idata kmap odata := by
  induction idata generalizing kmap odata with
  | nil => rfl
  | cons var idata ih =>
    rw [userTagsBy, userTagsLoop]
    simp only [ih]
    rfl

/-- **The handler of the requests**, whose keys are structures, does the same. -/
theorem handleUserTags_eq
    (hsep : ∀ ktype name, (tagGet ktype name).notfound = false → KeyText.fmtSep ∉ name)
    (idata odata : List TagDataT) (merge : Bool)
    (hknown : ∀ e ∈ odata, Known tagGet keytypes e.name)
    (hnodup : (odata.map (tagKey tagGet keytypes)).Nodup) :
    handleUserTags tagGet idata odata keytypes merge
      = Store.handleUserTags tagGet idata odata keytypes merge := by
  have hkey : KeysApart usekey tagGet keytypes := keysApart_usekey hsep
  unfold handleUserTags handleUserTagsBy Store.handleUserTags
  cases merge with
  | true =>
    obtain ⟨kmap, hrun, hplaces⟩ := oldTagsBy_places hkey Places.blank hknown hnodup
    obtain ⟨kmap', hrun', hplaces'⟩ := oldTagsBy_places keysApart_tagUsekey Places.blank
      hknown hnodup
    rw [oldTagsBy_tagUsekey] at hrun'
    rw [List.length_nil] at hrun hrun'
    simp only [if_true, hrun, hrun']
    rw [userTagsBy_congr hkey keysApart_tagUsekey idata hplaces hplaces' hnodup,
      userTagsBy_tagUsekey]
    rfl
  | false =>
    have hblank := @userTagsBy_congr tagGet keytypes Bytes Key _ _ _ _ hkey keysApart_tagUsekey idata
      _ _ [] Places.blank Places.blank List.nodup_nil
    rw [if_neg Bool.false_ne_true, if_neg Bool.false_ne_true, hblank, userTagsBy_tagUsekey]
    rfl

end

/-- The names that `TagDataService` stores are free of the separator. -/
theorem sanitNSLower_sepFree (orig : Bytes) : KeyText.fmtSep ∉ sanitNSLower orig := by
  intro h
  obtain ⟨c, -, hc⟩ := List.mem_flatMap.mp h
  have hbytes : ∀ n < 256, isAlnum (UInt8.ofNat n) = true →
      toLower (UInt8.ofNat n) ≠ KeyText.fmtSep := by decide +kernel
  split_ifs at hc with halnum hpunct
  · have hne := hbytes c.toNat c.toNat_lt
    rw [UInt8.ofNat_toNat] at hne
    exact hne halnum (List.mem_singleton.mp hc).symm
  · rw [← List.mem_singleton.mp hc] at hpunct
    exact absurd hpunct (by decide)
  · exact absurd hc List.not_mem_nil

/-- **Tag merge is a keyed upsert**, in a tag table whose names are free of the separator. -/
theorem handleUserTags_upserted (tagGet : KeyTypeE → Bytes → TagDataT) (keytypes : List KeyTypeE)
    (hsep : ∀ ktype name, (tagGet ktype name).notfound = false → KeyText.fmtSep ∉ name)
    (idata odata : List TagDataT) (merge : Bool)
    (hknown : ∀ e ∈ odata, Known tagGet keytypes e.name)
    (hnodup : (odata.map (tagKey tagGet keytypes)).Nodup) :
    ∃ out, handleUserTags tagGet idata odata keytypes merge = .ok out ∧
      Upserted tagGet keytypes idata (if merge then odata else []) out ∧
      (merge = false → ∀ odata', handleUserTags tagGet idata odata' keytypes merge = .ok out) := by
  obtain ⟨out, hrun, hups⟩ := handleUserTagsBy_upserted (keysApart_usekey hsep) idata odata merge
    hknown hnodup
  refine ⟨out, hrun, hups, ?_⟩
  rintro rfl odata'
  exact hrun

/-- A tag table with one tag that is repeated and one that is not. -/
def twoTags (_ : KeyTypeE) (name : Bytes) : TagDataT :=
  if name = str "colour" then { name := name, isAllowed := true, isRepeated := true }
  else if name = str "size" then { name := name, isAllowed := true, isSearchable := true }
  else { name := name, notfound := true }

/-- Tags of a request. -/
def colourAndSize : List TagDataT :=
  [{ name := str "colour", value := str "red" }, { name := str "size", value := str "2" },
    { name := str "colour", value := str "blue" }, { name := str "size", value := str "3" },
    { name := str "weight", value := str "1" }]

/-- Both colours are kept, the last size stays in its place, the unknown tag is passed by. -/
example : handleUserTags twoTags colourAndSize [{ name := str "size", value := str "1" }]
      [kUserdata] true
    = .ok [{ name := str "size", value := str "3", isSearchable := true },
        { name := str "colour", value := str "red" },
        { name := str "colour", value := str "blue" }] := by
  decide +kernel

theorem colourAndSize_upserted :
    ∃ out, handleUserTags twoTags colourAndSize [{ name := str "size", value := str "1" }]
        [kUserdata] true = .ok out ∧
      Upserted twoTags [kUserdata] colourAndSize [{ name := str "size", value := str "1" }] out ∧
      (true = false → ∀ odata',
        handleUserTags twoTags colourAndSize odata' [kUserdata] true = .ok out) := by
  refine handleUserTags_upserted twoTags [kUserdata] ?_ colourAndSize
    [{ name := str "size", value := str "1" }] true ?_ ?_
  · intro _ name hfound
    unfold twoTags at hfound
    split_ifs at hfound with hcolour hsize
    · rw [hcolour]
      decide
    · rw [hsize]
      decide
  · unfold Known
    decide
  · decide

end Zapdos.Store.TagMerge
