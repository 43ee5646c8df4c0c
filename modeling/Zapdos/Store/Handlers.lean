/-
  Handlers of repeated fields — `HandleQueryProfiles`, `HandleStrings`, `HandleUserCategories`,
  `HandleUserTags`, `HandleUserAttr`, `HandleContacts`, `HandleAnother`.

  A handler gets the field of the request (`idata`) and the field of the record (`odata`), starts
  from the old field when it merges and from a blank one when it does not, and adds what is new.
  The boolean it returns only sets a variable that nothing reads, and is left out.

  The handlers of tags and categories look up what the names refer to with `TagDataService::Get`
  and `CategoryService::Get`; these come in as functions.
-/
import Zapdos.Store.ServiceDefine

namespace Zapdos.Store

open Zapdos.Lib

/-! ## Profiles -/

/-- `ZPDS_MAX_PROFILE_RULES`. -/
def maxProfileRules : Nat := 10

/-- `ZPDS_MAX_RULE_WEIGHT`. -/
def maxRuleWeight : Nat := 1000

/-- The rules of one new profile, keyed so that higher weights come first (`lmap`). -/
def profileRules : List QueryRuleT → Nat → OrdMap Nat QueryRuleT →
    Except Exc (OrdMap Nat QueryRuleT)
  | [], _, lmap => .ok lmap
  | rule :: rules, j, lmap =>
    if rule.weight > maxRuleWeight then badData "max rules weight exceeded for ruleset"
    else
      let ikey := maxProfileRules * maxRuleWeight + j - rule.weight * maxProfileRules
      -- `emplace` keeps what is there
      profileRules rules (j + 1) (if (lmap.get ikey).isSome then lmap else lmap.put ikey rule)

/-- The loop of `HandleQueryProfiles` over the request. -/
def queryProfilesLoop : List QueryProfT → List QueryProfT → Except Exc (List QueryProfT)
  | [], odata => .ok odata
  | var :: idata, odata =>
    if var.queryType = 0 then badData "query_type is needed for each ruleset"
    else if var.rules.length > maxProfileRules then badData "max rules size exceeded for ruleset"
    else if odata.any (fun o => decide (o.queryType = var.queryType)) then
      queryProfilesLoop idata odata
    else do
      let lmap ← profileRules var.rules 0 OrdMap.empty
      queryProfilesLoop idata
        (odata ++ [{ queryType := var.queryType, rules := lmap.rows.map Prod.snd }])

/-- `HandleQueryProfiles`. -/
def handleQueryProfiles (idata odata : List QueryProfT) (merge : Bool) :
    Except Exc (List QueryProfT) :=
  queryProfilesLoop idata (if merge then odata else [])

/-! ## Strings and categories -/

/-- `HandleStrings`. -/
def handleStrings (idata odata : List Bytes) (merge : Bool) : List Bytes :=
  idata.foldl (fun odata var => if var = [] ∨ var ∈ odata then odata else odata ++ [var])
    (if merge then odata else [])

/-- The loop of `HandleUserCategories` over the request. -/
def userCategoriesLoop (categoryGet : Bytes → CategoryT) :
    List Bytes → List Bytes → Except Exc (List Bytes)
  | [], odata => .ok odata
  | var :: idata, odata =>
    if var = [] ∨ var ∈ odata then userCategoriesLoop categoryGet idata odata
    else
      let ref := categoryGet var
      if ref.notfound || ref.isDeleted then badDataOf "Category absent or deleted: " var
      else userCategoriesLoop categoryGet idata (odata ++ [var])

/-- `HandleUserCategories`. -/
def handleUserCategories (categoryGet : Bytes → CategoryT) (idata odata : List Bytes)
    (merge : Bool) : Except Exc (List Bytes) :=
  userCategoriesLoop categoryGet idata (if merge then odata else [])

/-! ## Tags -/

/-- The reference of a tag: the first of the key types under which the name is found. -/
def tagRef (tagGet : KeyTypeE → Bytes → TagDataT) (name : Bytes) :
    List KeyTypeE → TagDataT → TagDataT
  | [], ref => ref
  | ktype :: keytypes, _ =>
    let ref := tagGet ktype name
    if ref.notfound then tagRef tagGet name keytypes ref else ref

/-- The key of a tag in a record: its name, with the value when the tag may be repeated. -/
def tagUsekey (ref var : TagDataT) : Key :=
  if ref.isRepeated then .secondary kNonode [.text var.name, .text var.value]
  else encodeSecondaryKey kNonode var.name

/-- The old tags by key: the position of the last one with the key. -/
def oldTagsLoop (tagGet : KeyTypeE → Bytes → TagDataT) (keytypes : List KeyTypeE) :
    List TagDataT → Nat → OrdMap Key Nat → Except Exc (OrdMap Key Nat)
  | [], _, kmap => .ok kmap
  | var :: odata, i, kmap =>
    let ref := tagRef tagGet var.name keytypes {}
    if ref.notfound then badData "Old data has bad tag, corrupted"
    else oldTagsLoop tagGet keytypes odata (i + 1) (kmap.put (tagUsekey ref var) i)

/-- The loop of `HandleUserTags` over the request. -/
def userTagsLoop (tagGet : KeyTypeE → Bytes → TagDataT) (keytypes : List KeyTypeE) :
    List TagDataT → OrdMap Key Nat → List TagDataT → List TagDataT
  | [], _, odata => odata
  | var :: idata, kmap, odata =>
    let ref := tagRef tagGet var.name keytypes {}
    -- a tag that is not there or not allowed is skipped
    if ref.notfound || !ref.isAllowed || ref.isDeleted then
      userTagsLoop tagGet keytypes idata kmap odata
    else
      let usekey := tagUsekey ref var
      let overwrite (tag : TagDataT) : TagDataT :=
        { tag with value := var.value, isSearchable := ref.isSearchable }
      match kmap.get usekey with
      | none =>
        userTagsLoop tagGet keytypes idata (kmap.put usekey odata.length)
          (odata ++ [overwrite { name := var.name }])
      | some i => userTagsLoop tagGet keytypes idata kmap (odata.modify i overwrite)

/-- `HandleUserTags`. -/
def handleUserTags (tagGet : KeyTypeE → Bytes → TagDataT) (idata odata : List TagDataT)
    (keytypes : List KeyTypeE) (merge : Bool) : Except Exc (List TagDataT) :=
  if merge then do
    let kmap ← oldTagsLoop tagGet keytypes odata 0 OrdMap.empty
    pure (userTagsLoop tagGet keytypes idata kmap odata)
  else pure (userTagsLoop tagGet keytypes idata OrdMap.empty [])

/-- The old attributes by name: the position of the last one with the name. -/
def oldAttrLoop : List TagDataT → Nat → OrdMap Key Nat → OrdMap Key Nat
  | [], _, kmap => kmap
  | var :: odata, i, kmap =>
    oldAttrLoop odata (i + 1) (kmap.put (encodeSecondaryKey kNonode (sanitLower var.name)) i)

/-- The loop of `HandleUserAttr` over the request. -/
def userAttrLoop : List TagDataT → OrdMap Key Nat → List TagDataT → List TagDataT
  | [], _, odata => odata
  | var :: idata, kmap, odata =>
    let usekey := encodeSecondaryKey kNonode (sanitLower var.name)
    match kmap.get usekey with
    | none =>
      userAttrLoop idata (kmap.put usekey odata.length)
        (odata ++ [{ name := var.name, value := var.value }])
    | some i =>
      userAttrLoop idata kmap (odata.modify i (fun tag => { tag with value := var.value }))

/-- `HandleUserAttr`. -/
def handleUserAttr (idata odata : List TagDataT) (merge : Bool) : List TagDataT :=
  if merge then userAttrLoop idata (oldAttrLoop odata 0 OrdMap.empty) odata
  else userAttrLoop idata OrdMap.empty []

/-! ## Contacts -/

/-- Two contacts have the same key. -/
def sameContact (a b : VerifiedT) : Bool := decide (a.vtype = b.vtype ∧ a.data = b.data)

/-- The loop of `HandleContacts` over the request. -/
def contactsLoop : List VerifiedT → List VerifiedT → Except Exc (List VerifiedT)
  | [], odata => .ok odata
  | var :: idata, odata =>
    if var.data = [] then badData "Data for contact does not exist"
    else if odata.any (sameContact var) then contactsLoop idata odata
    else contactsLoop idata (odata ++ [var])

/-- `HandleContacts`. -/
def handleContacts (idata odata : List VerifiedT) (merge : Bool) : Except Exc (List VerifiedT) :=
  contactsLoop idata (if merge then odata else [])

/-! ## Links to other items -/

/-- `GetUniqueByPrimary`; `NOKEY` is `0`. -/
def getUniqueByPrimary (keytype : KeyTypeE) : KeyTypeE :=
  if keytype = kLocaldata then uLocaldataUniqueid
  else if keytype = kWikidata then uWikidataUniqueid
  else 0

/-- `GetBlindBySecondaryKey(…, idonly = true)`: the id of the item a link names. -/
def getBlindBySecondaryKey (db : DataDb) (record : ItemLinkT) (keytype : KeyTypeE) :
    Option Nat :=
  if record.uniqueId = [] then none
  else
    match (db.get (encodeSecondaryKey (getUniqueByPrimary keytype) record.uniqueId)).bind
        DataV.parseNode with
    | none => none
    | some node =>
      if node.id = 0 then none
      else if node.keytype = keytype then none
      else some node.id

/-- `HandleAnother`. -/
def handleAnother (db : DataDb) (idata odata : ItemLinkT) (merge : Bool) : Except Exc ItemLinkT :=
  if idata.uniqueId = [] then
    if odata.id = 0 || merge then .ok odata else .ok { odata with id := 0 }
  else
    match getBlindBySecondaryKey db idata idata.keytype with
    | none => badData "Parent Relation does not exist"
    | some id => .ok { odata with id := id }

/-! ## Fields under permissions -/

/-- `LOCAL_HANDLE_STRING`. -/
def handleString (merge : Bool) (new old : Bytes) : Bytes :=
  if !(merge && new.isEmpty) then new else old

/-- `LOCAL_HANDLE_ENUM` and `LOCAL_HANDLE_NUMBER`. -/
def handleNumber {A : Type} [DecidableEq A] [Zero A] (merge : Bool) (new old : A) : A :=
  if !(merge && decide (new = 0)) then new else old

/-- One guarded part of a `PrepareData`: `if ((fields & bit) && (perms & mask)) { … }`. -/
structure FieldPart (T : Type) where
  bit : Nat
  mask : Nat
  /-- from `data` and the old `cdata`, the new `cdata` -/
  set : T → T → Except Exc T

/-- The guarded parts one after the other. -/
def setFields {T : Type} (fields perms : Nat) (data : T) : List (FieldPart T) → T → Except Exc T
  | [], cdata => .ok cdata
  | part :: parts, cdata =>
    if hasBits fields part.bit && hasBits perms part.mask then do
      let cdata ← part.set data cdata
      setFields fields perms data parts cdata
    else setFields fields perms data parts cdata

/-- What every part keeps, the parts together keep. -/
theorem setFields_keeps {T : Type} {P : T → Prop} {fields perms : Nat} {data : T}
    {parts : List (FieldPart T)} {cdata out : T}
    (hkeep : ∀ part ∈ parts, hasBits fields part.bit = true → hasBits perms part.mask = true →
      ∀ c c', part.set data c = .ok c' → P c → P c')
    (h : setFields fields perms data parts cdata = .ok out) (h0 : P cdata) : P out := by
  induction parts generalizing cdata with
  | nil => exact Except.ok.inj h ▸ h0
  | cons part parts ih =>
    have hrest : ∀ part' ∈ parts, hasBits fields part'.bit = true →
        hasBits perms part'.mask = true → ∀ c c', part'.set data c = .ok c' → P c → P c' :=
      fun part' h' => hkeep part' (List.mem_cons_of_mem _ h')
    rw [setFields] at h
    split at h
    · rename_i hguard
      rw [Bool.and_eq_true] at hguard
      cases hset : part.set data cdata with
      | error e =>
        rw [hset] at h
        cases h
      | ok c' =>
        rw [hset] at h
        exact ih hrest h (hkeep part List.mem_cons_self hguard.1 hguard.2 cdata c' hset h0)
    · exact ih hrest h h0

/-- **One value through all parts**: the part of its bit makes `g` of it, the others leave it alone.
    The bits are different, so that part runs once. -/
theorem setFields_value {T V : Type} {value : T → V} {g : V → V} {fields perms bit mask : Nat}
    {data : T} {parts : List (FieldPart T)} (hnodup : (parts.map FieldPart.bit).Nodup)
    (hpart : ∀ part ∈ parts, ∀ c c', part.set data c = .ok c' →
      value c' = if bit = part.bit then g (value c) else value c)
    (hmask : ∀ part ∈ parts, bit = part.bit → part.mask = mask)
    (hmem : bit ∈ parts.map FieldPart.bit) {cdata out : T}
    (h : setFields fields perms data parts cdata = .ok out) :
    value out =
      if (hasBits fields bit && hasBits perms mask) = true then g (value cdata) else value cdata := by
  -- by induction on the parts: before the part of the bit, and after it, the value stays
  induction parts generalizing cdata with
  | nil => cases hmem
  | cons part parts ih =>
    obtain ⟨hnot, hrest⟩ := List.nodup_cons.mp hnodup
    obtain ⟨hhead, htail⟩ := List.forall_mem_cons.mp hpart
    rw [setFields] at h
    by_cases hbit : bit = part.bit
    · have hafter : ∀ {c : T}, setFields fields perms data parts c = .ok out →
          value out = value c := by
        intro c hgo
        refine setFields_keeps (P := fun c' => value c' = value c) ?_ hgo rfl
        intro part' h' _ _ c₁ c₂ hset hc
        have hne : bit ≠ part'.bit := fun he =>
          hnot (List.mem_map.mpr ⟨part', h', he.symm.trans hbit⟩)
        have hval := htail part' h' c₁ c₂ hset
        rw [if_neg hne] at hval
        exact hval.trans hc
      rw [← hbit, hmask part List.mem_cons_self hbit] at h
      split at h
      · rename_i hguard
        rw [if_pos hguard]
        cases hset : part.set data cdata with
        | error e =>
          rw [hset] at h
          cases h
        | ok c' =>
          rw [hset] at h
          have hval := hhead cdata c' hset
          rw [if_pos hbit] at hval
          rw [← hval]
          exact hafter h
      · rename_i hguard
        rw [if_neg hguard]
        exact hafter h
    · have hmem' : bit ∈ parts.map FieldPart.bit := (List.mem_cons.mp hmem).resolve_left hbit
      have hmask' : ∀ part' ∈ parts, bit = part'.bit → part'.mask = mask :=
        fun part' h' => hmask part' (List.mem_cons_of_mem _ h')
      split at h
      · cases hset : part.set data cdata with
        | error e =>
          rw [hset] at h
          cases h
        | ok c' =>
          rw [hset] at h
          have hval := hhead cdata c' hset
          rw [if_neg hbit] at hval
          rw [← hval]
          exact ih hrest htail hmask' hmem' h
      · exact ih hrest htail hmask' hmem' h

/-- What the outside answers while one payload is prepared. -/
structure PrepEnv where
  /-- the keys `CryptoTraits::Create` makes, with `ENCODEKEY_ALGO_DEFAULT` -/
  signkey : SignKeyT := {}
  /-- `TagDataService::Get` -/
  tagGet : KeyTypeE → Bytes → TagDataT := fun _ _ => { notfound := true }
  /-- `CategoryService::Get` -/
  categoryGet : Bytes → CategoryT := fun _ => { notfound := true }

end Zapdos.Store
