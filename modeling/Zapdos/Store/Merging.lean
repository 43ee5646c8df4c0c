/-
  Merge requests — what `W_UMERGE` makes of a stored record.

  A merge keeps the fields that the payload leaves out and overwrites the fields it gives.  Most scalar
  fields go through `LOCAL_HANDLE_STRING` and its kin, which do that.  The others are copied as they
  come (`is_invited`, the role flags, every field of a tag), or are tested the wrong way round (price
  and deleted flag of a category).

  Each scalar field has its way (`RecKind.handling`).  The crux is `setFields_values`: the guarded parts
  of a `PrepareData` have different bits, so each covered field is handled once and then left alone.
-/
import Zapdos.Store.Deletion

namespace Zapdos.Store

open Zapdos.Lib

/-! ## Ways to handle a field -/

/-- The value of a scalar field. -/
inductive ScalarV
  | text (b : Bytes)
  | num (n : Int)
  | real (q : Rat)
  | flag (b : Bool)
  deriving DecidableEq, Repr

namespace ScalarV

/-- The default of protobuf. -/
def isDefault : ScalarV → Bool
  | text b => b.isEmpty
  | num n => decide (n = 0)
  | real q => decide (q = 0)
  | flag b => !b

/-- A number above zero. -/
def isPositive : ScalarV → Bool
  | text _ => false
  | num n => decide (0 < n)
  | real q => decide (0 < q)
  | flag b => b

/-- **The law**: a default in the payload keeps the old value, any other value replaces it. -/
def mergeWith (p old : ScalarV) : ScalarV := if p.isDefault then old else p

/-- A default is not above zero. -/
theorem not_positive_of_default {v : ScalarV} (h : v.isDefault = true) : v.isPositive = false := by
  cases v with
  | text b => rfl
  | num n =>
    have hn : n = 0 := by simpa [isDefault] using h
    simp [isPositive, hn]
  | real q =>
    have hq : q = 0 := by simpa [isDefault] using h
    simp [isPositive, hq]
  | flag b =>
    have hb : b = false := by simpa [isDefault] using h
    rw [hb]
    rfl

end ScalarV

/-- What the code does with a field of the payload in a merge. -/
inductive Handling
  /-- `if (!(merge && empty)) set` -/
  | merged
  /-- `set` -/
  | copied
  /-- `if (!(merge && positive)) set` -/
  | inverted
  deriving DecidableEq, Repr

namespace Handling

/-- The new value, from that of the payload and the old one. -/
def apply : Handling → ScalarV → ScalarV → ScalarV
  | merged, p, old => if p.isDefault then old else p
  | copied, p, _ => p
  | inverted, p, old => if p.isPositive then old else p

/-- The payload and the record leave no difference between this way and the law. -/
def Agrees : Handling → ScalarV → ScalarV → Prop
  | merged, _, _ => True
  | copied, p, old => p.isDefault = true → old = p
  | inverted, p, old => p.isPositive = true ∨ p.isDefault = true → old = p

/-- When a way of handling merges. -/
theorem apply_eq_iff (h : Handling) (p old : ScalarV) :
    h.apply p old = p.mergeWith old ↔ h.Agrees p old := by
  cases h with
  | merged => exact iff_of_true rfl trivial
  | copied =>
    rw [apply, ScalarV.mergeWith, Agrees]
    split
    · rename_i hdef
      simp only [hdef, true_imp_iff, eq_comm]
    · rename_i hdef
      simp only [hdef, Bool.false_eq_true, false_imp_iff]
  | inverted =>
    rw [apply, ScalarV.mergeWith, Agrees]
    by_cases hdef : p.isDefault = true
    · rw [if_pos hdef, ScalarV.not_positive_of_default hdef, if_neg Bool.false_ne_true]
      simp only [hdef, or_true, true_imp_iff, eq_comm]
    · rw [if_neg hdef]
      split
      · rename_i hpos
        simp only [hpos, true_or, true_imp_iff]
      · rename_i hpos
        simp only [hpos, hdef, Bool.false_eq_true, or_self, false_imp_iff]

end Handling

/-- `LOCAL_HANDLE_STRING` merges. -/
theorem text_handleString (new old : Bytes) :
    ScalarV.text (handleString true new old) = Handling.merged.apply (.text new) (.text old) := by
  rw [handleString, Handling.apply, ScalarV.isDefault]
  cases new.isEmpty <;> rfl

/-- And so do `LOCAL_HANDLE_ENUM` and `LOCAL_HANDLE_NUMBER`. -/
theorem num_handleNumber (new old : Int) :
    ScalarV.num (handleNumber true new old) = Handling.merged.apply (.num new) (.num old) := by
  rw [handleNumber, Handling.apply, ScalarV.isDefault]
  cases decide (new = 0) <;> rfl

/-- `HandleNumber` at the positions. -/
theorem real_handleNumber (new old : Rat) :
    ScalarV.real (handleNumber true new old) = Handling.merged.apply (.real new) (.real old) := by
  rw [handleNumber, Handling.apply, ScalarV.isDefault]
  cases decide (new = 0) <;> rfl

@[simp] theorem handleString_nil (old : Bytes) : handleString true [] old = old := rfl

@[simp] theorem handleNumber_zero {A : Type} [DecidableEq A] [Zero A] (old : A) :
    handleNumber true 0 old = old := by
  simp [handleNumber]

/-! ## Guarded parts -/

section Parts

variable {T F : Type} (value : F → T → ScalarV) (bit : F → Nat) (handling : F → Handling)

/-- A part handles the fields of its bit and leaves the others alone. -/
def FieldPart.Handles (part : FieldPart T) : Prop :=
  ∀ data c c', part.set data c = .ok c' → ∀ f,
    value f c' = if bit f = part.bit then (handling f).apply (value f data) (value f c)
      else value f c

variable {value bit handling}

/-- A part that cannot fail. -/
theorem FieldPart.Handles.ofOk {b m : Nat} {set : T → T → T}
    (h : ∀ data c f, value f (set data c) =
      if bit f = b then (handling f).apply (value f data) (value f c) else value f c) :
    (FieldPart.mk b m (fun data c => .ok (set data c))).Handles value bit handling := by
  intro data c c' hset f
  cases hset
  exact h data c f

/-- A part that asks a handler first, for a repeated field. -/
theorem FieldPart.Handles.ofBind {A : Type} {b m : Nat} {ask : T → T → Except Exc A}
    {set : T → A → T}
    (h : ∀ (data c : T) a f, value f (set c a) =
      if bit f = b then (handling f).apply (value f data) (value f c) else value f c) :
    (FieldPart.mk b m (fun data c => do
      let a ← ask data c
      pure (set c a))).Handles value bit handling := by
  intro data c c' hset f
  obtain ⟨a, -, ha⟩ := bind_eq_ok.mp hset
  cases ha
  exact h data c a f

/-- **All parts**: a field that is covered is handled once. -/
theorem setFields_values {mask : F → Nat} {fields perms : Nat} {data : T}
    {parts : List (FieldPart T)} (hnodup : (parts.map FieldPart.bit).Nodup)
    (hpart : ∀ part ∈ parts, part.Handles value bit handling)
    (hmask : ∀ part ∈ parts, ∀ f, bit f = part.bit → part.mask = mask f) {cdata out : T}
    (h : setFields fields perms data parts cdata = .ok out) {f : F}
    (hmem : bit f ∈ parts.map FieldPart.bit) (hfields : hasBits fields (bit f) = true)
    (hperms : hasBits perms (mask f) = true) :
    value f out = (handling f).apply (value f data) (value f cdata) := by
  have hval := setFields_value (g := (handling f).apply (value f data)) hnodup
    (fun part h' c c' hset => hpart part h' data c c' hset f) (fun part h' => hmask part h' f) hmem h
  rwa [if_pos (by rw [hfields, hperms]; rfl)] at hval

end Parts

/-! ## Users and exters -/

/-- The scalar fields of a user or exter that a request can set. -/
inductive UserScalar
  | passkey | description | givenName | subscription | primaryMobile | primaryEmail | isInvited
  | canAddTags | canAddCategory | canAddUsers | canAddItems
  deriving DecidableEq, Repr

namespace UserScalar

/-- The group a field is in. -/
def group : UserScalar → UdField
  | passkey => .passkey
  | description => .info
  | givenName => .gname
  | subscription => .subscr
  | primaryMobile => .mobile
  | primaryEmail => .email
  | isInvited => .invited
  | canAddTags | canAddCategory | canAddUsers | canAddItems => .role

def value : UserScalar → UserDataT → ScalarV
  | passkey, r => .text r.passkey
  | description, r => .text r.description
  | givenName, r => .text r.givenName
  | subscription, r => .num r.subscription
  | primaryMobile, r => .text r.primaryMobile
  | primaryEmail, r => .text r.primaryEmail
  | isInvited, r => .flag r.isInvited
  | canAddTags, r => .flag r.canAddTags
  | canAddCategory, r => .flag r.canAddCategory
  | canAddUsers, r => .flag r.canAddUsers
  | canAddItems, r => .flag r.canAddItems

/-- Flags are copied. -/
def handling : UserScalar → Handling
  | isInvited | canAddTags | canAddCategory | canAddUsers | canAddItems => .copied
  | _ => .merged

end UserScalar

/-- The part for a passkey. -/
theorem FieldPart.Handles.passkey (m ecode : Nat) :
    (FieldPart.mk udfldPasskey m (fun data cdata =>
      if data.passkey = [] then badData "Passkey is blank" ecode
      else .ok { cdata with passkey := handleString true data.passkey cdata.passkey })).Handles
        UserScalar.value (fun f => f.group.bit) UserScalar.handling := by
  intro data c c' hset f
  simp only [badData] at hset
  split at hset
  · cases hset
  · cases hset
    cases f <;> first | rfl | exact text_handleString _ _

/-- How the parts of an update handle the fields of users. -/
theorem UserDataService.fieldParts_handles (env : PrepEnv) :
    ∀ part ∈ fieldParts env true,
      part.Handles UserScalar.value (fun f => f.group.bit) UserScalar.handling := by
  simp only [fieldParts, List.forall_mem_cons, List.not_mem_nil, false_imp_iff, implies_true,
    and_true]
  refine ⟨.ofOk ?_, .passkey _ _, .ofOk ?_, .ofOk ?_, .ofOk ?_, .ofOk ?_, .ofOk ?_, .ofBind ?_,
    .ofOk ?_, .ofBind ?_, .ofBind ?_⟩
  · intro data c f
    cases f <;> rfl
  · intro data c f
    cases f <;> first | rfl | exact text_handleString _ _
  · intro data c f
    cases f <;> first | rfl | exact text_handleString _ _
  · intro data c f
    cases f <;> first | rfl | exact num_handleNumber _ _
  · intro data c f
    cases f <;> first | rfl | exact text_handleString _ _
  · intro data c f
    cases f <;> first | rfl | exact text_handleString _ _
  · intro data c a f
    cases f <;> rfl
  · intro data c f
    cases f <;> rfl
  · intro data c a f
    cases f <;> rfl
  · intro data c a f
    cases f <;> rfl

/-- The same for third parties. -/
theorem ExterDataService.fieldParts_handles (env : PrepEnv) :
    ∀ part ∈ fieldParts env true,
      part.Handles UserScalar.value (fun f => f.group.bit) UserScalar.handling := by
  simp only [fieldParts, List.forall_mem_cons, List.not_mem_nil, false_imp_iff, implies_true,
    and_true]
  refine ⟨.ofOk ?_, .passkey _ _, .ofOk ?_, .ofOk ?_, .ofOk ?_, .ofOk ?_, .ofOk ?_, .ofBind ?_,
    .ofBind ?_⟩
  · intro data c f
    cases f <;> rfl
  · intro data c f
    cases f <;> rfl
  · intro data c f
    cases f <;> first | rfl | exact text_handleString _ _
  · intro data c f
    cases f <;> first | rfl | exact text_handleString _ _
  · intro data c f
    cases f <;> first | rfl | exact text_handleString _ _
  · intro data c f
    cases f <;> first | rfl | exact text_handleString _ _
  · intro data c a f
    cases f <;> rfl
  · intro data c a f
    cases f <;> rfl

/-! ## Items -/

/-- The scalar fields of an item that a request can set. -/
inductive ItemScalar
  | origin | title | summary | details | lang | canseeType | thumbnail | poster | landscape
  | importance | rating | geometry | ccode | scode | city | country | state | fldName | fldArea
  | address | pincode | region | accuracy | lat | lon | location | landmark | localName | osmId
  | osmKey | osmValue | osmType
  deriving DecidableEq, Repr

namespace ItemScalar

/-- The bit a field is under. -/
def bit : ItemScalar → Nat
  | origin => idfldOrigin
  | title | summary | details => idfldTextfields
  | lang => idfldLanguage
  | canseeType => idfldCansee
  | thumbnail | poster | landscape => idfldImages
  | importance => idfldImportance
  | rating => idfldRating
  | geometry => idfldGeometry
  | ccode | scode | city | country | state | fldName | fldArea | address | pincode | region
    | accuracy | lat | lon | location | landmark | localName => idfldLocalfields
  | osmId | osmKey | osmValue | osmType => idfldOsmfields

def value : ItemScalar → ItemDataT → ScalarV
  | origin, r => .text r.origin
  | title, r => .text r.title
  | summary, r => .text r.summary
  | details, r => .text r.details
  | lang, r => .num r.lang
  | canseeType, r => .num r.canseeType
  | thumbnail, r => .text r.thumbnail
  | poster, r => .text r.poster
  | landscape, r => .text r.landscape
  | importance, r => .real r.importance
  | rating, r => .real r.rating
  | geometry, r => .text r.geometry
  | ccode, r => .text r.ccode
  | scode, r => .text r.scode
  | city, r => .text r.city
  | country, r => .text r.country
  | state, r => .text r.state
  | fldName, r => .text r.fldName
  | fldArea, r => .text r.fldArea
  | address, r => .text r.address
  | pincode, r => .text r.pincode
  | region, r => .text r.region
  | accuracy, r => .real r.accuracy
  | lat, r => .real r.lat
  | lon, r => .real r.lon
  | location, r => .text r.location
  | landmark, r => .text r.landmark
  | localName, r => .text r.localName
  | osmId, r => .num r.osmId
  | osmKey, r => .text r.osmKey
  | osmValue, r => .text r.osmValue
  | osmType, r => .text r.osmType

end ItemScalar

/-- The parts of items merge all their fields. -/
theorem ItemDataService.fieldParts_handles (env : PrepEnv) (db : DataDb) (keytype : KeyTypeE) :
    ∀ part ∈ fieldParts env db keytype true,
      part.Handles ItemScalar.value ItemScalar.bit (fun _ => .merged) := by
  simp only [fieldParts, List.forall_mem_cons, List.not_mem_nil, false_imp_iff, implies_true,
    and_true]
  refine ⟨.ofBind ?_, .ofOk ?_, .ofBind ?_, .ofOk ?_, .ofOk ?_, .ofOk ?_, .ofOk ?_, .ofBind ?_,
    .ofBind ?_, .ofBind ?_, .ofOk ?_, .ofOk ?_, .ofOk ?_, .ofOk ?_, .ofOk ?_⟩
  -- repeated fields and links first, then the groups in their order
  case refine_1 | refine_3 | refine_8 | refine_9 | refine_10 =>
    intro data c a f
    cases f <;> rfl
  all_goals
    intro data c f
    cases f <;> first
      | rfl
      | exact text_handleString _ _
      | exact num_handleNumber _ _
      | exact real_handleNumber _ _

/-! ## Tags and categories -/

/-- The scalar fields of a tag that a request can set; all of them are copied. -/
inductive TagScalar
  | lang | isAllowed | isRepeated | isSearchable | isDeleted
  deriving DecidableEq, Repr

/-- The field of a record. -/
def TagScalar.value : TagScalar → TagDataT → ScalarV
  | lang, r => .num r.lang
  | isAllowed, r => .flag r.isAllowed
  | isRepeated, r => .flag r.isRepeated
  | isSearchable, r => .flag r.isSearchable
  | isDeleted, r => .flag r.isDeleted

/-- The scalar fields of a category that a request can set. -/
inductive CategoryScalar
  | lang | description | canseeType | canseePrice | isDeleted
  deriving DecidableEq, Repr

/-- The field of a record. -/
def CategoryScalar.value : CategoryScalar → CategoryT → ScalarV
  | lang, r => .num r.lang
  | description, r => .text r.description
  | canseeType, r => .num r.canseeType
  | canseePrice, r => .real r.canseePrice
  | isDeleted, r => .flag r.isDeleted

/-- The tests of price and deleted flag are the wrong way round. -/
def CategoryScalar.handling : CategoryScalar → Handling
  | canseePrice | isDeleted => .inverted
  | _ => .merged

/-- A tag is copied, field by field. -/
theorem TagDataService.fillRecord_value {m : Manage} (hact : m.action = uactionUpdate)
    (p old : TagDataT) (f : TagScalar) :
    f.value (fillRecord m p true 0 old) = Handling.copied.apply (f.value p) (f.value old) := by
  have hdel : m.action ≠ uactionDelete := by
    rw [hact]
    decide
  rw [fillRecord, if_neg hdel]
  cases f <;> rfl

/-- A category is handled field by field. -/
theorem CategoryService.fillRecord_value {m : Manage} (hact : m.action = uactionUpdate)
    (hmerge : m.merge = true) (p old : CategoryT) (f : CategoryScalar) :
    f.value (fillRecord m p true 0 old) = f.handling.apply (f.value p) (f.value old) := by
  have hdel : m.action ≠ uactionDelete := by
    rw [hact]
    decide
  rw [fillRecord, if_neg hdel, hmerge]
  cases f with
  | lang =>
    by_cases hlang : p.lang = 0 <;>
      simp [CategoryScalar.value, CategoryScalar.handling, Handling.apply, ScalarV.isDefault, hlang]
  | description =>
    by_cases hdesc : p.description = [] <;>
      simp [CategoryScalar.value, CategoryScalar.handling, Handling.apply, ScalarV.isDefault, hdesc]
  | canseeType =>
    by_cases htype : p.canseeType = 0 <;>
      simp [CategoryScalar.value, CategoryScalar.handling, Handling.apply, ScalarV.isDefault, htype]
  | canseePrice =>
    by_cases hprice : 0 < p.canseePrice <;>
      simp [CategoryScalar.value, CategoryScalar.handling, Handling.apply, ScalarV.isPositive,
        hprice]
  | isDeleted =>
    by_cases hflag : p.isDeleted = true <;>
      simp [CategoryScalar.value, CategoryScalar.handling, Handling.apply, ScalarV.isPositive, hflag]

/-! ## The kinds of records -/

namespace RecKind

/-- The scalar fields of a kind. -/
def Scalar : RecKind → Type
  | user | exter => UserScalar
  | localdata | wikidata => ItemScalar
  | tag => TagScalar
  | category => CategoryScalar

def value : (k : RecKind) → k.Scalar → k.Rec → ScalarV
  | user, (f : UserScalar), r => f.value r
  | exter, (f : UserScalar), r => f.value r
  | localdata, (f : ItemScalar), r => f.value r
  | wikidata, (f : ItemScalar), r => f.value r
  | tag, (f : TagScalar), r => f.value r
  | category, (f : CategoryScalar), r => f.value r

def handling : (k : RecKind) → k.Scalar → Handling
  | user, (f : UserScalar) => f.handling
  | exter, (f : UserScalar) => f.handling
  | localdata, _ => .merged
  | wikidata, _ => .merged
  | tag, _ => .copied
  | category, (f : CategoryScalar) => f.handling

/-- The field mask and the permissions of an updater cover a field of a stored record.  Tags and
    categories have neither. -/
def Covers : (k : RecKind) → Nat → UserDataT → k.Rec → k.Rec → k.Scalar → Prop
  | user, fields, updater, _, old, (f : UserScalar) =>
    hasBits fields f.group.bit = true ∧
      hasBits (UserDataService.userPerms updater old true uactionUpdate) f.group.userMask = true
  | exter, fields, updater, p, _, (f : UserScalar) =>
    hasBits fields f.group.bit = true ∧
      hasBits (ExterDataService.exterPerms updater p) f.group.exterMask = true
  | localdata, fields, updater, _, old, (f : ItemScalar) =>
    hasBits fields f.bit = true ∧
      hasBits (ItemDataService.itemPerms updater old true uactionUpdate) wrtpid = true
  | wikidata, fields, updater, _, old, (f : ItemScalar) =>
    hasBits fields f.bit = true ∧
      hasBits (ItemDataService.itemPerms updater old true uactionUpdate) wrtpid = true
  | tag, _, _, _, _, _ => True
  | category, _, _, _, _, _ => True

/-- The payload carries nothing but the key. -/
def KeyOnly : (k : RecKind) → k.Rec → Prop
  | user, (p : UserDataT) => p = { name := p.name }
  | exter, (p : UserDataT) => p = { name := p.name }
  | localdata, (p : ItemDataT) => p = { uniqueId := p.uniqueId }
  | wikidata, (p : ItemDataT) => p = { uniqueId := p.uniqueId }
  | tag, (p : TagDataT) => p = { name := p.name, keytype := p.keytype }
  | category, (p : CategoryT) => p = { name := p.name }

/-- Nothing but the time has changed, the signing keys aside, and the copy that an item keeps. -/
def Unchanged : (k : RecKind) → k.Rec → k.Rec → Prop
  | user, (old : UserDataT), (new : UserDataT) =>
    new = { old with signkey := new.signkey, updatedAt := new.updatedAt }
  | exter, (old : UserDataT), (new : UserDataT) =>
    new = { old with signkey := new.signkey, updatedAt := new.updatedAt }
  | localdata, (old : ItemDataT), (new : ItemDataT) =>
    new = { old with
      olddata := { origin := old.origin, categories := old.categories }
      updatedAt := new.updatedAt }
  | wikidata, (old : ItemDataT), (new : ItemDataT) =>
    new = { old with
      olddata := { origin := old.origin, categories := old.categories }
      updatedAt := new.updatedAt }
  | tag, (old : TagDataT), (new : TagDataT) => new = { old with updatedAt := new.updatedAt }
  | category, (old : CategoryT), (new : CategoryT) => new = { old with updatedAt := new.updatedAt }

/-- **The law of merging** for a payload, the record before and the record after. -/
structure Merges (k : RecKind) (covers : k.Scalar → Prop) (p old new : k.Rec) : Prop where
  scalar : ∀ f, covers f → k.value f new = (k.value f p).mergeWith (k.value f old)
  keyOnly : k.KeyOnly p → k.Unchanged old new

end RecKind

/-! ## Users -/

namespace UserDataService

/-- A prepared merge has set the fields. -/
theorem prepareFound_update {env : PrepEnv} {updater p old out : UserDataT} {fields : Nat}
    {merge : Bool}
    (h : prepareFound env updater p uactionUpdate fields merge true old = .ok (true, out)) :
    setFields fields (userPerms updater old true uactionUpdate) p (fieldParts env merge) old =
      .ok out := by
  obtain ⟨-, -, -, ⟨hdel, -⟩ | ⟨-, c, hset, hout⟩⟩ := prepareFound_eq_ok.mp h
  · exact absurd hdel (by decide)
  · rw [hset, hout]
    rfl

theorem nodup_fieldParts (env : PrepEnv) : ((fieldParts env true).map FieldPart.bit).Nodup := by
  show [udfldSignkey, udfldPasskey, udfldInfo, udfldGname, udfldSubscr, udfldMobile, udfldEmail,
    udfldProfiles, udfldInvited, udfldTags, udfldCategories].Nodup
  decide

theorem fieldParts_mask (env : PrepEnv) : ∀ part ∈ fieldParts env true, ∀ f : UserScalar,
    f.group.bit = part.bit → part.mask = f.group.userMask := by
  simp only [fieldParts, List.forall_mem_cons, List.not_mem_nil, false_imp_iff, implies_true,
    and_true]
  refine ⟨?_, ?_, ?_, ?_, ?_, ?_, ?_, ?_, ?_, ?_, ?_⟩ <;>
    intro f h <;> cases f <;> first | rfl | exact absurd h (by decide)

/-- A field that permissions can cover has a part. -/
theorem mem_fieldParts (env : PrepEnv) {perms : Nat} {f : UserScalar}
    (h : hasBits perms f.group.userMask = true) :
    f.group.bit ∈ (fieldParts env true).map FieldPart.bit := by
  show f.group.bit ∈ [udfldSignkey, udfldPasskey, udfldInfo, udfldGname, udfldSubscr, udfldMobile,
    udfldEmail, udfldProfiles, udfldInvited, udfldTags, udfldCategories]
  cases f with
  | canAddTags | canAddCategory | canAddUsers | canAddItems =>
    -- no permission opens the roles of a user
    simp [UserScalar.group, UdField.userMask, hasBits, wrtpudRole] at h
  | _ => decide

/-- The parts of a merge leave a record as it is, signing keys aside, if the payload is blank and the
    record is not invited where that flag is covered. -/
theorem fieldParts_blank (env : PrepEnv) (name : Bytes) {fields perms : Nat} {old : UserDataT}
    (hinv : hasBits fields udfldInvited = true → hasBits perms wrtpudInvited = true →
      old.isInvited = false) :
    ∀ part ∈ fieldParts env true, hasBits fields part.bit = true → hasBits perms part.mask = true →
      ∀ c c', part.set { name := name } c = .ok c' → { c with signkey := old.signkey } = old →
        { c' with signkey := old.signkey } = old := by
  simp only [fieldParts, List.forall_mem_cons, List.not_mem_nil, false_imp_iff, implies_true,
    and_true]
  refine ⟨?_, ?_, ?_, ?_, ?_, ?_, ?_, ?_, ?_, ?_, ?_⟩ <;> intro hbit hmask c c' hset hc
  · cases hset
    exact hc
  · cases hset
  · cases hset
    exact hc
  · cases hset
    exact hc
  · cases hset
    exact hc
  · cases hset
    exact hc
  · cases hset
    exact hc
  · cases hset
    exact hc
  · cases hset
    have hflag := congrArg UserDataT.isInvited hc
    rw [hinv hbit hmask] at hflag
    have hflag' : c.isInvited = false := hflag
    rw [hflag'] at hc
    exact hc
  · obtain ⟨tags, htags, hc'⟩ := bind_eq_ok.mp hset
    cases hc'
    obtain ⟨kmap, -, hsame⟩ := bind_eq_ok.mp htags
    cases hsame
    exact hc
  · cases hset
    exact hc

end UserDataService

/-! ## Exters -/

namespace ExterDataService

/-- A prepared merge has set the fields. -/
theorem prepareFound_update {env : PrepEnv} {updater p old out : ExterDataT} {fields : Nat}
    {merge : Bool}
    (h : prepareFound env updater p uactionUpdate fields merge true old = .ok (true, out)) :
    setFields fields (exterPerms updater p) p (fieldParts env merge) old = .ok out := by
  obtain ⟨-, -, ⟨hdel, -⟩ | ⟨-, c, hset, hout⟩⟩ := prepareFound_eq_ok.mp h
  · exact absurd hdel (by decide)
  · rw [hset, hout]
    rfl

theorem nodup_fieldParts (env : PrepEnv) : ((fieldParts env true).map FieldPart.bit).Nodup := by
  show [udfldSignkey, udfldPasskey, udfldRole, udfldInfo, udfldGname, udfldMobile, udfldEmail,
    udfldProfiles, udfldTags].Nodup
  decide

theorem fieldParts_mask (env : PrepEnv) : ∀ part ∈ fieldParts env true, ∀ f : UserScalar,
    f.group.bit = part.bit → part.mask = f.group.exterMask := by
  simp only [fieldParts, List.forall_mem_cons, List.not_mem_nil, false_imp_iff, implies_true,
    and_true]
  refine ⟨?_, ?_, ?_, ?_, ?_, ?_, ?_, ?_, ?_⟩ <;>
    intro f h <;> cases f <;> first | rfl | exact absurd h (by decide)

/-- A field that permissions can cover has a part. -/
theorem mem_fieldParts (env : PrepEnv) {perms : Nat} {f : UserScalar}
    (h : hasBits perms f.group.exterMask = true) :
    f.group.bit ∈ (fieldParts env true).map FieldPart.bit := by
  show f.group.bit ∈ [udfldSignkey, udfldPasskey, udfldRole, udfldInfo, udfldGname, udfldMobile,
    udfldEmail, udfldProfiles, udfldTags]
  cases f with
  | isInvited | subscription =>
    -- no permission opens these of an exter
    simp [UserScalar.group, UdField.exterMask, hasBits, wrtpedInvited, wrtpedSubscr] at h
  | _ => decide

/-- The parts of a merge leave a record as it is, signing keys aside, if the payload is blank and the
    record has no role where the roles are covered. -/
theorem fieldParts_blank (env : PrepEnv) (name : Bytes) {fields perms : Nat} {old : UserDataT}
    (hrole : hasBits fields udfldRole = true → hasBits perms wrtpedRole = true →
      old.canAddTags = false ∧ old.canAddCategory = false ∧ old.canAddUsers = false ∧
        old.canAddItems = false) :
    ∀ part ∈ fieldParts env true, hasBits fields part.bit = true → hasBits perms part.mask = true →
      ∀ c c', part.set { name := name } c = .ok c' → { c with signkey := old.signkey } = old →
        { c' with signkey := old.signkey } = old := by
  simp only [fieldParts, List.forall_mem_cons, List.not_mem_nil, false_imp_iff, implies_true,
    and_true]
  refine ⟨?_, ?_, ?_, ?_, ?_, ?_, ?_, ?_, ?_⟩ <;> intro hbit hmask c c' hset hc
  · cases hset
    exact hc
  · cases hset
  · cases hset
    obtain ⟨h1, h2, h3, h4⟩ := hrole hbit hmask
    have htags := congrArg UserDataT.canAddTags hc
    have hcat := congrArg UserDataT.canAddCategory hc
    have husers := congrArg UserDataT.canAddUsers hc
    have hitems := congrArg UserDataT.canAddItems hc
    rw [h1] at htags
    rw [h2] at hcat
    rw [h3] at husers
    rw [h4] at hitems
    have htags' : c.canAddTags = false := htags
    have hcat' : c.canAddCategory = false := hcat
    have husers' : c.canAddUsers = false := husers
    have hitems' : c.canAddItems = false := hitems
    rw [htags', hcat', husers', hitems'] at hc
    exact hc
  · cases hset
    exact hc
  · cases hset
    exact hc
  · cases hset
    exact hc
  · cases hset
    exact hc
  · cases hset
    exact hc
  · obtain ⟨tags, htags, hc'⟩ := bind_eq_ok.mp hset
    cases hc'
    obtain ⟨kmap, -, hsame⟩ := bind_eq_ok.mp htags
    cases hsame
    exact hc

end ExterDataService

/-! ## Items -/

namespace ItemDataService

/-- A prepared merge has set the fields. -/
theorem prepareFound_update {env : PrepEnv} {db : DataDb} {keytype : KeyTypeE}
    {updater : ExterDataT} {p old out : ItemDataT} {fields : Nat} {merge : Bool}
    (h : prepareFound env db keytype updater p uactionUpdate fields merge true old =
      .ok (true, out)) :
    setFields fields (itemPerms updater old true uactionUpdate) p
      (fieldParts env db keytype merge) (rememberOld true old) = .ok out := by
  obtain ⟨-, -, ⟨hdel, -⟩ | ⟨-, c, hset, hout⟩⟩ := prepareFound_eq_ok.mp h
  · exact absurd hdel (by decide)
  · rw [hset, hout]
    rfl

/-- Each field of an item has a part. -/
theorem mem_fieldParts (env : PrepEnv) (db : DataDb) (keytype : KeyTypeE) (f : ItemScalar) :
    f.bit ∈ (fieldParts env db keytype true).map FieldPart.bit := by
  rw [fieldParts_bits]
  cases f <;> decide

/-- The parts of a merge leave a record as it is if the payload is blank. -/
theorem fieldParts_blank (env : PrepEnv) (db : DataDb) (keytype : KeyTypeE) (uniqueId : Bytes) :
    ∀ part ∈ fieldParts env db keytype true, ∀ c c',
      part.set { uniqueId := uniqueId } c = .ok c' → c' = c := by
  simp only [fieldParts, List.forall_mem_cons, List.not_mem_nil, false_imp_iff, implies_true,
    and_true]
  refine ⟨?_, ?_, ?_, ?_, ?_, ?_, ?_, ?_, ?_, ?_, ?_, ?_, ?_, ?_, ?_⟩ <;> intro c c' hset
  · cases hset
    rfl
  · cases hset
    rfl
  · obtain ⟨tags, htags, hc'⟩ := bind_eq_ok.mp hset
    cases hc'
    obtain ⟨kmap, -, hsame⟩ := bind_eq_ok.mp htags
    cases hsame
    rfl
  · cases hset
    rfl
  · cases hset
    rfl
  · cases hset
    rfl
  · cases hset
    rfl
  · cases hset
    rfl
  · simp [handleAnother, bind, Except.bind, pure, Except.pure] at hset
    exact hset.symm
  · simp [handleAnother, bind, Except.bind, pure, Except.pure] at hset
    exact hset.symm
  · simp at hset
    exact hset.symm
  · simp at hset
    exact hset.symm
  · cases hset
    rfl
  · simp at hset
    exact hset.symm
  · simp [handleUserAttr, userAttrLoop] at hset
    exact hset.symm

end ItemDataService

/-! ## What a merge makes of a stored record -/

/-- The time stamp is none of the fields. -/
theorem UserScalar.value_updatedAt (f : UserScalar) (r : UserDataT) (t : Nat) :
    f.value { r with updatedAt := t } = f.value r := by
  cases f <;> rfl

/-- The time stamp is none of the fields. -/
theorem ItemScalar.value_updatedAt (f : ItemScalar) (r : ItemDataT) (t : Nat) :
    f.value { r with updatedAt := t } = f.value r := by
  cases f <;> rfl

/-- Nor are the names it remembers. -/
theorem ItemScalar.value_rememberOld (f : ItemScalar) (r : ItemDataT) :
    f.value (ItemDataService.rememberOld true r) = f.value r := by
  cases f <;> rfl

/-- A covered field of a stored user is handled its way. -/
theorem UserDataService.made_value {db : DataDb} (hok : service.TableOk db) {m : Manage}
    (hact : m.action = uactionUpdate) (hmerge : m.merge = true) {p old : UserDataT} {penv : PrepEnv}
    {c : Change UserDataT} (hc : service.Made m db (p, penv) c)
    (hold : service.stored db p = some old) {f : UserScalar}
    (hcov : hasBits m.fields f.group.bit = true ∧
      hasBits (userPerms m.updater old true uactionUpdate) f.group.userMask = true) :
    f.value c.record = f.handling.apply (f.value p) (f.value old) := by
  obtain ⟨out, hout, hrec⟩ := made_found hok hc hold
  rw [hact, hmerge] at hout
  have hval := setFields_values (nodup_fieldParts penv) (fieldParts_handles penv)
    (fieldParts_mask penv) (prepareFound_update hout) (mem_fieldParts penv hcov.2) hcov.1 hcov.2
  rw [hrec]
  exact (UserScalar.value_updatedAt f out m.currtime).trans hval

/-- And so is one of an exter. -/
theorem ExterDataService.made_value {db : DataDb} (hok : service.TableOk db) {m : Manage}
    (hact : m.action = uactionUpdate) (hmerge : m.merge = true) {p old : ExterDataT} {penv : PrepEnv}
    {c : Change ExterDataT} (hc : service.Made m db (p, penv) c)
    (hold : service.stored db p = some old) {f : UserScalar}
    (hcov : hasBits m.fields f.group.bit = true ∧
      hasBits (exterPerms m.updater p) f.group.exterMask = true) :
    f.value c.record = f.handling.apply (f.value p) (f.value old) := by
  obtain ⟨out, hout, hrec⟩ := made_found hok hc hold
  rw [hact, hmerge] at hout
  have hval := setFields_values (nodup_fieldParts penv) (fieldParts_handles penv)
    (fieldParts_mask penv) (prepareFound_update hout) (mem_fieldParts penv hcov.2) hcov.1 hcov.2
  rw [hrec]
  exact (UserScalar.value_updatedAt f out m.currtime).trans hval

/-- A covered field of a stored item is merged. -/
theorem ItemDataService.made_value {pkey ukey : KeyTypeE}
    (hlaw : (service (itemTable pkey ukey) ukey).Lawful) {db : DataDb}
    (hok : (service (itemTable pkey ukey) ukey).TableOk db) {m : Manage}
    (hact : m.action = uactionUpdate) (hmerge : m.merge = true) {p old : ItemDataT} {penv : PrepEnv}
    {c : Change ItemDataT} (hc : (service (itemTable pkey ukey) ukey).Made m db (p, penv) c)
    (hold : (service (itemTable pkey ukey) ukey).stored db p = some old) {f : ItemScalar}
    (hcov : hasBits m.fields f.bit = true ∧
      hasBits (itemPerms m.updater old true uactionUpdate) wrtpid = true) :
    f.value c.record = Handling.merged.apply (f.value p) (f.value old) := by
  obtain ⟨out, hout, hrec⟩ := made_found hlaw hok hc hold
  rw [hact, hmerge] at hout
  have hval := setFields_values (nodup_fieldParts penv db pkey true) (fieldParts_handles penv db pkey)
    (fun part hpart _ _ => fieldParts_mask penv db pkey true part hpart) (prepareFound_update hout)
    (mem_fieldParts penv db pkey f) hcov.1 hcov.2
  rw [hrec, f.value_updatedAt, hval, f.value_rememberOld]

/-- **A covered field** of a stored record is handled its way. -/
theorem RecKind.made_value {k : RecKind} {db : DataDb} (hok : StoreOk db) {m : Manage}
    (hact : m.action = uactionUpdate) (hmerge : m.merge = true) {p old : k.Rec} {penv : PrepEnv}
    {c : Change k.Rec} (hc : k.service.Made m db (p, penv) c)
    (hold : k.service.stored db p = some old) {f : k.Scalar}
    (hcov : k.Covers m.fields m.updater p old f) :
    k.value f c.record = (k.handling f).apply (k.value f p) (k.value f old) := by
  cases k with
  | user => exact UserDataService.made_value (hok .user) hact hmerge hc hold hcov
  | exter => exact ExterDataService.made_value (hok .exter) hact hmerge hc hold hcov
  | localdata =>
    exact ItemDataService.made_value ItemDataService.localService_lawful (hok .localdata) hact hmerge
      hc hold hcov
  | wikidata =>
    exact ItemDataService.made_value ItemDataService.wikiService_lawful (hok .wikidata) hact hmerge
      hc hold hcov
  | tag =>
    rw [TagDataService.made_found (hok .tag) hc hold]
    exact TagDataService.fillRecord_value hact p old f
  | category =>
    rw [CategoryService.made_found (hok .category) hc hold]
    exact CategoryService.fillRecord_value hact hmerge p old f

/-- A user's name alone changes the signing key at most, if the invitation is not covered or not
    set. -/
theorem UserDataService.made_unchanged {db : DataDb} (hok : service.TableOk db) {m : Manage}
    (hact : m.action = uactionUpdate) (hmerge : m.merge = true) {p old : UserDataT} {penv : PrepEnv}
    {c : Change UserDataT} (hc : service.Made m db (p, penv) c)
    (hold : service.stored db p = some old) (hkey : p = { name := p.name })
    (hinv : hasBits m.fields udfldInvited = true →
      hasBits (userPerms m.updater old true uactionUpdate) wrtpudInvited = true →
        old.isInvited = false) :
    c.record = { old with signkey := c.record.signkey, updatedAt := c.record.updatedAt } := by
  obtain ⟨out, hout, hrec⟩ := made_found hok hc hold
  rw [hact, hmerge] at hout
  have hset := prepareFound_update hout
  rw [hkey] at hset
  have hsame := setFields_keeps (P := fun c : UserDataT => { c with signkey := old.signkey } = old)
    (fieldParts_blank penv _ hinv) hset rfl
  rw [hrec, ← hsame]

/-- And so does an exter's, if the privileges are not covered or not set. -/
theorem ExterDataService.made_unchanged {db : DataDb} (hok : service.TableOk db) {m : Manage}
    (hact : m.action = uactionUpdate) (hmerge : m.merge = true) {p old : ExterDataT} {penv : PrepEnv}
    {c : Change ExterDataT} (hc : service.Made m db (p, penv) c)
    (hold : service.stored db p = some old) (hkey : p = { name := p.name })
    (hrole : hasBits m.fields udfldRole = true →
      hasBits (exterPerms m.updater p) wrtpedRole = true →
        old.canAddTags = false ∧ old.canAddCategory = false ∧ old.canAddUsers = false ∧
          old.canAddItems = false) :
    c.record = { old with signkey := c.record.signkey, updatedAt := c.record.updatedAt } := by
  obtain ⟨out, hout, hrec⟩ := made_found hok hc hold
  rw [hact, hmerge] at hout
  have hset := prepareFound_update hout
  rw [hkey] at hset hrole
  have hsame := setFields_keeps (P := fun c : ExterDataT => { c with signkey := old.signkey } = old)
    (fieldParts_blank penv _ hrole) hset rfl
  rw [hrec, ← hsame]

/-- An item's id alone changes nothing but the copy of the old item. -/
theorem ItemDataService.made_unchanged {pkey ukey : KeyTypeE}
    (hlaw : (service (itemTable pkey ukey) ukey).Lawful) {db : DataDb}
    (hok : (service (itemTable pkey ukey) ukey).TableOk db) {m : Manage}
    (hact : m.action = uactionUpdate) (hmerge : m.merge = true) {p old : ItemDataT} {penv : PrepEnv}
    {c : Change ItemDataT} (hc : (service (itemTable pkey ukey) ukey).Made m db (p, penv) c)
    (hold : (service (itemTable pkey ukey) ukey).stored db p = some old)
    (hkey : p = { uniqueId := p.uniqueId }) :
    c.record = { old with
      olddata := { origin := old.origin, categories := old.categories }
      updatedAt := c.record.updatedAt } := by
  obtain ⟨out, hout, hrec⟩ := made_found hlaw hok hc hold
  rw [hact, hmerge] at hout
  have hset := prepareFound_update hout
  rw [hkey] at hset
  have hsame : out = rememberOld true old := by
    refine setFields_keeps (P := fun c => c = rememberOld true old) ?_ hset rfl
    intro part hpart _ _ c c' hset' hc'
    exact (fieldParts_blank penv db pkey p.uniqueId part hpart c c' hset').trans hc'
  rw [hrec, hsame]
  rfl

/-- A tag is left as it is if all its fields are those of the payload. -/
theorem TagDataService.made_unchanged {db : DataDb} (hok : service.TableOk db) {m : Manage}
    (hact : m.action = uactionUpdate) {p old : TagDataT} {penv : PrepEnv} {c : Change TagDataT}
    (hc : service.Made m db (p, penv) c) (hold : service.stored db p = some old)
    (hval : ∀ f : TagScalar, f.value old = f.value p) :
    c.record = { old with updatedAt := c.record.updatedAt } := by
  have hdel : m.action ≠ uactionDelete := by
    rw [hact]
    decide
  rw [made_found hok hc hold, fillRecord, if_neg hdel]
  simp only [← ScalarV.num.inj (hval .lang), ← ScalarV.flag.inj (hval .isAllowed),
    ← ScalarV.flag.inj (hval .isRepeated), ← ScalarV.flag.inj (hval .isSearchable),
    ← ScalarV.flag.inj (hval .isDeleted)]
  rfl

/-- A category's name alone changes nothing, if the price and the mark of deletion are not set. -/
theorem CategoryService.made_unchanged {db : DataDb} (hok : service.TableOk db) {m : Manage}
    (hact : m.action = uactionUpdate) (hmerge : m.merge = true) {p old : CategoryT} {penv : PrepEnv}
    {c : Change CategoryT} (hc : service.Made m db (p, penv) c)
    (hold : service.stored db p = some old) (hkey : p = { name := p.name })
    (hprice : old.canseePrice = 0) (hflag : old.isDeleted = false) :
    c.record = { old with updatedAt := c.record.updatedAt } := by
  have hdel : m.action ≠ uactionDelete := by
    rw [hact]
    decide
  rw [made_found hok hc hold, fillRecord, if_neg hdel, hmerge, hkey]
  simp [← hprice, ← hflag]

/-- **A payload with nothing but a key** leaves a stored record as it is, if no covered field makes a
    difference. -/
theorem RecKind.made_unchanged {k : RecKind} {db : DataDb} (hok : StoreOk db) {m : Manage}
    (hact : m.action = uactionUpdate) (hmerge : m.merge = true) {p old : k.Rec} {penv : PrepEnv}
    {c : Change k.Rec} (hc : k.service.Made m db (p, penv) c)
    (hold : k.service.stored db p = some old) (hkey : k.KeyOnly p)
    (hagree : ∀ f, k.Covers m.fields m.updater p old f →
      (k.handling f).Agrees (k.value f p) (k.value f old)) :
    k.Unchanged old c.record := by
  cases k with
  | user =>
    refine UserDataService.made_unchanged (hok .user) hact hmerge hc hold hkey fun hbit hmask => ?_
    have hkey' : p = { name := UserDataT.name p } := hkey
    have hflag := hagree UserScalar.isInvited ⟨hbit, hmask⟩ (by rw [hkey']; rfl)
    rw [hkey'] at hflag
    exact ScalarV.flag.inj hflag
  | exter =>
    refine ExterDataService.made_unchanged (hok .exter) hact hmerge hc hold hkey fun hbit hmask => ?_
    have hkey' : p = { name := UserDataT.name p } := hkey
    have hflag : ∀ f : UserScalar, f.group = .role → f.value old = .flag false := by
      intro f hf
      have hcov : RecKind.exter.Covers m.fields m.updater p old f := by
        show hasBits m.fields f.group.bit = true ∧ _
        rw [hf]
        exact ⟨hbit, hmask⟩
      have hagr := hagree f hcov
      rw [hkey'] at hagr
      cases f <;> first | exact hagr rfl | cases hf
    exact ⟨ScalarV.flag.inj (hflag .canAddTags rfl), ScalarV.flag.inj (hflag .canAddCategory rfl),
      ScalarV.flag.inj (hflag .canAddUsers rfl), ScalarV.flag.inj (hflag .canAddItems rfl)⟩
  | localdata =>
    exact ItemDataService.made_unchanged ItemDataService.localService_lawful (hok .localdata) hact
      hmerge hc hold hkey
  | wikidata =>
    exact ItemDataService.made_unchanged ItemDataService.wikiService_lawful (hok .wikidata) hact
      hmerge hc hold hkey
  | tag =>
    refine TagDataService.made_unchanged (hok .tag) hact hc hold fun f => ?_
    have hkey' : p = { name := TagDataT.name p, keytype := TagDataT.keytype p } := hkey
    have hagr := hagree f trivial
    rw [hkey'] at hagr ⊢
    cases f <;> exact hagr rfl
  | category =>
    have hkey' : p = { name := CategoryT.name p } := hkey
    refine CategoryService.made_unchanged (hok .category) hact hmerge hc hold hkey ?_ ?_
    · have hagr := hagree CategoryScalar.canseePrice trivial
      rw [hkey'] at hagr
      exact ScalarV.real.inj (hagr (Or.inr rfl))
    · have hagr := hagree CategoryScalar.isDeleted trivial
      rw [hkey'] at hagr
      exact ScalarV.flag.inj (hagr (Or.inr rfl))

/-- A store with a tag. -/
def redStore : OrderedStore :=
  (OrderedStore.withExter desk).manageDataAction (k := .tag) deskEnv
    { username := str "desk", sessionkey := str "k", action := .wCreate
      payload := { keytype := kUserdata, name := str "red", isAllowed := true } }

/-- A merge of a tag. -/
def mergeTag (p : TagDataT) : RespT TagDataT where
  username := str "desk"
  sessionkey := str "k"
  action := .wUmerge
  payload := p

/-- A merge of a user's description. -/
def mergeAnn : RespT UserDataT where
  username := str "desk"
  sessionkey := str "k"
  action := .wUmerge
  keytype := kExterdata
  fields := udfldInfo
  payload := { name := str "ann", description := str "d" }

end Zapdos.Store
