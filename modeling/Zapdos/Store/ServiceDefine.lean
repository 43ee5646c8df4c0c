/-
  Access rules — the actions, permissions, field bits and masks of `ServiceDefine.hh`, the filters
  that read them from a request, and the normal forms of names (`StoreBase`).

  An `int32_t` mask is kept as its bit pattern, a natural number.
-/
import Mathlib.Data.Nat.Basic
import Zapdos.Store.SharedTable

namespace Zapdos.Store

open Zapdos.Lib

/-- `x & mask` as a condition. -/
def hasBits (x mask : Nat) : Bool := decide (x &&& mask ≠ 0)

/-! ## Actions -/

def uactionCreate : Nat := 0x00001
def uactionUpsert : Nat := 0x00002
def uactionUpdate : Nat := 0x00004
def uactionDelete : Nat := 0x00008

/-- `WriteTypeE`; the enumeration is open. -/
inductive WriteTypeE
  | wNone | wCreate | wUpsert | wUpdate | wDelete | wUmerge
  | other (n : Nat)
  deriving DecidableEq, Repr

/-- `WriteActionFilter`: the action, and whether it merges. -/
def writeActionFilter (writetype : WriteTypeE) : Except Exc (Nat × Bool) :=
  match writetype with
  | .wCreate => .ok (uactionCreate, false)
  | .wUpsert => .ok (uactionUpsert, false)
  | .wUpdate => .ok (uactionUpdate, false)
  | .wUmerge => .ok (uactionUpdate, true)
  | .wDelete => .ok (uactionDelete, false)
  | _ => badData "invalid action" mInvalidParam

/-! ## Permissions -/

/-- user or exter is self -/
def writrIsSelf : Nat := 0x00001
/-- exter is admin -/
def writrIsAdmin : Nat := 0x00002
/-- exter with user new -/
def writrCreating : Nat := 0x00004
/-- exter with user -/
def writrUpdating : Nat := 0x00008
/-- exter with user -/
def writrDeleting : Nat := 0x00010

/-- user or exter is self -/
def readrIsSelf : Nat := 0x00001
/-- exter is admin -/
def readrIsAdmin : Nat := 0x00002
/-- exter who created -/
def readrIsCreatr : Nat := 0x00004
/-- another exter non admin -/
def readrIsExter : Nat := 0x00008
/-- other user not self -/
def readrIsUser : Nat := 0x00010
/-- generic data -/
def readrIsPublic : Nat := 0x00020

/-- `ReaderTypeE`, the classes of readers; the code never takes one from outside. -/
inductive ReaderTypeE
  | rNone | rSelf | rAdmin | rCreatr | rOther | rUser | rPublic
  deriving DecidableEq, Repr

/-- `ReaderTypeFilter`: the permission of a class. -/
def readerTypeFilter : ReaderTypeE → Nat
  | .rNone => 0
  | .rSelf => readrIsSelf
  | .rAdmin => readrIsAdmin
  | .rCreatr => readrIsCreatr
  | .rOther => readrIsExter
  | .rUser => readrIsUser
  | .rPublic => readrIsPublic

/-! ## Fields of `UserDataT` and `ExterDataT` -/

def udfldSignkey : Nat := 0x00001
def udfldPasskey : Nat := 0x00002
def udfldRole : Nat := 0x00004
def udfldInfo : Nat := 0x00008
def udfldGname : Nat := 0x00010
def udfldMobile : Nat := 0x00020
def udfldEmail : Nat := 0x00040
def udfldProfiles : Nat := 0x00080
def udfldInvited : Nat := 0x00100
def udfldTags : Nat := 0x00200
def udfldSubscr : Nat := 0x00400
def udfldCategories : Nat := 0x00800

/-! `UserDataT` update permissions -/

def wrtpudSignkey : Nat := writrIsAdmin ||| writrCreating
def wrtpudPasskey : Nat := writrIsAdmin ||| writrCreating
def wrtpudRole : Nat := 0x00000
def wrtpudInfo : Nat := writrIsAdmin ||| writrIsSelf ||| writrCreating ||| writrUpdating
def wrtpudGname : Nat := writrIsAdmin ||| writrIsSelf ||| writrCreating ||| writrUpdating
def wrtpudMobile : Nat := writrIsAdmin ||| writrIsSelf ||| writrCreating ||| writrUpdating
def wrtpudEmail : Nat := writrIsAdmin ||| writrIsSelf ||| writrCreating ||| writrUpdating
def wrtpudProfiles : Nat := 0x00000
def wrtpudInvited : Nat := writrIsAdmin ||| writrCreating ||| writrUpdating
def wrtpudTags : Nat := writrIsAdmin ||| writrCreating ||| writrUpdating
def wrtpudSubscr : Nat := writrIsAdmin ||| writrCreating ||| writrUpdating
def wrtpudCategories : Nat := writrIsAdmin ||| writrCreating ||| writrUpdating

/-! `UserDataT` read permissions -/

def readudSignkey : Nat := readrIsAdmin
def readudPasskey : Nat := readrIsAdmin
def readudRole : Nat := 0x00000
def readudInfo : Nat := readrIsAdmin ||| readrIsSelf ||| readrIsCreatr ||| readrIsExter
def readudGname : Nat := readrIsAdmin ||| readrIsSelf ||| readrIsCreatr ||| readrIsExter
def readudMobile : Nat := readrIsAdmin ||| readrIsSelf ||| readrIsCreatr
def readudEmail : Nat := readrIsAdmin ||| readrIsSelf ||| readrIsCreatr
def readudProfiles : Nat := 0x00000
def readudInvited : Nat := readrIsAdmin ||| readrIsSelf ||| readrIsCreatr ||| readrIsExter
def readudTags : Nat := readrIsAdmin ||| readrIsSelf ||| readrIsCreatr ||| readrIsExter
def readudSubscr : Nat := readrIsAdmin ||| readrIsSelf ||| readrIsCreatr ||| readrIsExter
def readudCategories : Nat := readrIsAdmin ||| readrIsSelf ||| readrIsCreatr ||| readrIsExter

/-! `ExterDataT` update permissions -/

def wrtpedSignkey : Nat := writrIsAdmin
def wrtpedPasskey : Nat := writrIsAdmin
def wrtpedRole : Nat := writrIsAdmin
def wrtpedInfo : Nat := writrIsAdmin ||| writrIsSelf
def wrtpedGname : Nat := writrIsAdmin ||| writrIsSelf
def wrtpedMobile : Nat := writrIsAdmin ||| writrIsSelf
def wrtpedEmail : Nat := writrIsAdmin ||| writrIsSelf
def wrtpedProfiles : Nat := writrIsAdmin ||| writrIsSelf
def wrtpedInvited : Nat := 0x00000
def wrtpedTags : Nat := writrIsAdmin
def wrtpedSubscr : Nat := 0x00000
def wrtpedCategories : Nat := writrIsAdmin

/-! `ExterDataT` read permissions -/

def readedSignkey : Nat := readrIsAdmin
def readedPasskey : Nat := readrIsAdmin
def readedRole : Nat := readrIsAdmin ||| readrIsSelf
def readedInfo : Nat := readrIsAdmin ||| readrIsSelf
def readedGname : Nat := readrIsAdmin ||| readrIsSelf
def readedMobile : Nat := readrIsAdmin ||| readrIsSelf
def readedEmail : Nat := readrIsAdmin ||| readrIsSelf
def readedProfiles : Nat := readrIsAdmin ||| readrIsSelf
def readedInvited : Nat := 0x00000
def readedTags : Nat := readrIsAdmin ||| readrIsSelf
def readedSubscr : Nat := 0x00000
def readedCategories : Nat := readrIsAdmin ||| readrIsSelf

/-! ## Fields of `ItemDataT` -/

def idfldTextfields : Nat := 0x00001
def idfldCansee : Nat := 0x00002
def idfldLanguage : Nat := 0x00004
def idfldTags : Nat := 0x00008
def idfldContacts : Nat := 0x00010
def idfldImages : Nat := 0x00020
def idfldVersions : Nat := 0x00040
def idfldParent : Nat := 0x00080
def idfldAlias : Nat := 0x00100
def idfldCategory : Nat := 0x00200
def idfldOrigin : Nat := 0x00400
def idfldLocalfields : Nat := 0x00800
def idfldOsmfields : Nat := 0x01000
def idfldImportance : Nat := 0x02000
def idfldGeometry : Nat := 0x04000
def idfldRating : Nat := 0x08000

/-- All the `ZPDS_WRTPID_*` permissions of items are this one. -/
def wrtpid : Nat := writrIsAdmin ||| writrCreating ||| writrUpdating

/-! ## Field filters -/

/-- The body of every `AllowedFieldsFilter`: add up the bits of the update that are on the list. -/
def keepFields (bits : List Nat) (update : Nat) : Nat :=
  bits.foldl (fun xupdate bit => if hasBits update bit then xupdate + bit else xupdate) 0

/-- `UserDataService::AllowedFieldsFilter`. -/
def userAllowedFieldsFilter (update : Nat) : Nat :=
  keepFields [udfldSignkey, udfldPasskey, udfldInfo, udfldGname, udfldMobile, udfldEmail,
    udfldInvited, udfldTags, udfldSubscr, udfldCategories] update

/-- `ExterDataService::AllowedFieldsFilter`. -/
def exterAllowedFieldsFilter (update : Nat) : Nat :=
  keepFields [udfldSignkey, udfldPasskey, udfldRole, udfldInfo, udfldGname, udfldMobile,
    udfldEmail, udfldProfiles, udfldTags] update

/-- `LocalDataService::AllowedFieldsFilter`. -/
def localAllowedFieldsFilter (update : Nat) : Nat :=
  keepFields [idfldCansee, idfldTags, idfldContacts, idfldImages, idfldVersions, idfldParent,
    idfldCategory, idfldOrigin, idfldLocalfields, idfldOsmfields, idfldImportance, idfldGeometry,
    idfldRating] update

/-- `WikiDataService::AllowedFieldsFilter`. -/
def wikiAllowedFieldsFilter (update : Nat) : Nat :=
  keepFields [idfldTextfields, idfldCansee, idfldTags, idfldContacts, idfldImages, idfldVersions,
    idfldParent, idfldCategory, idfldOrigin, idfldLocalfields, idfldImportance, idfldGeometry,
    idfldRating] update

/-- The role bit passes the filter of exters only if the request has it. -/
theorem hasBits_role_of_exterFilter {update : Nat}
    (h : hasBits (exterAllowedFieldsFilter update) udfldRole = true) :
    hasBits update udfldRole = true := by
  by_contra hrole
  have hrole' : hasBits update udfldRole = false := by simpa using hrole
  have hnone : ∀ b1 b2 b4 b5 b6 b7 b8 b9 : Bool,
      let add (b : Bool) (bit x : Nat) : Nat := if b then x + bit else x
      hasBits (add b9 udfldTags (add b8 udfldProfiles (add b7 udfldEmail (add b6 udfldMobile
        (add b5 udfldGname (add b4 udfldInfo (add b2 udfldPasskey (add b1 udfldSignkey 0))))))))
        udfldRole = false := by decide
  simp only [exterAllowedFieldsFilter, keepFields, List.foldl_cons, List.foldl_nil, hrole',
    Bool.false_eq_true, if_false] at h
  rw [hnone] at h
  cases h

/-! ## Names -/

/-- `ZPDS_FORBIDDEN_USERNAMES`. -/
def forbiddenUsernames : List Bytes := [str "admin", str "root", str "superuser", str "system"]

/-- `ZPDS_DEFAULT_ADMIN`. -/
def defaultAdmin : Bytes := str "admin"

/-- `SanitNSLower`: lowercase, no space, only the punctuation `-`, `.` and `_`. -/
def sanitNSLower (orig : Bytes) : Bytes :=
  orig.flatMap fun c =>
    if isAlnum c then [toLower c]
    else if c = 45 ∨ c = 46 ∨ c = 95 then [c]
    else []

/-- The loop of `SanitLower`. -/
def sanitLowerLoop : Bytes → Bool → Bytes
  | [], _ => []
  | c :: cs, lastIsSpace =>
    if isAlnum c then toLower c :: sanitLowerLoop cs false
    else if isPunct c then c :: sanitLowerLoop cs false
    else if isSpace c then
      if lastIsSpace then sanitLowerLoop cs true else c :: sanitLowerLoop cs true
    else sanitLowerLoop cs lastIsSpace

/-- `SanitLower(orig, true)`: lowercase, only single spaces and punctuation, ends kept. -/
def sanitLower (orig : Bytes) : Bytes := sanitLowerLoop orig false

end Zapdos.Store
