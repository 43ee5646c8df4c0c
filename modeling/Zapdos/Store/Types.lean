/-
  The stored messages — the protobuf records of the store, as Lean structures.

  Proto3 enumerations are open (any integer is kept on the wire), so the enumerations that the
  store only copies stay `Int`; key types, which the code casts to and from integers when it walks
  them, are `Nat` with the named constants below.  `std::string` is a byte string.  A `double` is
  only copied and compared with zero, and is kept as a rational.
-/
import Mathlib.Data.Rat.Defs
import Mathlib.Order.Defs.LinearOrder
import Zapdos.Lib.Ctype

namespace Zapdos.Store

/-- `std::string`. -/
abbrev Bytes := List UInt8

/-- A literal of the source. -/
def str (s : String) : Bytes := s.toList.map Lib.chr

/-- Strings compare byte by byte. -/
instance linearOrderUInt8 : LinearOrder UInt8 where
  le_refl := UInt8.le_refl
  le_trans _ _ _ := UInt8.le_trans
  le_antisymm _ _ := UInt8.le_antisymm
  le_total := UInt8.le_total
  lt_iff_le_not_ge a b := by
    rw [UInt8.lt_iff_toNat_lt, UInt8.le_iff_toNat_le, UInt8.le_iff_toNat_le]
    omega
  toDecidableLE := inferInstance
  toDecidableEq := inferInstance
  toDecidableLT := inferInstance

instance lawfulBEqUInt8 : LawfulBEq UInt8 := inferInstance

instance lawfulBEqBytes : LawfulBEq Bytes := inferInstance

/-! ## Key types -/

/-- `KeyTypeE`. -/
abbrev KeyTypeE := Nat

def kNonode : KeyTypeE := 10
def kTagdata : KeyTypeE := 11
def kExterdata : KeyTypeE := 12
def kUserdata : KeyTypeE := 13
def kCategory : KeyTypeE := 15
def kLocaldata : KeyTypeE := 16
def kWikidata : KeyTypeE := 17
def kLognode : KeyTypeE := 49
def kMaxnode : KeyTypeE := 50
def iLognodeTs : KeyTypeE := 52
def uTagdataKeytypeName : KeyTypeE := 53
def uExterdataName : KeyTypeE := 54
def uUserdataName : KeyTypeE := 55
def fUserdataNameCategory : KeyTypeE := 56
def uCategoryName : KeyTypeE := 62
def uLocaldataUniqueid : KeyTypeE := 71
def uWikidataUniqueid : KeyTypeE := 72

/-! ## Parts of records -/

/-- Keys of a signer. -/
structure SignKeyT where
  pubkey : Bytes := []
  seckey : Bytes := []
  algo : Bytes := []
  identifier : Bytes := []
  deriving DecidableEq, Repr, Inhabited

/-- A verified contact. -/
structure VerifiedT where
  vtype : Int := 0
  data : Bytes := []
  verifiedAt : Nat := 0
  countrycode : Bytes := []
  canContact : Bool := false
  deriving DecidableEq, Repr, Inhabited

/-- One rule of a search profile. -/
structure QueryRuleT where
  weight : Nat := 0
  maxRecords : Nat := 0
  onewordLength : Nat := 0
  desc : Bytes := []
  distanceDef : Rat := 0
  distanceBand : Int := 0
  limitType : Int := 0
  searchType : Int := 0
  orderType : Int := 0
  inputType : Int := 0
  deriving DecidableEq, Repr, Inhabited

/-- A search profile. -/
structure QueryProfT where
  queryType : Int := 0
  rules : List QueryRuleT := []
  deriving DecidableEq, Repr, Inhabited

/-- Origin and categories an item had before its last change. -/
structure CatHostT where
  origin : Bytes := []
  categories : List Bytes := []
  deriving DecidableEq, Repr, Inhabited

/-! ## Records -/

/-- A tag. -/
structure TagDataT where
  id : Nat := 0
  keytype : KeyTypeE := 0
  name : Bytes := []
  value : Bytes := []
  values : List Bytes := []
  lang : Int := 0
  isAllowed : Bool := false
  isRepeated : Bool := false
  isSearchable : Bool := false
  manager : Bytes := []
  isDeleted : Bool := false
  createdAt : Nat := 0
  updatedAt : Nat := 0
  notfound : Bool := false
  deriving DecidableEq, Repr, Inhabited

/-- A category. -/
structure CategoryT where
  id : Nat := 0
  name : Bytes := []
  description : Bytes := []
  original : Bytes := []
  lang : Int := 0
  canseeType : Int := 0
  canseePrice : Rat := 0
  manager : Bytes := []
  isDeleted : Bool := false
  createdAt : Nat := 0
  updatedAt : Nat := 0
  notfound : Bool := false
  deriving DecidableEq, Repr, Inhabited

/-- A user; `ExterDataT` is the same message. -/
structure UserDataT where
  id : Nat := 0
  name : Bytes := []
  signkey : SignKeyT := {}
  passkey : Bytes := []
  sessionkey : Bytes := []
  lang : Int := 0
  description : Bytes := []
  subscription : Int := 0
  lastOtp : Bytes := []
  contacts : List VerifiedT := []
  primaryMobile : Bytes := []
  primaryEmail : Bytes := []
  profiles : List QueryProfT := []
  givenName : Bytes := []
  isInvited : Bool := false
  tags : List TagDataT := []
  categories : List Bytes := []
  isAdmin : Bool := false
  canAddUsers : Bool := false
  canAddTags : Bool := false
  canAddCategory : Bool := false
  canAddItems : Bool := false
  canAddProfiles : Bool := false
  reindex : Bool := false
  keytype : KeyTypeE := 0
  expired : Bool := false
  locked : Bool := false
  manager : Bytes := []
  isDeleted : Bool := false
  createdAt : Nat := 0
  updatedAt : Nat := 0
  notfound : Bool := false
  deriving DecidableEq, Repr, Inhabited

/-- `using ExterDataT = UserDataT`. -/
abbrev ExterDataT := UserDataT

/-- What a parent or alias link of an item carries: the store only sets its `id`, and looks the
    linked item up by `uniqueId` and `keytype`. -/
structure ItemLinkT where
  id : Nat := 0
  uniqueId : Bytes := []
  keytype : KeyTypeE := 0
  deriving DecidableEq, Repr, Inhabited

/-- An item (local data or wiki data). -/
structure ItemDataT where
  id : Nat := 0
  uniqueId : Bytes := []
  olddata : CatHostT := {}
  origin : Bytes := []
  categories : List Bytes := []
  breadcrumb : Bytes := []
  breadcrumbs : List Bytes := []
  lang : Int := 0
  title : Bytes := []
  summary : Bytes := []
  details : Bytes := []
  tags : List TagDataT := []
  attr : List TagDataT := []
  canseeType : Int := 0
  thumbnail : Bytes := []
  poster : Bytes := []
  posters : List Bytes := []
  landscape : Bytes := []
  aliasOf : ItemLinkT := {}
  parent : ItemLinkT := {}
  importance : Rat := 0
  contacts : List VerifiedT := []
  localName : Bytes := []
  ccode : Bytes := []
  scode : Bytes := []
  city : Bytes := []
  country : Bytes := []
  state : Bytes := []
  suggest : Bytes := []
  fldName : Bytes := []
  fldArea : Bytes := []
  address : Bytes := []
  pincode : Bytes := []
  region : Bytes := []
  accuracy : Rat := 0
  lat : Rat := 0
  lon : Rat := 0
  geohash9 : Bytes := []
  location : Bytes := []
  landmark : Bytes := []
  osmId : Int := 0
  osmKey : Bytes := []
  osmValue : Bytes := []
  osmType : Bytes := []
  geometry : Bytes := []
  rating : Rat := 0
  matchedQueries : List Bytes := []
  score : Rat := 0
  reindex : Bool := false
  keytype : KeyTypeE := 0
  expired : Bool := false
  locked : Bool := false
  manager : Bytes := []
  isDeleted : Bool := false
  createdAt : Nat := 0
  updatedAt : Nat := 0
  notfound : Bool := false
  deriving DecidableEq, Repr, Inhabited

/-- A node of an index row. -/
structure NodeT where
  keytype : KeyTypeE := 0
  id : Nat := 0
  deriving DecidableEq, Repr, Inhabited

/-! ## Exceptions -/

/-- The exception classes the store throws. -/
inductive ExcKind
  | badData | badCode | initial
  /-- a class that is neither under `BaseException` nor under `std::exception` -/
  | other
  deriving DecidableEq, Repr

/-- `M_UNKNOWN`. -/
def mUnknown : Nat := 101

/-- `M_INVALID_PARAM`. -/
def mInvalidParam : Nat := 104

/-- An exception with its text and its code. -/
structure Exc where
  kind : ExcKind
  msg : Bytes
  ecode : Nat := 0
  deriving DecidableEq, Repr

/-- `throw BadDataException(msg,ecode)`. -/
def badData {α : Type*} (msg : String) (ecode : Nat := 0) : Except Exc α :=
  .error ⟨.badData, str msg, ecode⟩

/-- `throw BadDataException(msg + name,ecode)`. -/
def badDataOf {α : Type*} (msg : String) (name : Bytes) (ecode : Nat := 0) : Except Exc α :=
  .error ⟨.badData, str msg ++ name, ecode⟩

/-- `Xapian::Error`: no clause that names a class catches it, so its text is lost. -/
def xapianError : Exc := ⟨.other, [], 0⟩

/-- `throw BadCodeException(msg)`. -/
def badCode {α : Type*} (msg : String) : Except Exc α := .error ⟨.badCode, str msg, 0⟩

/-- `throw InitialException(msg,ecode)`. -/
def initialExc {α : Type*} (msg : String) (ecode : Nat := 0) : Except Exc α :=
  .error ⟨.initial, str msg, ecode⟩

/-- A sequence of two fallible steps succeeds when both do. -/
theorem bind_eq_ok {A B : Type} {x : Except Exc A} {f : A → Except Exc B} {b : B} :
    (x >>= f) = .ok b ↔ ∃ a, x = .ok a ∧ f a = .ok b := by
  cases x with
  | error e => simp [bind, Except.bind]
  | ok a => simp [bind, Except.bind]

/-- A check and what follows it. -/
theorem check_eq_ok {B : Type} {x : Except Exc Unit} {y : Unit → Except Exc B} {b : B} :
    (x >>= y) = .ok b ↔ x = .ok () ∧ y () = .ok b := by
  rw [bind_eq_ok]
  exact ⟨fun ⟨(), h⟩ => h, fun h => ⟨(), h⟩⟩

end Zapdos.Store
