/-
  Name reservations — `CacheContainer` and `TempNameCache`.

  A write request reserves the names it works on in a cache shared by all requests and gives them
  back when its `TempNameCache` object goes out of scope.  This file has the calls themselves, each
  run to its end.  What the calls guarantee when many requests run at once is the subject of
  `Store.Reservation`.
-/
import Zapdos.Store.SharedTable

namespace Zapdos.Store

open Zapdos.Lib

/-! ## `CacheContainer` -/

namespace CacheContainer

variable {A : Type}

/-- `SetAssoc`. -/
def setAssoc (c : OrdMap Key A) (hash : Key) (assoc : A) (onlyIfExists : Bool) : OrdMap Key A :=
  if onlyIfExists && (c.get hash).isNone then c else c.put hash assoc

/-- `DelAssoc`. -/
def delAssoc (c : OrdMap Key A) (hash : Key) : OrdMap Key A := c.delete hash

/-- `CheckAssoc`. -/
def checkAssoc (c : OrdMap Key A) (hash : Key) : Bool := (c.get hash).isSome

theorem checkAssoc_setAssoc (c : OrdMap Key A) (k k' : Key) (a : A) :
    checkAssoc (setAssoc c k a false) k' = (decide (k' = k) || checkAssoc c k') := by
  simp only [setAssoc, checkAssoc, Bool.false_and, Bool.false_eq_true, if_false, OrdMap.get_put]
  by_cases h : k' = k <;> simp [h]

theorem checkAssoc_delAssoc (c : OrdMap Key A) (k k' : Key) :
    checkAssoc (delAssoc c k) k' = (!decide (k' = k) && checkAssoc c k') := by
  simp only [delAssoc, checkAssoc, OrdMap.get_delete]
  by_cases h : k' = k <;> simp [h]

/-- A key that was not there is set and deleted again. -/
theorem delAssoc_setAssoc {c : OrdMap Key A} {k : Key} (h : c.get k = none) (a : A) :
    delAssoc (setAssoc c k a false) k = c := by
  refine OrdMap.ext fun k' => ?_
  simp only [delAssoc, setAssoc, Bool.false_and, Bool.false_eq_true, if_false, OrdMap.get_delete,
    OrdMap.get_put]
  by_cases hk : k' = k
  · rw [if_pos hk, hk, h]
  · rw [if_neg hk, if_neg hk]

end CacheContainer

/-- What is left once some keys are deleted. -/
theorem get_foldl_delAssoc {A : Type} (keys : List Key) (c : OrdMap Key A) (key : Key) :
    (keys.foldl CacheContainer.delAssoc c).get key = if key ∈ keys then none else c.get key := by
  induction keys generalizing c with
  | nil => simp
  | cons k keys ih =>
    rw [List.foldl_cons, ih, CacheContainer.delAssoc, OrdMap.get_delete]
    by_cases hk : key = k
    · simp [hk]
    · simp [hk]

/-! ## `TempNameCache` -/

/-- The names one request holds. -/
structure TempNameCache where
  inset : List Key := []
  deriving DecidableEq, Repr

namespace TempNameCache

/-- `MakeKey`: the unique key a name of this kind is stored under. -/
def makeKey (keytype : KeyTypeE) (indata : Bytes) : Except Exc Key :=
  if keytype = kTagdata then .ok (encodeSecondaryKey uTagdataKeytypeName indata)
  else if keytype = kCategory then .ok (encodeSecondaryKey uCategoryName indata)
  else if keytype = kExterdata then .ok (encodeSecondaryKey uExterdataName indata)
  else if keytype = kUserdata then .ok (encodeSecondaryKey uUserdataName indata)
  else if keytype = kLocaldata then .ok (encodeSecondaryKey uLocaldataUniqueid indata)
  else if keytype = kWikidata then .ok (encodeSecondaryKey uWikidataUniqueid indata)
  else badCode "Invalid keytype to check"

/-- `CheckKeyExists`. -/
def checkKeyExists (db : DataDb) (key : Key) : Bool := (db.get key).isSome

/-- The common end of `ReserveName` and `MultiTypeLock`: check the key, then take it. -/
def acquire (st : SharedTable) (nc : TempNameCache) (xdata : Key) :
    Bool × SharedTable × TempNameCache :=
  if CacheContainer.checkAssoc st.tmpcache xdata then (false, st, nc)
  else (true, { st with tmpcache := CacheContainer.setAssoc st.tmpcache xdata [] false },
    { nc with inset := nc.inset.insert xdata })

/-- `ReserveName`. -/
def reserveName (st : SharedTable) (nc : TempNameCache) (keytype : KeyTypeE) (indata : Bytes)
    (isnew : Bool) : Except Exc (Bool × SharedTable × TempNameCache) := do
  let xdata ← makeKey keytype indata
  if isnew && checkKeyExists st.maindb xdata then pure (false, st, nc)
  else pure (acquire st nc xdata)

/-- `CheckLocal`. -/
def checkLocal (nc : TempNameCache) (keytype : KeyTypeE) (indata : Bytes) : Except Exc Bool := do
  let xdata ← makeKey keytype indata
  pure (decide (xdata ∈ nc.inset))

/-- `MultiTypeLock`. -/
def multiTypeLock (st : SharedTable) (nc : TempNameCache) (locktype : Nat) :
    Bool × SharedTable × TempNameCache :=
  acquire st nc (encodePrimaryKey kNonode locktype)

/-- The destructor: every key of the object is deleted from the shared cache. -/
def destroy (st : SharedTable) (nc : TempNameCache) : SharedTable :=
  { st with tmpcache := nc.inset.foldl CacheContainer.delAssoc st.tmpcache }

end TempNameCache

end Zapdos.Store
