/-
  The shared state of one node — `SharedTable`, its two databases and its counters.

  The default build opens one database for records and log; the log rows (`K_LOGNODE` and its time
  index) and the record rows never share a key type, and a build with `ZPDS_USE_SEPARATE_LOGDB`
  opens two databases.  The model keeps the two apart: `maindb` holds the record rows, `logdb` the
  log rows, and each has the fences that `Initialize` writes.

  A stored value is the message it was serialized from.  Serializing and parsing a message is the
  identity; the empty string of a fence parses as the default message; no key type holds messages
  of two kinds, so a value never has to be parsed as another kind of message.
-/
import Zapdos.Lib.OrdMap
import Zapdos.Store.Keys

namespace Zapdos.Store

open Zapdos.Lib

/-! ## Rows -/

/-- A value of the record database. -/
inductive DataV
  | blank
  | node (n : NodeT)
  | tag (t : TagDataT)
  | user (u : UserDataT)
  | category (c : CategoryT)
  | item (i : ItemDataT)
  deriving DecidableEq, Repr

/-- The record database. -/
abbrev DataDb := OrdMap Key DataV

/-- `TransItemT`: one row to put or delete. -/
structure TransItemT where
  key : Key
  value : DataV := .blank
  toDel : Bool := false
  deriving DecidableEq, Repr

/-- `TransactionT`: a log entry. -/
structure TransactionT where
  id : Nat := 0
  item : List TransItemT := []
  ts : Nat := 0
  updater : Bytes := []
  notfound : Bool := false
  deriving DecidableEq, Repr, Inhabited

/-- A value of the log database. -/
inductive LogV
  | blank
  | trans (t : TransactionT)
  /-- `std::to_string(id)`, under the time index -/
  | idText (id : Nat)
  deriving DecidableEq, Repr

/-- The log database. -/
abbrev LogDb := OrdMap Key LogV

/-- `ParseFromString` into a `TransactionT`. -/
def LogV.parseTrans : LogV → Option TransactionT
  | .blank => some {}
  | .trans t => some t
  | .idText _ => none

/-- `ParseFromString` into a `NodeT`. -/
def DataV.parseNode : DataV → Option NodeT
  | .blank => some {}
  | .node n => some n
  | _ => none

/-- `ParseFromString` into a `UserDataT`. -/
def DataV.parseUser : DataV → Option UserDataT
  | .blank => some {}
  | .user u => some u
  | _ => none

/-- `ParseFromString` into a `TagDataT`. -/
def DataV.parseTag : DataV → Option TagDataT
  | .blank => some {}
  | .tag t => some t
  | _ => none

/-- `ParseFromString` into a `CategoryT`. -/
def DataV.parseCategory : DataV → Option CategoryT
  | .blank => some {}
  | .category c => some c
  | _ => none

/-- `ParseFromString` into an `ItemDataT`. -/
def DataV.parseItem : DataV → Option ItemDataT
  | .blank => some {}
  | .item i => some i
  | _ => none

/-- A value of the shared name cache. -/
inductive CacheV
  /-- a packed record -/
  | packed (v : DataV)
  /-- `PrintWithPipe::String(ts)`, kept for a category of a user -/
  | tsText (ts : Nat)
  deriving DecidableEq, Repr

/-- `TransListT`: a pull request and its answer. -/
structure TransListT where
  lastid : Nat := 0
  limit : Nat := 0
  trans : List TransactionT := []
  currid : Nat := 0
  ts : Nat := 0
  endpoint : Bytes := []
  deriving DecidableEq, Repr, Inhabited

/-! ## The shared table -/

/-- `SharedTable`, with the fields the store and the replication use. -/
structure SharedTable where
  thisurl : Bytes := []
  master : Bytes := []
  lastslave : Bytes := []
  isMaster : Bool := false
  /-- items are not indexed -/
  noXapian : Bool := false
  maincounter : Nat := 0
  logcounter : Nat := 0
  maindb : DataDb := OrdMap.empty
  logdb : LogDb := OrdMap.empty
  /-- pushed transactions waiting to be applied, by id -/
  transactions : OrdMap Nat TransactionT := OrdMap.empty
  /-- followers: url to (log counter, last seen) -/
  remotes : OrdMap Bytes (Nat × Nat) := OrdMap.empty
  /-- packed records by name key -/
  dbcache : OrdMap Key CacheV := OrdMap.empty
  /-- reserved names -/
  tmpcache : OrdMap Key Bytes := OrdMap.empty
  deriving DecidableEq

namespace SharedTable

/-- `logcounter.GetNext()`. -/
def logcounterGetNext (st : SharedTable) : Nat × SharedTable :=
  (st.logcounter + 1, { st with logcounter := st.logcounter + 1 })

/-- `maincounter.GetNext()`. -/
def maincounterGetNext (st : SharedTable) : Nat × SharedTable :=
  (st.maincounter + 1, { st with maincounter := st.maincounter + 1 })

end SharedTable

end Zapdos.Store
