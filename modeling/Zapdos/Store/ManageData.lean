/-
  `ManageDataAction` — the frame the five services share.

  Every service checks the request and the session, then works through the payloads: it reads the
  stored record, reserves the name, and adds the rows of the new record to one transaction, which
  is committed at the end.  The services differ in the table, in what they make of a record, and in
  the ORDER of read and reservation: users, exters and items are read (`PrepareData`) before the
  name is reserved, tags and categories after.

  A payload is worked on in three stages (`prepare`, `reserve`, `add`), each of which touches the
  shared state once; here they run one after the other, and other requests come in between in
  `Store.Requests`.
-/
import Mathlib.Tactic.Tauto
import Zapdos.Store.HandleSession
import Zapdos.Store.Handlers

namespace Zapdos.Store

open Zapdos.Lib

/-- A request once its updater is known. -/
structure Manage where
  updater : UserDataT := {}
  action : Nat := 0
  /-- the fields that passed `AllowedFieldsFilter` -/
  fields : Nat := 0
  merge : Bool := false
  currtime : Nat := 0

/-- What is particular to one service. -/
structure Service (T : Type) where
  table : StoreTable T
  ukey : KeyTypeE
  /-- the record is read before its name is reserved -/
  readFirst : Bool
  /-- the checks made on a payload first -/
  check : T → Except Exc Unit
  /-- read the stored record and make the new one: whether it was found, and the record -/
  prepare : PrepEnv → DataDb → Manage → T → Except Exc (Bool × T)
  /-- the key type the name is reserved under -/
  keytype : KeyTypeE
  /-- the name that is reserved -/
  reserved : T → Bytes
  duplicateMsg : String
  busyMsg : String
  /-- may this new record be added -/
  mayInsert : T → Except Exc Unit
  /-- the last fields of the record: request, payload, found, new id, record so far -/
  fill : Manage → T → Bool → Nat → T → T
  insertMsg : String

/-- The checks on existence and lock that the `PrepareData` functions make: create what is there,
    update or delete what is not, or touch what is locked. -/
def Refused (isAdmin found locked : Bool) (action : Nat) : Prop :=
  (found = true ∧ action = uactionCreate) ∨
    (found = false ∧ (action = uactionUpdate ∨ action = uactionDelete)) ∨
    (isAdmin = false ∧ found = true ∧ locked = true)

/-- The texts of these checks in one service. -/
structure ActionTexts where
  exist : String
  noUpdate : String
  noDelete : String
  locked : String

/-- The checks, in their order. -/
def checkAction (texts : ActionTexts) (isAdmin found locked : Bool) (action : Nat) :
    Except Exc Unit :=
  if found && (action == uactionCreate) then badData texts.exist mInvalidParam
  else if !found && (action == uactionUpdate) then badData texts.noUpdate mInvalidParam
  else if !found && (action == uactionDelete) then badData texts.noDelete mInvalidParam
  else if !isAdmin && found && locked then badData texts.locked mInvalidParam
  else .ok ()

theorem checkAction_eq_ok {texts : ActionTexts} {isAdmin found locked : Bool} {action : Nat} :
    checkAction texts isAdmin found locked action = .ok () ↔
      ¬ Refused isAdmin found locked action := by
  rw [checkAction, Refused]
  simp only [badData, Bool.and_eq_true, beq_iff_eq, Bool.not_eq_true']
  split_ifs with h1 h2 h3 h4
  · simp [h1]
  · simp [h2]
  · simp [h3]
  · simp [h4]
  · simp only [true_iff]
    tauto

/-- The end of a `PrepareData`: a delete, guarded by a mask that is never zero, or the assignments. -/
theorem deleteOrAssign_eq_ok {T : Type} {action mask : Nat} (hmask : mask ≠ 0) {found f : Bool}
    {del out : T} {x : Except Exc T} {g : T → T} :
    (if action = uactionDelete ∧ mask ≠ 0 then pure (found, del)
      else do
        let c ← x
        pure (found, g c) : Except Exc (Bool × T)) = .ok (f, out) ↔
      f = found ∧ ((action = uactionDelete ∧ out = del) ∨
        (action ≠ uactionDelete ∧ ∃ c, x = .ok c ∧ out = g c)) := by
  by_cases hdel : action = uactionDelete
  · rw [if_pos ⟨hdel, hmask⟩, or_iff_left (fun h => h.1 hdel), and_iff_right hdel]
    constructor
    · rintro ⟨⟩
      exact ⟨rfl, rfl⟩
    · rintro ⟨rfl, rfl⟩
      rfl
  · rw [if_neg (fun h => hdel h.1), or_iff_right (fun h => hdel h.1), and_iff_right hdel,
      bind_eq_ok]
    constructor
    · rintro ⟨c, hc, ⟨⟩⟩
      exact ⟨rfl, c, hc, rfl⟩
    · rintro ⟨rfl, c, hc, rfl⟩
      exact ⟨c, hc, rfl⟩

namespace Service

variable {T : Type} (s : Service T)

/-- The name of a record is checked against the names of this request and reserved. -/
def reserve (st : SharedTable) (nc : TempNameCache) (r : T) :
    Except Exc (SharedTable × TempNameCache) := do
  let dup ← TempNameCache.checkLocal nc s.keytype (s.reserved r)
  if dup then badDataOf s.duplicateMsg (s.reserved r) mInvalidParam
  else
    let (free, st, nc) ← TempNameCache.reserveName st nc s.keytype (s.reserved r) false
    if free then pure (st, nc) else badDataOf s.busyMsg (s.reserved r) mInvalidParam

/-- The record is completed, with an id from the counter if it is new, and its rows are added. -/
def add (st : SharedTable) (m : Manage) (data : T) (found : Bool) (cdata : T)
    (items : List TransItemT) : SharedTable × Except Exc (T × List TransItemT) :=
  match if found then .ok () else s.mayInsert cdata with
  | .error e => (st, .error e)
  | .ok () =>
    let (id, st) := if found then (0, st) else st.maincounterGetNext
    let r := s.fill m data found id cdata
    (st,
      match s.table.addRecord st.maindb r items found with
      | .error e => .error e
      | .ok none => badData s.insertMsg
      | .ok (some items) => .ok (r, items))

/-- A request on its way through the payloads. -/
structure Work (T : Type) where
  table : SharedTable
  nc : TempNameCache := {}
  items : List TransItemT := []
  /-- the payloads so far, as the response will carry them -/
  payloads : List T := []

/-- One payload. -/
def payload (m : Manage) (w : Work T) (data : T) (env : PrepEnv) : Work T × Except Exc Unit :=
  match s.check data with
  | .error e => (w, .error e)
  | .ok () =>
    if s.readFirst then
      match s.prepare env w.table.maindb m data with
      | .error e => (w, .error e)
      | .ok (found, cdata) =>
        match s.reserve w.table w.nc cdata with
        | .error e => (w, .error e)
        | .ok (st, nc) =>
          match s.add st m data found cdata w.items with
          | (st, .error e) => ({ w with table := st, nc := nc }, .error e)
          | (st, .ok (r, items)) =>
            (⟨st, nc, items, w.payloads ++ [r]⟩, .ok ())
    else
      match s.reserve w.table w.nc data with
      | .error e => (w, .error e)
      | .ok (st, nc) =>
        match s.prepare env st.maindb m data with
        | .error e => ({ w with table := st, nc := nc }, .error e)
        | .ok (found, cdata) =>
          match s.add st m data found cdata w.items with
          | (st, .error e) => ({ w with table := st, nc := nc }, .error e)
          | (st, .ok (_, items)) =>
            (⟨st, nc, items, w.payloads ++ [data]⟩, .ok ())

/-- The loop over the payloads. -/
def payloads (m : Manage) : List (T × PrepEnv) → Work T → Work T × Except Exc Unit
  | [], w => (w, .ok ())
  | (data, env) :: rest, w =>
    match s.payload m w data env with
    | (w, .error e) => (w, .error e)
    | (w, .ok ()) => payloads m rest w

end Service

/-- The status of a successful request. -/
structure StatusT where
  success : Bool := true
  inputcount : Nat
  updatecount : Nat
  deriving DecidableEq, Repr

/-- How a request ended. -/
structure ActionOut (T : Type) where
  table : SharedTable
  push : Option Push := none
  result : Except Exc (StatusT × List T)

/-- The action on the payloads, once the updater is known: the payloads, the commit, and the
    destructor of the reservations. -/
def Service.manage {T : Type} (s : Service T) (st : SharedTable) (m : Manage)
    (input : List (T × PrepEnv)) (commitEnv : CommitEnv) : ActionOut T :=
  match s.payloads m input { table := st } with
  | (w, .error e) => { table := w.nc.destroy w.table, result := .error e }
  | (w, .ok ()) =>
    let out := commit w.table m.currtime { item := w.items, updater := m.updater.name } true
      commitEnv
    { table := w.nc.destroy out.table
      push := out.push
      result := out.result.map fun _ =>
        ({ inputcount := input.length, updatecount := input.length }, w.payloads) }

/-- What the outside answers during a request. -/
structure ActionEnv where
  decode : Decode
  sessionTime : Nat := 0
  currtime : Nat := 0
  /-- for the payloads in turn -/
  prep : Nat → PrepEnv := fun _ => {}
  commit : CommitEnv := {}

/-- The request messages, with the fields that all of them have. -/
structure RespT (T : Type) where
  username : Bytes := []
  sessionkey : Bytes := []
  action : WriteTypeE := .wNone
  keytype : KeyTypeE := 0
  fields : Nat := 0
  payload : T
  payloads : List T := []

/-- What the head of a `ManageDataAction` does in its own way. -/
structure ActionHead (T : Type) where
  masterMsg : String
  sessionMsg : String
  /-- `AllowedFieldsFilter` -/
  allowedFields : Nat → Nat
  /-- the key type the updater is looked up under -/
  updaterKeytype : RespT T → KeyTypeE
  onlyadmin : Bool
  /-- checks on the updater before the payloads -/
  checkUpdater : UserDataT → Except Exc Unit
  /-- the single payload is used if this is not empty -/
  payloadName : T → Bytes

/-- The payloads of a request with what the outside answers for each. -/
def withEnv {T : Type} (prep : Nat → PrepEnv) (ps : List T) : List (T × PrepEnv) :=
  ps.zipIdx.map fun (p, i) => (p, prep i)

/-- `ManageDataAction`, for one service and the head of its action. -/
def manageDataAction {T : Type} (head : ActionHead T) (s : Service T) (env : ActionEnv)
    (st : SharedTable) (resp : RespT T) : ActionOut T :=
  if !st.isMaster then { table := st, result := badCode head.masterMsg }
  else
    match writeActionFilter resp.action with
    | .error e => { table := st, result := .error e }
    | .ok (action, merge) =>
      let updater : UserDataT :=
        { name := resp.username, sessionkey := resp.sessionkey,
          keytype := head.updaterKeytype resp }
      match checkSession env.decode env.sessionTime st updater head.onlyadmin with
      | (st, .error e) => { table := st, result := .error e }
      | (st, .ok none) => { table := st, result := badData head.sessionMsg mInvalidParam }
      | (st, .ok (some updater)) =>
        match head.checkUpdater updater with
        | .error e => { table := st, result := .error e }
        | .ok () =>
          let ps := if head.payloadName resp.payload ≠ [] then resp.payloads ++ [resp.payload]
            else resp.payloads
          s.manage st ⟨updater, action, head.allowedFields resp.fields, merge, env.currtime⟩
            (withEnv env.prep ps) env.commit

end Zapdos.Store
