/-
  Forwarded writes — the write endpoints, `HrpcClient::SendToMaster` and the master endpoint.

  A write that arrives at a slave is sent to the master, whose service runs it there, and the answer is
  relayed.  What a service throws on the master passes five places before the client reads it: the
  catch clauses of the master endpoint, a response with a code and a text, `SendFunction`,
  `SendToMaster`, and the catch clauses of the slave's endpoint.

  THE CRUX.  The first of the five names `LocalException`, which no service throws.  All other classes
  fall into its last clause, so that every refusal arrives as `Unknown Error` (`relay`).  And a
  `LocalException` would lose its code there: the clause declares a second `ecode`.
-/
import Zapdos.Store.PasswordReset

namespace Zapdos.Hrpc

open Zapdos.Store Privileges PasswordReset

namespace MasterEndpoint

/-- A node, as far as the endpoints look at it. -/
structure Node where
  table : SharedTable
  isReady : Bool
  sharedSecret : Bytes

/-- What a handler can catch. -/
inductive Thrown
  | localException (msg : Bytes) (ecode : Nat)
  /-- the other classes over `BaseException` -/
  | exc (e : Exc)
  /-- any other `std::exception` -/
  | std (what : Bytes)
  | other

/-! ## The requests -/

/-- A service of the master endpoint with its message: `M_MANAGE_…` and `M_RESETPASS_…`. -/
inductive Command
  | manage (k : RecKind) (resp : RespT k.Rec)
  | resetpass (k : Kind) (resp : ResetRespT)

/-- What a service throws, for its caller: `Xapian::Error` is under no class that a clause names. -/
def Thrown.of (e : Exc) : Thrown := if e.kind = .other then .other else .exc e

/-- The service runs on the shared table.  Of the message it leaves the endpoints use the status. -/
def Command.run (env : ActionEnv) (st : SharedTable) :
    Command → SharedTable × Except Exc StatusT
  | .manage k resp =>
    let out := k.manageDataAction env st resp
    (out.table, out.result.map Prod.fst)
  | .resetpass k resp =>
    let (st, res) := resetPassAction k st env.currtime resp env.commit
    (st, res.map fun _ => { success := true, inputcount := 0, updatecount := 0 })

/-- What the head of a write endpoint makes of an HTTP request. -/
structure Request where
  command : Command
  hideCounters : Bool := false

/-- `aftermath`: the status that is shown. -/
def Request.aftermath (getp : Request) (status : StatusT) : StatusT :=
  if getp.hideCounters then { status with inputcount := 0, updatecount := 0 } else status

/-! ## The master endpoint and its client -/

/-- The response of the master endpoint. -/
inductive Response
  | ok (data : StatusT)
  /-- `Service-Error` and the content -/
  | err (ecode : Nat) (content : Bytes)

/-- The end of the handler of `MasterEndpointService`. -/
def respond : Except Thrown StatusT → Response
  | .ok data => .ok data
  -- the code is put into a new variable, and `M_UNKNOWN` is sent
  | .error (.localException msg _) => .err mUnknown msg
  | .error _ => .err mUnknown (str "Unknown Error")

/-- `MasterEndpointService`, for a request with this shared secret. -/
def masterEndpoint (env : ActionEnv) (secret : Bytes) (n : Node) (command : Command) :
    Node × Response :=
  if secret ≠ n.sharedSecret then
    (n, respond (.error (.exc ⟨.badData, str "Bad Shared Secret", 0⟩)))
  else if !n.isReady then (n, respond (.error (.exc ⟨.badData, str "System Not Ready", 0⟩)))
  else if !n.table.isMaster then
    (n, respond (.error (.exc ⟨.badData, str "System Not Master", 0⟩)))
  else
    let (table, res) := command.run env n.table
    ({ n with table := table }, respond (res.mapError Thrown.of))

/-- `ZPDS_M_ERROR_MIN` and `ZPDS_M_ERROR_MAX`. -/
def isMError (ecode : Nat) : Bool := decide (101 ≤ ecode ∧ ecode ≤ 107)

/-- The end of `SendFunction`, for the master. -/
def receive : Response → Except Thrown StatusT
  | .ok data => .ok data
  | .err ecode content =>
    if isMError ecode then .error (.localException content ecode)
    else .error (.exc ⟨.badData, content, mUnknown⟩)

/-- What becomes of a message to the master. -/
inductive Delivery
  /-- `SendFunction` throws before the message gets anywhere -/
  | unsent (e : Thrown)
  | answered
  /-- the message is worked on, and the answer is lost or cannot be read -/
  | answerLost (e : Thrown)

/-- `SendToMaster`. -/
def sendToMaster (env : ActionEnv) (delivery : Delivery) (secret : Bytes) (master : Node)
    (command : Command) : Node × Except Thrown StatusT :=
  match delivery with
  | .unsent e => (master, .error e)
  | .answered =>
    let (master, response) := masterEndpoint env secret master command
    (master, receive response)
  | .answerLost e => ((masterEndpoint env secret master command).1, .error e)

/-! ## The write endpoints -/

/-- What a client is answered. -/
inductive Answer
  | ok (status : StatusT)
  /-- `err2json` -/
  | err (errorcode : Nat) (error : Bytes)
  /-- `INTERNAL SERVER ERROR` -/
  | internal
  deriving DecidableEq, Repr

/-- The catch clauses of a write endpoint. -/
def Answer.of : Except Thrown StatusT → Answer
  | .ok status => .ok status
  | .error (.localException msg ecode) => .err ecode msg
  | .error (.exc e) => .err e.ecode e.msg
  | .error (.std what) => .err mUnknown what
  | .error .other => .internal

/-- A write endpoint on the node `here`, with the node `there` at the address of the master; `getp` is
    the request, or what its head has thrown. -/
def endpoint (env : ActionEnv) (delivery : Delivery) (here there : Node)
    (getp : Except Thrown Request) : Node × Node × Answer :=
  match getp with
  | .error e => (here, there, .of (.error e))
  | .ok getp =>
    if !here.isReady then
      (here, there, .of (.error (.exc ⟨.badData, str "System Not Ready", 0⟩)))
    else if here.table.isMaster then
      let (table, res) := getp.command.run env here.table
      ({ here with table := table }, there, .of ((res.mapError Thrown.of).map getp.aftermath))
    else
      let (there, res) := sendToMaster env delivery here.sharedSecret there getp.command
      (here, there, .of (res.map getp.aftermath))

/-! ## Forwarded and direct -/

/-- The slave is ready to forward, to a master with the same secret. -/
structure Forwards (slave master : Node) : Prop where
  isReady : slave.isReady = true
  isSlave : slave.table.isMaster = false
  isMaster : master.table.isMaster = true
  sharedSecret : slave.sharedSecret = master.sharedSecret

/-- The exception that reads as a forwarded one. -/
def Anonymous (e : Exc) : Prop :=
  e.kind ≠ .other ∧ e.ecode = mUnknown ∧ e.msg = str "Unknown Error"

/-- The head of the endpoint refuses the request, or the master is ready and its service accepts the
    request, or refuses it anonymously. -/
def Relayed (env : ActionEnv) (master : Node) : Except Thrown Request → Prop
  | .error _ => True
  | .ok getp => master.isReady = true ∧ ∀ e, (getp.command.run env master.table).2 = .error e →
      Anonymous e

/-- What comes from a service of the master, on its way to the slave: a status arrives, and nothing of
    an exception. -/
theorem relay (res : Except Exc StatusT) :
    receive (respond (res.mapError Thrown.of)) =
      res.mapError fun _ => .localException (str "Unknown Error") mUnknown := by
  cases res with
  | ok status => rfl
  | error e =>
    show receive (respond (.error (if _ then _ else _))) = _
    split <;> rfl

/-- What a client reads of an exception, where the service runs. -/
theorem answer_of_thrown (e : Exc) :
    Answer.of (.error (Thrown.of e)) =
      if e.kind = .other then .internal else .err e.ecode e.msg := by
  rw [Thrown.of]
  split <;> rfl

section

variable {slave master : Node} (h : Forwards slave master) (env : ActionEnv)

include h

/-- A forwarded request. -/
theorem endpoint_slave (getp : Request) :
    endpoint env .answered slave master (.ok getp) =
      (slave,
        if master.isReady then { master with table := (getp.command.run env master.table).1 }
        else master,
        match master.isReady, (getp.command.run env master.table).2 with
        | true, .ok status => .ok (getp.aftermath status)
        | _, _ => .err mUnknown (str "Unknown Error")) := by
  have hready := h.isReady
  have hslave := h.isSlave
  have hmaster := h.isMaster
  have hsecret : ¬ slave.sharedSecret ≠ master.sharedSecret := not_not.mpr h.sharedSecret
  rw [endpoint]
  simp only [hready, hslave, Bool.not_true, Bool.false_eq_true, if_false]
  rw [sendToMaster]
  simp only
  rw [masterEndpoint, if_neg hsecret]
  cases hr : master.isReady with
  | false => rfl
  | true =>
    simp only [hmaster, Bool.not_true, Bool.false_eq_true, if_false, if_true, relay]
    cases hrun : (getp.command.run env master.table).2 with
    | error e => rfl
    | ok status => rfl

/-- The same request, sent to the master. -/
theorem endpoint_master (there : Node) (getp : Request) :
    endpoint env .answered master there (.ok getp) =
      (if master.isReady then { master with table := (getp.command.run env master.table).1 }
        else master,
        there,
        match master.isReady, (getp.command.run env master.table).2 with
        | true, .ok status => .ok (getp.aftermath status)
        | true, .error e => if e.kind = .other then .internal else .err e.ecode e.msg
        | false, _ => .err 0 (str "System Not Ready")) := by
  have hmaster := h.isMaster
  rw [endpoint]
  cases hr : master.isReady with
  | false => rfl
  | true =>
    simp only [hmaster, Bool.not_true, Bool.false_eq_true, if_false, if_true]
    cases hrun : (getp.command.run env master.table).2 with
    | error e =>
      simp only [← answer_of_thrown]
      rfl
    | ok status => rfl

/-- The master is left alike by both. -/
theorem forwarding_node (there : Node) (getp : Except Thrown Request) :
    (endpoint env .answered slave master getp).2.1 =
      (endpoint env .answered master there getp).1 := by
  cases getp with
  | error e => rfl
  | ok getp => rw [endpoint_slave h env, endpoint_master h env]

end

/-! ## A wrong password -/

/-- The records of a node with one user. -/
def bobTable (isMaster : Bool) : SharedTable where
  isMaster := isMaster
  maindb := Lib.OrdMap.empty.write (dataBatch (userDataTable.rows uUserdataName
    ⟨false, { id := 2, name := str "bob", passkey := str "secret" }⟩))

def master : Node := ⟨bobTable true, true, str "shared"⟩

def slave : Node := ⟨bobTable false, true, str "shared"⟩

def env : ActionEnv := { decode := fun _ _ => badCode "Bogus Algo in Create" }

/-- Bob's request for a new password, with this old one. -/
def reset (oldpass : Bytes) : Except Thrown Request :=
  .ok { command := .resetpass .user
          { username := str "bob", oldpass := oldpass, newpass := str "mine" } }

end MasterEndpoint

end Zapdos.Hrpc
