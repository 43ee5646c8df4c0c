/-
  The `resetpass` endpoint — a password reset that arrives over HTTP.

  A master runs the action itself.  Another node sends the request to the address it has for the
  master, where the master endpoint checks the shared secret and that the node is a master that is
  ready, and runs the action (`MasterEndpoint.endpoint`).  What the network does with the message and
  with its answer is an input (`Delivery`).
-/
import Zapdos.Hrpc.MasterEndpoint

namespace Zapdos.Query.LoginService

open Zapdos.Store Privileges PasswordReset
open Zapdos.Hrpc.MasterEndpoint (Thrown Command Delivery Answer)

/-- A node of the cluster, with a store in order. -/
structure Node where
  store : OrderedStore
  isReady : Bool
  sharedSecret : Bytes

/-- The node, as the endpoints see it. -/
def Node.hrpc (n : Node) : Hrpc.MasterEndpoint.Node := ⟨n.store.st, n.isReady, n.sharedSecret⟩

/-- The records of a node. -/
def Node.db (n : Node) : DataDb := n.store.st.maindb

/-- What the outside answers during one request. -/
structure EndpointEnv where
  action : ActionEnv
  delivery : Delivery

/-- `POST (_admin|_user)/api/v1/resetpass`, on the node `here`, with the node `there` at the address
    of the master; `getp` is the request, as the parsers leave it. -/
def resetpass (k : Kind) (here there : Hrpc.MasterEndpoint.Node) (getp : Except Thrown ResetRespT)
    (env : EndpointEnv) : Hrpc.MasterEndpoint.Node × Hrpc.MasterEndpoint.Node × Answer :=
  Hrpc.MasterEndpoint.endpoint env.action env.delivery here there
    (getp.map fun resp => { command := .resetpass k resp })

/-- The client is answered with an error. -/
def Failed (a : Answer) : Prop := ∀ status, a ≠ .ok status

/-- **A reset over HTTP needs a credential**: on a master its own records count; on another node
    those of the node the request is sent to, and the own ones stay as they are. -/
def EndpointGuarded (k : Kind) (here there : Node) (resp : ResetRespT)
    (out : Hrpc.MasterEndpoint.Node × Hrpc.MasterEndpoint.Node × Answer) : Prop :=
  if here.store.st.isMaster then
    Guarded k resp here.db out.1.table.maindb (Failed out.2.2) ∧ out.2.1 = there.hrpc
  else Guarded k resp there.db out.2.1.table.maindb (Failed out.2.2) ∧ out.1 = here.hrpc

/-- **The gap**, seen from outside: the request reaches the action in its gap and is answered with
    success, or the answer is lost and a record has changed. -/
def EndpointBothWrong (k : Kind) (here there : Node) (resp : ResetRespT) (env : EndpointEnv) :
    Prop :=
  here.isReady = true ∧
    if here.store.st.isMaster then BothWrong k here.store.st resp env.action.commit
    else
      here.sharedSecret = there.sharedSecret ∧ there.isReady = true ∧
        BothWrong k there.store.st resp env.action.commit ∧
        match env.delivery with
        | .unsent _ => False
        | .answered => True
        | .answerLost _ => ∀ old, stored k there.db resp.username = some old →
            renewed env.action.currtime resp old ≠ old

/-! ## The endpoint is as good as the action -/

/-- The answer is an error exactly for an exception. -/
theorem failed_of (res : Except Thrown StatusT) : Failed (Answer.of res) ↔ ∃ e, res = .error e := by
  cases res with
  | ok status =>
    refine iff_of_false (fun h => h status rfl) ?_
    rintro ⟨e, he⟩
    cases he
  | error e =>
    refine iff_of_true (fun status h => ?_) ⟨e, rfl⟩
    cases e <;> cases h

theorem error_map {ε α β : Type} (f : α → β) (res : Except ε α) :
    (∃ e, res.map f = .error e) ↔ ∃ e, res = .error e := by
  cases res with
  | ok a => exact iff_of_false (fun ⟨e, he⟩ => by cases he) (fun ⟨e, he⟩ => by cases he)
  | error e => exact iff_of_true ⟨_, rfl⟩ ⟨e, rfl⟩

theorem error_mapError {ε ε' α : Type} (f : ε → ε') (res : Except ε α) :
    (∃ e, res.mapError f = .error e) ↔ ∃ e, res = .error e := by
  cases res with
  | ok a => exact iff_of_false (fun ⟨e, he⟩ => by cases he) (fun ⟨e, he⟩ => by cases he)
  | error e => exact iff_of_true ⟨_, rfl⟩ ⟨e, rfl⟩

/-- The action as the endpoints run it, with an answer that tells whether it has thrown. -/
theorem run_guarded_iff (k : Kind) (n : Node) (resp : ResetRespT) (env : ActionEnv) {failed : Prop}
    (hfailed : failed ↔ ∃ e, (resetPassAction k n.store.st env.currtime resp env.commit).2 = .error e) :
    Guarded k resp n.db ((Command.resetpass k resp).run env n.store.st).1.maindb failed ↔
      ¬ BothWrong k n.store.st resp env.commit := by
  rw [← resetPassAction_guarded_iff (n.store.tables.table k) env.currtime resp env.commit]
  exact ⟨fun h => h.mono hfailed.mp, fun h => h.mono hfailed.mpr⟩

/-- An error hides a reset in the gap only if the record does not change. -/
theorem hidden_guarded_iff {k : Kind} (s : OrderedStore) (currtime : Nat) (resp : ResetRespT)
    (env : CommitEnv) :
    Guarded k resp s.st.maindb (s.resetPass k currtime resp env).st.maindb True ↔
      ¬ (BothWrong k s.st resp env ∧ ∀ old, stored k s.st.maindb resp.username = some old →
        renewed currtime resp old ≠ old) := by
  have hok := s.tables.table k
  have hst : (s.resetPass k currtime resp env).st =
      (resetPassAction k s.st currtime resp env).1 := rfl
  rw [hst]
  by_cases hgap : BothWrong k s.st resp env
  · rw [and_iff_right hgap]
    rcases resetPassAction_cases hok currtime resp env with
      ⟨-, -, hno⟩ | ⟨-, -, -, -, old, hold, -, hdb⟩
    · exact absurd ⟨hgap.1, hgap.2.1, hgap.2.2.1, hgap.passes⟩ hno
    · rw [hdb]
      constructor
      · intro hguard hchange
        have hsame := (hguard.otherwise hgap.not_valid).2
        have hnew := stored_write hok hold currtime resp resp.username
        rw [hsame, hold, if_pos rfl, Option.some.injEq] at hnew
        exact hchange old hold hnew.symm
      · intro hkeep
        have hsame : renewed currtime resp old = old := by
          by_contra hne
          refine hkeep fun old' hold' => ?_
          rw [hold, Option.some.injEq] at hold'
          exact hold' ▸ hne
        refine guarded_of_same trivial ?_
        rw [hsame]
        exact write_stored hok hold
  · refine iff_of_true ?_ (fun h => hgap h.1)
    exact ((resetPassAction_guarded_iff hok currtime resp env).mpr hgap).mono fun _ => trivial

/-- A request that the parsers accept. -/
theorem resetpass_ok (k : Kind) (here there : Hrpc.MasterEndpoint.Node) (resp : ResetRespT)
    (env : EndpointEnv) :
    resetpass k here there (.ok resp) env =
      Hrpc.MasterEndpoint.endpoint env.action env.delivery here there
        (.ok { command := .resetpass k resp }) := rfl

theorem resetpass_guarded_here {k : Kind} {here : Node} (hm : here.store.st.isMaster = true)
    (there : Node) (resp : ResetRespT) (env : EndpointEnv) :
    EndpointGuarded k here there resp (resetpass k here.hrpc there.hrpc (.ok resp) env) ↔
      ¬ EndpointBothWrong k here there resp env := by
  have hm' : here.hrpc.table.isMaster = true := hm
  have hr' : here.hrpc.isReady = here.isReady := rfl
  rw [EndpointGuarded, EndpointBothWrong, if_pos hm, if_pos hm, resetpass_ok,
    Hrpc.MasterEndpoint.endpoint, hr']
  cases hready : here.isReady with
  | false =>
    have hfail : Failed (Answer.of (.error (.exc ⟨.badData, str "System Not Ready", 0⟩))) :=
      (failed_of _).mpr ⟨_, rfl⟩
    exact iff_of_true ⟨guarded_of_same hfail rfl, rfl⟩ (fun h => Bool.false_ne_true h.1)
  | true =>
    simp only [Bool.not_true, Bool.false_eq_true, if_false, if_pos hm', and_true, true_and]
    refine run_guarded_iff k here resp env.action ((failed_of _).trans ?_)
    exact ((error_map _ _).trans (error_mapError _ _)).trans (error_map _ _)

/-- What the master endpoint makes of a message. -/
theorem masterEndpoint_guarded_iff (k : Kind) (secret : Bytes) (n : Node) (resp : ResetRespT)
    (env : ActionEnv) :
    Guarded k resp n.db
        (Hrpc.MasterEndpoint.masterEndpoint env secret n.hrpc (.resetpass k resp)).1.table.maindb
        (∃ e, Hrpc.MasterEndpoint.receive (Hrpc.MasterEndpoint.masterEndpoint env secret n.hrpc
          (.resetpass k resp)).2 = .error e) ↔
      ¬ (secret = n.sharedSecret ∧ n.isReady = true ∧ BothWrong k n.store.st resp env.commit) := by
  have hs' : n.hrpc.sharedSecret = n.sharedSecret := rfl
  have hr' : n.hrpc.isReady = n.isReady := rfl
  have hm' : n.hrpc.table.isMaster = n.store.st.isMaster := rfl
  rw [Hrpc.MasterEndpoint.masterEndpoint, hs', hr', hm']
  by_cases hsecret : secret = n.sharedSecret
  · rw [if_neg (not_not.mpr hsecret), and_iff_right hsecret]
    cases hready : n.isReady with
    | false => exact iff_of_true (guarded_of_same ⟨_, rfl⟩ rfl) (fun h => Bool.false_ne_true h.1)
    | true =>
      cases hm : n.store.st.isMaster with
      | false =>
        refine iff_of_true (guarded_of_same ⟨_, rfl⟩ rfl) (fun h => ?_)
        have hmaster := h.2.1
        rw [hm] at hmaster
        exact Bool.false_ne_true hmaster
      | true =>
        rw [and_iff_right rfl]
        simp only [Bool.not_true, Bool.false_eq_true, if_false, Hrpc.MasterEndpoint.relay]
        exact run_guarded_iff k n resp env ((error_mapError _ _).trans (error_map _ _))
  · rw [if_pos hsecret]
    exact iff_of_true (guarded_of_same ⟨_, rfl⟩ rfl) (fun h => hsecret h.1)

/-- The same when the answer is lost. -/
theorem masterEndpoint_hidden_iff (k : Kind) (secret : Bytes) (n : Node) (resp : ResetRespT)
    (env : ActionEnv) :
    Guarded k resp n.db
        (Hrpc.MasterEndpoint.masterEndpoint env secret n.hrpc (.resetpass k resp)).1.table.maindb
        True ↔
      ¬ (secret = n.sharedSecret ∧ n.isReady = true ∧ BothWrong k n.store.st resp env.commit ∧
        ∀ old, stored k n.db resp.username = some old → renewed env.currtime resp old ≠ old) := by
  by_cases hgap : secret = n.sharedSecret ∧ n.isReady = true ∧
      BothWrong k n.store.st resp env.commit
  · obtain ⟨hsecret, hready, hgap⟩ := hgap
    have hdb : (Hrpc.MasterEndpoint.masterEndpoint env secret n.hrpc
        (.resetpass k resp)).1.table.maindb =
          (n.store.resetPass k env.currtime resp env.commit).st.maindb := by
      have hs' : ¬ secret ≠ n.hrpc.sharedSecret := not_not.mpr hsecret
      have hr' : n.hrpc.isReady = true := hready
      have hm' : n.hrpc.table.isMaster = true := hgap.1
      rw [Hrpc.MasterEndpoint.masterEndpoint, if_neg hs', hr', hm']
      rfl
    rw [hdb, and_iff_right hsecret, and_iff_right hready]
    exact hidden_guarded_iff n.store env.currtime resp env.commit
  · refine iff_of_true ?_ (fun h => hgap ⟨h.1, h.2.1, h.2.2.1⟩)
    exact ((masterEndpoint_guarded_iff k secret n resp env).mpr hgap).mono fun _ => trivial

theorem resetpass_guarded_there {k : Kind} {here : Node} (hm : here.store.st.isMaster = false)
    (there : Node) (resp : ResetRespT) (env : EndpointEnv) :
    EndpointGuarded k here there resp (resetpass k here.hrpc there.hrpc (.ok resp) env) ↔
      ¬ EndpointBothWrong k here there resp env := by
  have hm' : ¬ here.store.st.isMaster = true := by simp [hm]
  have hslave : ¬ here.hrpc.table.isMaster = true := hm'
  have hr' : here.hrpc.isReady = here.isReady := rfl
  rw [EndpointGuarded, EndpointBothWrong, if_neg hm', if_neg hm', resetpass_ok,
    Hrpc.MasterEndpoint.endpoint, hr']
  cases hready : here.isReady with
  | false =>
    have hfail : Failed (Answer.of (.error (.exc ⟨.badData, str "System Not Ready", 0⟩))) :=
      (failed_of _).mpr ⟨_, rfl⟩
    exact iff_of_true ⟨guarded_of_same hfail rfl, rfl⟩ (fun h => Bool.false_ne_true h.1)
  | true =>
    simp only [Bool.not_true, Bool.false_eq_true, if_false, if_neg hslave, and_true, true_and,
      Hrpc.MasterEndpoint.sendToMaster]
    cases hdel : env.delivery with
    | unsent e =>
      simp only [and_false, not_false_iff, iff_true]
      exact guarded_of_same ((failed_of _).mpr ⟨_, rfl⟩) rfl
    | answered =>
      simp only [and_true]
      rw [← masterEndpoint_guarded_iff k here.sharedSecret there resp env.action]
      exact ⟨fun h => h.mono fun hf => (error_map _ _).mp ((failed_of _).mp hf),
        fun h => h.mono fun hf => (failed_of _).mpr ((error_map _ _).mpr hf)⟩
    | answerLost e =>
      simp only [← masterEndpoint_hidden_iff]
      exact ⟨fun h => h.mono fun _ => trivial,
        fun h => h.mono fun _ => (failed_of _).mpr ⟨_, rfl⟩⟩

/-- A user with a password and a one-time password. -/
def bob : UserDataT := { id := 1, name := str "bob", passkey := str "secret", lastOtp := str "1234" }

theorem bob_fits : StoreTable.Fits userDataTable uUserdataName freshDb ⟨false, bob⟩ := by
  refine ⟨by decide, ?_, ?_⟩ <;>
  · rw [get_freshDb]
    rfl

/-- A master with one user. -/
def bobStore : OrderedStore where
  st :=
    { isMaster := true
      maindb := freshDb.write (dataBatch (userDataTable.rows uUserdataName ⟨false, bob⟩)) }
  tables := @StoreOk.write _ storeOk_freshDb .user [⟨false, bob⟩]
    (List.forall_mem_singleton.mpr bob_fits) (List.pairwise_singleton _ _)
  log _ _ := rfl

end Zapdos.Query.LoginService
