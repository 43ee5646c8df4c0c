/-
  Write requests at once — `ManageDataAction` and `ResetPassAction` of any number of threads.

  A request is cut into the steps that touch what the threads share: read the stored record, reserve
  its name (check and take in one step), take an id from a counter, look into the tables for
  `AddRecord`, and the steps of the commit: take a log id, write the log entry, write the records.
  The threads take these steps in any order.  A request comes in here once its updater is known, and
  no write fails; an exception of `AddToCache` comes after the writes and only ends the request.
-/
import Mathlib.Logic.Function.Basic
import Zapdos.Lib.Runs
import Zapdos.Store.BatchRequest
import Zapdos.Store.PasswordReset
import Zapdos.Store.RecordChanges

namespace Zapdos.Store

open Zapdos.Lib

/-! ## One `ManageDataAction`, step by step -/

/-- Where the action stands with its payload. -/
inductive Stage (T : Type)
  /-- before the payload, or past the last one -/
  | next
  /-- the record is read, its name not yet reserved -/
  | read (found : Bool) (cdata : T)
  /-- the name is reserved, the record not yet read -/
  | reserved
  /-- read and reserved -/
  | ready (found : Bool) (cdata : T)
  /-- a new record, with its id -/
  | numbered (id : ℕ) (cdata : T)

/-- A `ManageDataAction` among its payloads. -/
structure Progress (T : Type) where
  rest : List (T × PrepEnv)
  stage : Stage T := .next
  nc : TempNameCache := {}
  items : List TransItemT := []
  /-- how many ids it has taken from the counter -/
  taken : ℕ := 0

/-- What a step leads to. -/
inductive Move (T : Type)
  | go (task : Progress T)
  | fail
  | commit

namespace Service

variable {T : Type} (s : Service T)

/-- `AddRecord`, and on to the next payload. -/
def advanceAdd (m : Manage) (st : SharedTable) (t : Progress T) (data : T) (rest : List (T × PrepEnv))
    (found : Bool) (id : ℕ) (cdata : T) : Move T :=
  match s.table.addRecord st.maindb (s.fill m data found id cdata) t.items found with
  | .ok (some items) => .go { t with rest := rest, stage := .next, items := items }
  | _ => .fail

/-- The next step of the action. -/
def advance (m : Manage) (st : SharedTable) (t : Progress T) : SharedTable × Move T :=
  match t.rest with
  | [] => (st, .commit)
  | (data, env) :: rest =>
    match t.stage with
    | .next =>
      match s.check data with
      | .error _ => (st, .fail)
      | .ok () =>
        if s.readFirst then
          match s.prepare env st.maindb m data with
          | .error _ => (st, .fail)
          | .ok (found, cdata) => (st, .go { t with stage := .read found cdata })
        else
          match s.reserve st t.nc data with
          | .error _ => (st, .fail)
          | .ok (st, nc) => (st, .go { t with stage := .reserved, nc := nc })
    | .read found cdata =>
      match s.reserve st t.nc cdata with
      | .error _ => (st, .fail)
      | .ok (st, nc) => (st, .go { t with stage := .ready found cdata, nc := nc })
    | .reserved =>
      match s.prepare env st.maindb m data with
      | .error _ => (st, .fail)
      | .ok (found, cdata) => (st, .go { t with stage := .ready found cdata })
    | .ready found cdata =>
      if found then (st, s.advanceAdd m st t data rest true 0 cdata)
      else
        match s.mayInsert cdata with
        | .error _ => (st, .fail)
        | .ok () =>
          let (id, st) := st.maincounterGetNext
          (st, .go { t with stage := .numbered id cdata, taken := t.taken + 1 })
    | .numbered id cdata => (st, s.advanceAdd m st t data rest false id cdata)

/-- **The steps that go on**, one for each place the action touches what is shared, with the changes
    they add. -/
inductive Advances (m : Manage) (st : SharedTable) (t : Progress T) :
    SharedTable → Progress T → List (Change T) → Prop
  | read {data env rest found cdata} (hrest : t.rest = (data, env) :: rest) (hstage : t.stage = .next)
      (hfirst : s.readFirst = true) (hcheck : s.check data = .ok ())
      (hprepare : s.prepare env st.maindb m data = .ok (found, cdata)) :
      Advances m st t st { t with stage := .read found cdata } []
  | reserve {data env rest st' nc} (hrest : t.rest = (data, env) :: rest) (hstage : t.stage = .next)
      (hfirst : s.readFirst = false) (hcheck : s.check data = .ok ())
      (hreserve : s.reserve st t.nc data = .ok (st', nc)) :
      Advances m st t st' { t with stage := .reserved, nc := nc } []
  | reserveRead {data env rest found cdata st' nc} (hrest : t.rest = (data, env) :: rest)
      (hstage : t.stage = .read found cdata) (hreserve : s.reserve st t.nc cdata = .ok (st', nc)) :
      Advances m st t st' { t with stage := .ready found cdata, nc := nc } []
  | readReserved {data env rest found cdata} (hrest : t.rest = (data, env) :: rest)
      (hstage : t.stage = .reserved)
      (hprepare : s.prepare env st.maindb m data = .ok (found, cdata)) :
      Advances m st t st { t with stage := .ready found cdata } []
  | number {data env rest cdata} (hrest : t.rest = (data, env) :: rest)
      (hstage : t.stage = .ready false cdata) (hmay : s.mayInsert cdata = .ok ()) :
      Advances m st t { st with maincounter := st.maincounter + 1 }
        { t with stage := .numbered (st.maincounter + 1) cdata, taken := t.taken + 1 } []
  | add {data env rest found id cdata items} (hrest : t.rest = (data, env) :: rest)
      (hstage : (found = true ∧ id = 0 ∧ t.stage = .ready true cdata) ∨
        (found = false ∧ t.stage = .numbered id cdata))
      (hadd : s.table.addRecord st.maindb (s.fill m data found id cdata) t.items found =
        .ok (some items)) :
      Advances m st t st { t with rest := rest, stage := .next, items := items }
        [⟨found, s.fill m data found id cdata⟩]

theorem advanceAdd_go {m : Manage} {st : SharedTable} {t t' : Progress T} {data : T}
    {rest : List (T × PrepEnv)} {found : Bool} {id : ℕ} {cdata : T}
    (h : s.advanceAdd m st t data rest found id cdata = .go t') :
    ∃ items, s.table.addRecord st.maindb (s.fill m data found id cdata) t.items found =
        .ok (some items) ∧ t' = { t with rest := rest, stage := .next, items := items } := by
  unfold advanceAdd at h
  split at h
  · rename_i items hadd
    cases h
    exact ⟨items, hadd, rfl⟩
  · cases h

variable {s}

theorem advance_go {m : Manage} {st st' : SharedTable} {t t' : Progress T}
    (h : s.advance m st t = (st', .go t')) : ∃ adds, s.Advances m st t st' t' adds := by
  unfold advance at h
  split at h
  · cases h
  · rename_i data env rest hrest
    split at h
    · rename_i hstage
      cases hcheck : s.check data with
      | error e =>
        simp only [hcheck] at h
        cases h
      | ok =>
        simp only [hcheck] at h
        cases hfirst : s.readFirst with
        | true =>
          simp only [hfirst, if_true] at h
          split at h
          · cases h
          · rename_i found cdata hprepare
            cases h
            exact ⟨_, .read hrest hstage hfirst hcheck hprepare⟩
        | false =>
          simp only [hfirst, Bool.false_eq_true, if_false] at h
          split at h
          · cases h
          · rename_i st₁ nc hreserve
            cases h
            exact ⟨_, .reserve hrest hstage hfirst hcheck hreserve⟩
    · rename_i found cdata hstage
      split at h
      · cases h
      · rename_i st₁ nc hreserve
        cases h
        exact ⟨_, .reserveRead hrest hstage hreserve⟩
    · rename_i hstage
      split at h
      · cases h
      · rename_i found cdata hprepare
        cases h
        exact ⟨_, .readReserved hrest hstage hprepare⟩
    · rename_i found cdata hstage
      cases found with
      | true =>
        simp only [if_true, Prod.mk.injEq] at h
        obtain ⟨rfl, h⟩ := h
        obtain ⟨items, hadd, rfl⟩ := s.advanceAdd_go h
        exact ⟨_, .add hrest (Or.inl ⟨rfl, rfl, hstage⟩) hadd⟩
      | false =>
        simp only [Bool.false_eq_true, if_false] at h
        split at h
        · cases h
        · rename_i hmay
          cases h
          exact ⟨_, .number hrest hstage hmay⟩
    · rename_i id cdata hstage
      simp only [Prod.mk.injEq] at h
      obtain ⟨rfl, h⟩ := h
      obtain ⟨items, hadd, rfl⟩ := s.advanceAdd_go h
      exact ⟨_, .add hrest (Or.inr ⟨rfl, hstage⟩) hadd⟩

/-- The other steps change nothing: a failure, and the end of the payloads. -/
theorem advance_same {m : Manage} {st st' : SharedTable} {t : Progress T} {mv : Move T}
    (h : s.advance m st t = (st', mv)) (hmv : ∀ t', mv ≠ .go t') :
    st' = st ∧ (mv = .commit → t.rest = []) := by
  have hfail : ∀ {mv' : Move T}, (st, mv') = (st', mv) → mv' ≠ .commit →
      st' = st ∧ (mv = .commit → t.rest = []) := by
    intro mv' he hne
    cases he
    exact ⟨rfl, fun hc => absurd hc hne⟩
  have hgo : ∀ {st₁ : SharedTable} {t' : Progress T}, (st₁, Move.go t') = (st', mv) →
      st' = st ∧ (mv = .commit → t.rest = []) := by
    intro st₁ t' he
    cases he
    exact absurd rfl (hmv t')
  have hadd : ∀ data rest found id cdata, s.advanceAdd m st t data rest found id cdata ≠ .commit := by
    intro data rest found id cdata
    unfold advanceAdd
    split <;> simp
  unfold advance at h
  split at h
  · rename_i hrest
    cases h
    exact ⟨rfl, fun _ => hrest⟩
  · split at h
    · split at h
      · exact hfail h (by simp)
      · split at h
        · split at h
          · exact hfail h (by simp)
          · exact hgo h
        · split at h
          · exact hfail h (by simp)
          · exact hgo h
    · split at h
      · exact hfail h (by simp)
      · exact hgo h
    · split at h
      · exact hfail h (by simp)
      · exact hgo h
    · split at h
      · exact hfail h (hadd _ _ _ _ _)
      · split at h
        · exact hfail h (by simp)
        · exact hgo h
    · exact hfail h (hadd _ _ _ _ _)

end Service

namespace Requests

open Privileges (Kind)
open PasswordReset (stored renewed)

/-! ## Threads -/

/-- A request whose updater is known. -/
inductive Request
  | manage (k : RecKind) (m : Manage) (input : List (k.Rec × PrepEnv))
  | resetPass (k : Kind) (currtime : ℕ) (resp : ResetRespT)

/-- The names a request is about. -/
def Request.names : Request → List Key
  | manage k _ input => input.map (fun p => k.service.key p.1)
  | resetPass k _ resp => [encodeSecondaryKey k.ukey resp.username]

/-- Only `ManageDataAction` reserves names. -/
def Request.reserves : Request → Bool
  | manage _ _ _ => true
  | resetPass _ _ _ => false

/-- How far a commit has got. -/
inductive Phase
  | begin | numbered | logged | written
  deriving DecidableEq, Repr

/-- Where a thread stands. -/
inductive Thread
  | waiting
  | manage (k : RecKind) (m : Manage) (task : Progress k.Rec)
  | commit (phase : Phase) (now : ℕ) (nc : TempNameCache) (trans : TransactionT)
  /-- before its destructors, with what it has committed -/
  | leaving (nc : TempNameCache) (result : Option TransactionT)
  | ended (result : Option TransactionT)

/-- The table the threads share, and the threads. -/
structure Sys where
  table : SharedTable
  threads : ℕ → Thread

/-- The transaction of a thread that is past its commit. -/
def writtenOf : Thread → Option TransactionT
  | .commit .written _ _ t => some t
  | .leaving _ result => result
  | .ended result => result
  | _ => none

/-- The next step of a thread. -/
def threadStep (request : Option Request) (st : SharedTable) (env : CommitEnv) :
    Thread → Option (SharedTable × Thread)
  | .waiting =>
    match request with
    | none => none
    | some (.manage k m input) => some (st, .manage k m { rest := input })
    | some (.resetPass k currtime resp) =>
      match resetPassRows k.table k.ukey st.maindb currtime resp with
      | .error _ => some (st, .leaving {} none)
      | .ok items =>
        some (st, .commit .begin currtime {} { item := items, updater := defaultAdmin })
  | .manage k m task =>
    match k.service.advance m st task with
    | (st, .go task) => some (st, .manage k m task)
    | (st, .fail) => some (st, .leaving task.nc none)
    | (st, .commit) =>
      some (st, .commit .begin m.currtime task.nc
        { item := task.items, updater := m.updater.name })
  | .commit .begin now nc t =>
    if t.item = [] then some (st, .leaving nc (some t))
    else
      let (id, st) := st.logcounterGetNext
      some (st, .commit .numbered now nc (stamp now t true id))
  | .commit .numbered now nc t =>
    some ({ st with logdb := st.logdb.write (logBatch t) }, .commit .logged now nc t)
  | .commit .logged now nc t =>
    some ({ st with maindb := st.maindb.write (dataBatch t.item) }, .commit .written now nc t)
  | .commit .written _ nc t => some ((commitTail st t true env).table, .leaving nc (some t))
  | .leaving nc result => some (nc.destroy st, .ended result)
  | .ended _ => none

/-- One thread takes a step; the push to the last slave may fail, and the search index may refuse a
    document. -/
structure Label where
  thread : ℕ
  pushOk : Bool := true
  indexFails : Option ℕ := none

/-- What the outside answers in a step. -/
def Label.env (l : Label) : CommitEnv := { pushOk := l.pushOk, indexFails := l.indexFails }

def step (requests : ℕ → Option Request) (s : Sys) (l : Label) : Option Sys :=
  (threadStep (requests l.thread) s.table l.env (s.threads l.thread)).map fun out =>
    ⟨out.1, Function.update s.threads l.thread out.2⟩

/-- The change of a password reset. -/
def resetChange : Kind → UserDataT → RecChange
  | .user, r => ⟨.user, ⟨true, r⟩⟩
  | .exter, r => ⟨.exter, ⟨true, r⟩⟩

/-- **Everything a thread can do**, with the changes it adds. -/
inductive Moves (request : Option Request) (st : SharedTable) (env : CommitEnv) :
    Thread → SharedTable → Thread → List RecChange → Prop
  | start {k m input} (hr : request = some (.manage k m input)) :
      Moves request st env .waiting st (.manage k m { rest := input }) []
  | reset {k currtime resp old} (hr : request = some (.resetPass k currtime resp))
      (hold : stored k st.maindb resp.username = some old) :
      Moves request st env .waiting st
        (.commit .begin currtime {}
          { item := (resetChange k (renewed currtime resp old)).rows, updater := defaultAdmin })
        [resetChange k (renewed currtime resp old)]
  | refuse {k currtime resp} (hr : request = some (.resetPass k currtime resp)) :
      Moves request st env .waiting st (.leaving {} none) []
  | advance {k m task st' task' adds} (h : k.service.Advances m st task st' task' adds) :
      Moves request st env (.manage k m task) st' (.manage k m task')
        (adds.map (RecChange.mk k))
  | fail {k m task} : Moves request st env (.manage k m task) st (.leaving task.nc none) []
  | finish {k m task} (hrest : task.rest = []) :
      Moves request st env (.manage k m task) st
        (.commit .begin m.currtime task.nc { item := task.items, updater := m.updater.name }) []
  | empty {now nc t} (hitem : t.item = []) :
      Moves request st env (.commit .begin now nc t) st (.leaving nc (some t)) []
  | number {now nc t} (hitem : t.item ≠ []) :
      Moves request st env (.commit .begin now nc t) { st with logcounter := st.logcounter + 1 }
        (.commit .numbered now nc (stamp now t true (st.logcounter + 1))) []
  | log {now nc t} :
      Moves request st env (.commit .numbered now nc t)
        { st with logdb := st.logdb.write (logBatch t) } (.commit .logged now nc t) []
  | write {now nc t} :
      Moves request st env (.commit .logged now nc t)
        { st with maindb := st.maindb.write (dataBatch t.item) } (.commit .written now nc t) []
  | push {now nc t} :
      Moves request st env (.commit .written now nc t) (commitTail st t true env).table
        (.leaving nc (some t)) []
  | leave {nc result} :
      Moves request st env (.leaving nc result) (nc.destroy st) (.ended result) []

theorem threadStep_moves {request : Option Request} {st st' : SharedTable} {env : CommitEnv}
    {th th' : Thread} (hok : StoreOk st.maindb)
    (h : threadStep request st env th = some (st', th')) :
    ∃ adds, Moves request st env th st' th' adds := by
  unfold threadStep at h
  split at h
  · split at h
    · cases h
    · cases h
      exact ⟨_, .start rfl⟩
    · rename_i k currtime resp
      split at h
      · cases h
        exact ⟨_, .refuse rfl⟩
      · rename_i items hrows
        cases h
        have htable : StoreTable.TableOk k.table k.ukey st.maindb := by
          cases k
          · exact hok .user
          · exact hok .exter
        obtain ⟨old, hold, -, rfl⟩ := (PasswordReset.rows_eq_ok htable).mp hrows
        have hsame : k.table.rows k.ukey ⟨true, renewed currtime resp old⟩ =
            (resetChange k (renewed currtime resp old)).rows := by
          cases k <;> rfl
        rw [hsame]
        exact ⟨_, .reset rfl hold⟩
  · rename_i k m task
    split at h
    · rename_i st₁ task₁ hadv
      cases h
      obtain ⟨adds, hadds⟩ := Service.advance_go hadv
      exact ⟨_, .advance hadds⟩
    · rename_i st₁ hadv
      cases h
      obtain ⟨rfl, -⟩ := Service.advance_same hadv (by simp)
      exact ⟨_, .fail⟩
    · rename_i st₁ hadv
      cases h
      obtain ⟨rfl, hrest⟩ := Service.advance_same hadv (by simp)
      exact ⟨_, .finish (hrest rfl)⟩
  · split at h
    · rename_i hitem
      cases h
      exact ⟨_, .empty hitem⟩
    · rename_i hitem
      cases h
      exact ⟨_, .number hitem⟩
  · cases h
    exact ⟨_, .log⟩
  · cases h
    exact ⟨_, .write⟩
  · cases h
    exact ⟨_, .push⟩
  · cases h
    exact ⟨_, .leave⟩
  · cases h

/-- A master with its tables in order and no request under way. -/
structure IdleMaster extends OrderedStore where
  master : st.isMaster = true
  free : st.tmpcache = OrdMap.empty

/-- All requests come to a master without others. -/
def machine (requests : ℕ → Option Request) (σ : IdleMaster) : Machine Sys Label where
  init s := s = ⟨σ.st, fun _ => .waiting⟩
  step := step requests

/-- A master with two users and their passkeys. -/
def annAndBob : IdleMaster where
  toOrderedStore := (OrderedStore.withExter desk).manageDataAction (k := .user) deskEnv
    { createUsers [] with
      fields := udfldPasskey
      payloads := [{ name := str "ann", passkey := str "old" },
        { name := str "bob", passkey := str "old" }] }
  master := by decide
  free := by decide

end Requests

end Zapdos.Store
