/-
  The accounts of a new node — `AdminCreateAction` and `SetDefaultProfile`.

  A master makes sure at its start that there are an admin and an exter for searches; without the first
  no request of anybody would be accepted.  The action finds an account under the sanitised name and
  stores a new one under the name as it is.
-/
import Zapdos.Search.SearchLocal
import Zapdos.Store.PasswordReset

namespace Zapdos.Store

open Zapdos.Lib Privileges

/-- `QRY_COMPLETION_WIKIDATA`. -/
def qryCompletionWikidata : Int := 3

namespace ExterDataService

/-- `SetDefaultProfile`. -/
def defaultProfile : List QueryProfT :=
  [{ queryType := Search.qryCompletionPhoton
     rules :=
      [{ weight := 100, desc := str "one word query for upto 2 chars", inputType := Search.iOneword,
         searchType := Search.sBeginwith, maxRecords := 10, onewordLength := 2 },
       { distanceBand := 1000, maxRecords := 10, weight := 90, desc := str "by distance 1km bands",
         orderType := Search.oDistBand },
       { weight := 80, desc := str "if not local", maxRecords := 10 }] },
   { queryType := Search.qryCompletionNotoph
     rules :=
      [{ orderType := Search.oDistBand, desc := str "by distance only so band is small",
         limitType := Search.lNbrhash5, weight := 100, maxRecords := 5, distanceBand := 10 }] },
   { queryType := qryCompletionWikidata
     rules :=
      [{ onewordLength := 2, maxRecords := 10, desc := str "one word query for upto 2 chars",
         inputType := Search.iOneword, searchType := Search.sBeginwith, weight := 100 },
       { maxRecords := 10, desc := str "find in name", searchType := Search.sName, weight := 90 },
       { maxRecords := 10, desc := str "find in suggest", weight := 80 }] }]

/-- The default profile is in the order that `HandleQueryProfiles` gives a profile. -/
theorem handleQueryProfiles_default :
    handleQueryProfiles defaultProfile [] false = .ok defaultProfile := by decide

/-- A new account, before its password is set. -/
def newAccount (currtime id : Nat) (signkey : SignKeyT) (user data : ExterDataT) : ExterDataT :=
  { data with
    name := user.name, createdAt := currtime, notfound := false
    signkey := { data.signkey with
      pubkey := signkey.pubkey, seckey := signkey.seckey, algo := signkey.algo }
    id := id, manager := defaultAdmin }

/-- What is set of every account. -/
def fillAccount (currtime : Nat) (isAdmin hasProfile : Bool) (user data : ExterDataT) : ExterDataT :=
  { data with
    updatedAt := currtime, isAdmin := isAdmin
    profiles := if hasProfile then defaultProfile else data.profiles
    passkey := user.passkey }

/-- `AdminCreateAction`; `signkey` is what `CryptoTraits::Create` draws. -/
def adminCreateAction (st : SharedTable) (currtime : Nat) (signkey : SignKeyT) (user : ExterDataT)
    (update isAdmin hasProfile : Bool) (env : CommitEnv) : SharedTable × Except Exc Unit :=
  if !st.isMaster then (st, badCode "Create exter is master only")
  else if user.name = [] then (st, badData "Name cannot be empty" mInvalidParam)
  else
    match exterDataTable.getOne st.maindb { name := sanitNSLower user.name } uExterdataName with
    | .error e => (st, .error e)
    | .ok (adminFound, data) =>
      if adminFound && !update then (st, .ok ())
      -- tested once for a new account and once for all, before anything is drawn or written
      else if user.passkey = [] then (st, badData "Passkey cannot be empty" mInvalidParam)
      else
        let (data, st) :=
          if adminFound then (data, st)
          else
            let (id, st) := st.maincounterGetNext
            (newAccount currtime id signkey user data, st)
        match exterDataTable.addRecord st.maindb
            (fillAccount currtime isAdmin hasProfile user data) [] adminFound with
        | .error e => (st, .error e)
        | .ok none => (st, badData "Cannot Insert admin data")
        | .ok (some items) =>
          let out := commit st currtime { item := items, updater := defaultAdmin } true env
          (out.table, out.result)

/-- What `AdminCreateAction` writes: a new account, or a stored one with another password. -/
structure Creates (db : DataDb) (c : Change ExterDataT) : Prop where
  fits : StoreTable.Fits exterDataTable uExterdataName db c
  notfound : c.record.notfound = false
  canAddProfiles : c.record.canAddProfiles = false ∨
    ∃ old, exterDataTable.find db (encodeSecondaryKey uExterdataName c.record.name) = some old ∧
      c.record.canAddProfiles = old.canAddProfiles

/-- The commit of one account writes it or nothing. -/
theorem commit_account {db : DataDb} {st : SharedTable} (hm : st.isMaster = true)
    (hdb : st.maindb = db) {c : Change ExterDataT} (hc : Creates db c) (currtime : Nat)
    (env : CommitEnv) :
    (commit st currtime { item := exterDataTable.rows uExterdataName c, updater := defaultAdmin }
        true env).table.maindb = db ∨
      ∃ c', Creates db c' ∧
        (commit st currtime { item := exterDataTable.rows uExterdataName c, updater := defaultAdmin }
          true env).table.maindb =
          db.write (dataBatch (exterDataTable.rows uExterdataName c')) := by
  rcases (commit_result hm currtime
    { item := exterDataTable.rows uExterdataName c, updater := defaultAdmin } true env).maindb with
    ⟨hsame, -⟩ | ⟨hwritten, -⟩
  · exact .inl (hsame.trans hdb)
  · refine .inr ⟨c, hc, ?_⟩
    rw [hwritten, applyItems, hdb]

/-- **Everything `AdminCreateAction` can do to the records**: nothing, or write one account. -/
theorem adminCreateAction_maindb {st : SharedTable}
    (hok : StoreTable.TableOk exterDataTable uExterdataName st.maindb) (currtime : Nat)
    (signkey : SignKeyT) (user : ExterDataT) (update isAdmin hasProfile : Bool) (env : CommitEnv) :
    (adminCreateAction st currtime signkey user update isAdmin hasProfile env).1.maindb = st.maindb ∨
      ∃ c, Creates st.maindb c ∧
        (adminCreateAction st currtime signkey user update isAdmin hasProfile env).1.maindb =
          st.maindb.write (dataBatch (exterDataTable.rows uExterdataName c)) := by
  have ht := StoreTable.exterDataTable_singleKey
  rw [adminCreateAction]
  cases hm : st.isMaster with
  | false => exact .inl rfl
  | true =>
    simp only [Bool.not_true, Bool.false_eq_true, if_false]
    by_cases hname : user.name = []
    · exact .inl (by rw [if_pos hname])
    · rw [if_neg hname, ht.getOne_unique hok]
      by_cases hpass : user.passkey = []
      · refine .inl ?_
        cases exterDataTable.find st.maindb _ <;> cases update <;> simp [hpass]
      · cases hfind : exterDataTable.find st.maindb
          (exterDataTable.getKey { name := sanitNSLower user.name } uExterdataName) with
        | some data =>
          cases update with
          | false => exact .inl rfl
          | true =>
            -- the account keeps its own name, and with it its key
            have hkey := ((ht.find_eq_some hok rfl).mp hfind).1
            have hold : exterDataTable.find st.maindb (exterDataTable.getKey
                (fillAccount currtime isAdmin hasProfile user data) uExterdataName) = some data := by
              rw [← hfind, ← hkey]
              rfl
            simp only [Bool.not_true, Bool.and_false, Bool.false_eq_true, if_false, if_neg hpass,
              if_true, ht.addRecord_update hok hold rfl]
            cases hflag : exterDataTable.notfound
                (fillAccount currtime isAdmin hasProfile user data) with
            | true => exact .inl rfl
            | false =>
              simp only [if_true, List.nil_append]
              exact commit_account (c := ⟨true, fillAccount currtime isAdmin hasProfile user data⟩)
                hm rfl ⟨⟨data, hold, rfl⟩, hflag, .inr ⟨data, hold, rfl⟩⟩ currtime env
        | none =>
          simp only [Bool.false_and, Bool.false_eq_true, if_false, if_neg hpass]
          generalize hdata : fillAccount currtime isAdmin hasProfile user
            (newAccount currtime st.maincounterGetNext.1 signkey user
              { name := sanitNSLower user.name }) = data
          have hperm : data.canAddProfiles = false := by
            rw [← hdata]
            rfl
          have hdb : st.maincounterGetNext.2.maindb = st.maindb := rfl
          rw [hdb, ht.addRecord_insert hok]
          by_cases hfree : exterDataTable.notfound data = false ∧ exterDataTable.id data ≠ 0 ∧
              st.maindb.get (encodePrimaryKey exterDataTable.primaryKey (exterDataTable.id data)) =
                none ∧ st.maindb.get (exterDataTable.getKey data uExterdataName) = none
          · rw [if_pos hfree]
            have hcreates : Creates st.maindb ⟨false, data⟩ := ⟨hfree.2, hfree.1, .inl hperm⟩
            have hmaster : st.maincounterGetNext.2.isMaster = true := hm
            exact commit_account hmaster hdb hcreates currtime env
          · rw [if_neg hfree]
            exact .inl rfl

end ExterDataService

end Zapdos.Store
