/-
  Entitlement by categories — which users a read of an item treats as `R_USER`.

  A read checks the session, which is a `Get` of the user, then finds the item and looks up the
  categories of the REQUEST among the entries of the user, one after the other; commits and other
  `Get` functions go on all the while.  The read is right when the class is `R_USER` for exactly the
  users that are not deleted and share a category with the stored item.

  THE CRUX.  With time stamps that tell the records apart, the entries under the present stamp are the
  categories of the user, once they are all set (`Moment.entry`).  What is compared with them is the
  list in the request: the verdict is right only when that list meets the user's categories exactly if
  the item's does.
-/
import Zapdos.Store.CategoryEntries
import Zapdos.Store.RelationLookup

namespace Zapdos.Store

open Zapdos.Lib

namespace CategoryAccess

open CacheCoherence (Rec Result Shows found key pack returned setCopy)
open CategoryEntries
open RelationLookup (ItemKind)

/-! ## The entitlement -/

/-- One of these categories is a category of the user. -/
def Shares (u : UserDataT) (categories : List Bytes) : Prop :=
  ∃ category ∈ categories, category ∈ u.categories

/-- The item stored under a unique id. -/
def storedItem (k : ItemKind) (db : DataDb) (uniqueId : Bytes) : Option ItemDataT :=
  k.table.find db (encodeSecondaryKey k.ukey uniqueId)

/-- **The entitlement**: the stored user is not deleted and shares a category with the item. -/
def Entitled (db : DataDb) (name : Bytes) (item : ItemDataT) : Prop :=
  ∃ u, storedUser db name = some u ∧ u.isDeleted = false ∧ Shares u item.categories

/-- `ReadData` finds an item for the payload and gives the reader the class of users. -/
def TreatedAsUser (k : ItemKind) (st : SharedTable) (reader : UserDataT) (data : ItemDataT) :
    Prop :=
  ∃ cdata reader' st', k.table.getOne st.maindb { uniqueId := data.uniqueId } k.ukey =
      .ok (true, cdata) ∧
    ItemDataService.readerType st reader cdata data = .ok (.rUser, reader', st')

/-- The categories of the request meet those of a user who is not deleted if and only if the
    categories of the item do. -/
def RequestMatches (db : DataDb) (name : Bytes) (item data : ItemDataT) : Prop :=
  ∀ u, storedUser db name = some u → u.isDeleted = false →
    (Shares u data.categories ↔ Shares u item.categories)

/-! ## The session check -/

/-- A session that is good returns what `Get` returns. -/
theorem session_reader {decode : Decode} {currtime : Nat} {st st' : SharedTable}
    {q reader : UserDataT} (hkt : q.keytype = kUserdata)
    (h : checkSession decode currtime st q false = (st', .ok (some reader))) :
    userCredGet st q = .ok (reader, st') ∧ reader.notfound = false := by
  have hne : ¬ q.keytype = kExterdata := by
    rw [hkt]
    decide
  rw [checkSession, if_neg hne, if_neg Bool.false_ne_true, if_pos hkt] at h
  simp only [Prod.mk.injEq] at h
  obtain ⟨hst, hres⟩ := h
  rw [credCheckSession] at hst hres
  by_cases hname : q.name = []
  · rw [if_pos hname] at hres
    cases hres
  · rw [if_neg hname] at hst hres
    by_cases hkey : q.sessionkey = []
    · rw [if_pos hkey] at hres
      cases hres
    · rw [if_neg hkey] at hst hres
      cases hget : userCredGet st q with
      | error e =>
        rw [hget] at hres
        cases hres
      | ok out =>
        obtain ⟨r, st₁⟩ := out
        rw [hget] at hst hres
        dsimp only at hst hres
        cases hno : r.notfound with
        | true =>
          rw [if_pos hno] at hres
          cases hres
        | false =>
          rw [if_neg (by rw [hno]; exact Bool.false_ne_true)] at hres
          have hr : r = reader := by
            cases hdec : decode r.signkey q.sessionkey with
            | error e =>
              rw [hdec] at hres
              cases hres
            | ok x =>
              simp only [hdec, bind, Except.bind] at hres
              split at hres
              · cases hres
              · split at hres
                · cases hres
                · split at hres
                  · cases hres
                  · exact Option.some.inj (Except.ok.inj hres)
          rw [← hr, ← hst]
          exact ⟨rfl, hno⟩

/-- The steps that set the entries and return. -/
theorem exec_entries {s : State} {i : Nat} {q r : UserDataT} {since index : Nat} {rest : List Bytes}
    (hi : s.filling i = some ⟨q, r, since, index, rest⟩) :
    ∃ s', machine.exec s (List.replicate rest.length (.entry i) ++ [.finish i]) = some s' ∧
      s'.base.st = { s.base.st with
        dbcache := rest.foldl (fun c category => CacheContainer.setAssoc c
          (categoryKey r.name category) (.tsText r.updatedAt) false) s.base.st.dbcache } ∧
      (⟨.user, q, since, found .user r⟩ : Result) ∈ s'.base.results := by
  induction rest generalizing s with
  | nil =>
    have hfinish : machine.step s (.finish i) = some
        { base := { s.base with results := ⟨.user, q, since, found .user r⟩ :: s.base.results }
          filling := Function.update s.filling i none } := by
      show finish s i = _
      unfold finish
      rw [hi]
    exact ⟨_, Machine.exec_cons hfinish rfl, rfl, List.mem_cons_self⟩
  | cons category rest ih =>
    have hentry : machine.step s (.entry i) = some
        { base := { s.base with
            st := { s.base.st with
              dbcache := CacheContainer.setAssoc s.base.st.dbcache (categoryKey r.name category)
                (.tsText r.updatedAt) false } }
          filling := Function.update s.filling i (some ⟨q, r, since, index, rest⟩) } := by
      show entry s i = _
      unfold entry
      rw [hi]
    obtain ⟨s₁, hs₁⟩ := Option.isSome_iff_exists.mp (Option.isSome_of_mem hentry)
    have hsame := Option.some.inj (hs₁.symm.trans hentry)
    have hi₁ : s₁.filling i = some ⟨q, r, since, index, rest⟩ := by
      rw [hsame]
      exact Function.update_self ..
    obtain ⟨s', he, hst, hres⟩ := ih hi₁
    refine ⟨s', Machine.exec_cons hs₁ he, ?_, hres⟩
    rw [hst, hsame]
    rfl

/-- A look into the cache that finds the copy. -/
theorem start_hit {s : State} {i : Nat} {q r : UserDataT} (hreader : s.base.readers i = none)
    (hidle : s.filling i = none) (hl : CacheCoherence.lookup .user s.base.st q = some r) :
    machine.step s (.base (.start i .user q)) = some { s with base := { s.base with
      results := ⟨.user, q, returned s.base.commits (userKey q.name), r⟩ :: s.base.results } } := by
  show start s i .user q = _
  unfold start stepBase CacheCoherence.step
  simp only [hidle, hreader, hl, Option.map_some]
  rfl

/-- A look into the cache that finds nothing. -/
theorem start_miss {s : State} {i : Nat} {q : UserDataT} (hreader : s.base.readers i = none)
    (hidle : s.filling i = none) (hl : CacheCoherence.lookup .user s.base.st q = none) :
    machine.step s (.base (.start i .user q)) = some { s with base := { s.base with
      readers := Function.update s.base.readers i
        (some (.missed .user q (returned s.base.commits (userKey q.name)))) } } := by
  show start s i .user q = _
  unfold start stepBase CacheCoherence.step
  simp only [hidle, hreader, hl, Option.map_some]
  rfl

/-- A read of the table that finds the user. -/
theorem read_found {s : State} {i : Nat} {q r : UserDataT} {since : Nat}
    (hok : StoreOk s.base.st.maindb) (hreader : s.base.readers i = some (.missed .user q since))
    (hfind : storedUser s.base.st.maindb q.name = some r) :
    machine.step s (.base (.read i)) = some { s with base := { s.base with
      readers := Function.update s.base.readers i
        (some (.read .user q r since s.base.now)) } } := by
  have hread : CacheCoherence.dbRead .user s.base.st q = .ok (true, r) := by
    have hspec := CacheCoherence.dbRead_spec (k := .user) hok q
    have hfind' : (CacheCoherence.table .user).find s.base.st.maindb (key .user q) = some r := hfind
    rwa [hfind'] at hspec
  show stepBase s (.read i) = _
  unfold stepBase CacheCoherence.step
  simp only [hreader, hread, Option.map_some]

/-- The fill of the copy. -/
theorem fill_copy {s : State} {i : Nat} {q r : UserDataT} {since index : Nat}
    (hreader : s.base.readers i = some (.read .user q r since index)) :
    machine.step s (.base (.fill i)) = some
      { base := { s.base with
          st := { s.base.st with dbcache := setCopy .user r s.base.st.dbcache }
          readers := Function.update s.base.readers i none }
        filling := Function.update s.filling i (some ⟨q, r, since, index, r.categories⟩) } := by
  show fill s i = _
  unfold fill
  rw [hreader]

/-- **The session check is a `Get` that runs through**: its steps in a row. -/
theorem session_in_row {s : State} {i : Nat} {decode : Decode} {currtime : Nat} {q v : UserDataT}
    {st' : SharedTable} (hok : StoreOk s.base.st.maindb) (hreader : s.base.readers i = none)
    (hidle : s.filling i = none) (hkt : q.keytype = kUserdata)
    (hsess : checkSession decode currtime s.base.st q false = (st', .ok (some v))) :
    ∃ ls s', machine.exec s ls = some s' ∧ s'.base.st = st' ∧
      (⟨.user, q, returned s.base.commits (userKey q.name), v⟩ : Result) ∈ s'.base.results := by
  obtain ⟨hget, hfound⟩ := session_reader hkt hsess
  rw [← CacheCoherence.get_user] at hget
  unfold CacheCoherence.get at hget
  cases hl : CacheCoherence.lookup .user s.base.st q with
  | some r =>
    rw [hl] at hget
    obtain ⟨rfl, rfl⟩ := Prod.mk.inj (Except.ok.inj hget)
    exact ⟨[.base (.start i .user q)], _, Machine.exec_cons (start_hit hreader hidle hl) rfl, rfl,
      List.mem_cons_self⟩
  | none =>
    have hspec := CacheCoherence.dbRead_spec (k := .user) hok q
    cases hfind : storedUser s.base.st.maindb q.name with
    | none =>
      have hfind' : (CacheCoherence.table .user).find s.base.st.maindb (key .user q) = none := hfind
      rw [hfind'] at hspec
      simp only [hl, hspec] at hget
      obtain ⟨rfl, -⟩ := Prod.mk.inj (Except.ok.inj hget)
      cases hfound
    | some r =>
      have hfind' : (CacheCoherence.table .user).find s.base.st.maindb (key .user q) = some r :=
        hfind
      rw [hfind'] at hspec
      simp only [hl, hspec] at hget
      obtain ⟨rfl, rfl⟩ := Prod.mk.inj (Except.ok.inj hget)
      -- a miss: all the steps are taken
      obtain ⟨s₁, hs₁⟩ := Option.isSome_iff_exists.mp
        (Option.isSome_of_mem (start_miss hreader hidle hl))
      have h₁ := Option.some.inj (hs₁.symm.trans (start_miss hreader hidle hl))
      have hreader₁ : s₁.base.readers i =
          some (.missed .user q (returned s.base.commits (userKey q.name))) := by
        rw [h₁]
        exact Function.update_self ..
      have hst₁ : s₁.base.st = s.base.st := by rw [h₁]
      have hread := read_found (hst₁ ▸ hok) hreader₁ (hst₁ ▸ hfind)
      obtain ⟨s₂, hs₂⟩ := Option.isSome_iff_exists.mp (Option.isSome_of_mem hread)
      have h₂ := Option.some.inj (hs₂.symm.trans hread)
      have hreader₂ : s₂.base.readers i = some (.read .user q r
          (returned s.base.commits (userKey q.name)) s₁.base.now) := by
        rw [h₂]
        exact Function.update_self ..
      obtain ⟨s₃, hs₃⟩ := Option.isSome_iff_exists.mp (Option.isSome_of_mem (fill_copy hreader₂))
      have h₃ := Option.some.inj (hs₃.symm.trans (fill_copy hreader₂))
      have hfilling : s₃.filling i = some ⟨q, r, returned s.base.commits (userKey q.name),
          s₁.base.now, r.categories⟩ := by
        rw [h₃]
        exact Function.update_self ..
      obtain ⟨s', he, hst, hres⟩ := exec_entries hfilling
      refine ⟨_, s', Machine.exec_cons hs₁ (Machine.exec_cons hs₂ (Machine.exec_cons hs₃ he)), ?_,
        hres⟩
      rw [hst, h₃, h₂, hst₁]
      rfl

/-! ## A read -/

/-- A moment of a read for which `Get` has returned `v`: the user has not been written since the last
    commit that had returned when that `Get` started. -/
structure Moment (s : State) (q v : UserDataT) (since : Nat) : Prop where
  reach : machine.ReachWhere Orderly s
  returned : (⟨.user, q, since, v⟩ : Result) ∈ s.base.results
  last : Last s.base.commits (userKey q.name) since

/-- No `Get` has still to set entries of the user. -/
def NoneFilling (s : State) (name : Bytes) : Prop :=
  ∀ i f, s.filling i = some f → f.query.name ≠ name

namespace Moment

variable {s : State} {q v : UserDataT} {since : Nat}

/-- **What `Get` has returned is the stored user.** -/
theorem value (h : Moment s q v since) (hfound : v.notfound = false) :
    ∃ u, storedUser s.base.st.maindb q.name = some u ∧
      (v = found .user u ∨ v = found .user (pack .user u)) := by
  have hinv := inv_reach h.reach
  obtain ⟨n, hsince, hn, hshows⟩ := hinv.coherent.results _ h.returned
  have hsame := hinv.users.same n q.name hn fun c hc hlt hrec =>
    Nat.not_lt.mpr (h.last c hc hrec) (Nat.lt_of_le_of_lt hsince hlt)
  unfold Shows at hshows
  cases hu : storedUser (s.base.dbs n) q.name with
  | none =>
    have hfind : (CacheCoherence.table .user).find (s.base.dbs n) (key .user q) = none := hu
    rw [hfind] at hshows
    have hv : v = CacheCoherence.missing .user q := hshows
    rw [hv] at hfound
    cases hfound
  | some u =>
    have hfind : (CacheCoherence.table .user).find (s.base.dbs n) (key .user q) = some u := hu
    rw [hfind] at hshows
    exact ⟨u, hsame.symm.trans hu, hshows⟩

/-- What of the stored user is in what `Get` returns. -/
theorem fields (h : Moment s q v since) (hfound : v.notfound = false) :
    ∃ u, storedUser s.base.st.maindb q.name = some u ∧ v.id ≠ 0 ∧ v.keytype = kUserdata ∧
      v.isAdmin = false ∧ v.name = q.name ∧ v.isDeleted = u.isDeleted ∧
      v.updatedAt = u.updatedAt ∧ v.categories = u.categories := by
  have hinv := inv_reach h.reach
  obtain ⟨u, hu, hv⟩ := h.value hfound
  obtain ⟨hid, hname⟩ := name_of_stored hinv.ok hu
  have hadmin := hinv.users.noAdmin q.name u hu
  rcases hv with rfl | rfl
  · exact ⟨u, hu, hid, rfl, hadmin, hname, rfl, rfl, rfl⟩
  · exact ⟨u, hu, hid, rfl, rfl, hname, rfl, rfl, rfl⟩

/-- **The entries under the stamp of the user are the categories**, when no `Get` has still to set
    some. -/
theorem entry (h : Moment s q v since) (hfound : v.notfound = false)
    (hnone : NoneFilling s q.name) (category : Bytes) :
    s.base.st.dbcache.get (categoryKey q.name category) = some (.tsText v.updatedAt) ↔
      category ∈ v.categories := by
  have hinv := inv_reach h.reach
  obtain ⟨u, hu, -, -, -, -, -, hts, hcats⟩ := h.fields hfound
  rw [hts, hcats]
  constructor
  · intro hget
    obtain ⟨r, hhad, hcat, hstamp⟩ := hinv.users.stamped q.name category _ hget
    exact hinv.users.stamps q.name r u hhad hu (CacheV.tsText.inj hstamp).symm hcat
  · intro hcat
    have hcover := (hinv.results q v since h.returned hfound).cover h.last
    rcases hcover u hu category hcat with hget | ⟨i, f, hi, hname, -⟩
    · exact hget
    · exact absurd hname (hnone i f hi)

end Moment

/-- What a read sees that finds its item in the state `s`: each category is looked up at a moment of
    its own, when no `Get` has still to set entries of the user. -/
structure Sees (s : State) (q v : UserDataT) (since : Nat) (data : ItemDataT) (st : SharedTable) :
    Prop where
  records : st.maindb = s.base.st.maindb
  entries : ∀ category ∈ data.categories, ∃ s', Moment s' q v since ∧ NoneFilling s' q.name ∧
    st.dbcache.get (categoryKey q.name category) =
      s'.base.st.dbcache.get (categoryKey q.name category)

/-- `GetOne` finds the item that is stored under the unique id. -/
theorem getOne_item {db : DataDb} (hok : StoreOk db) (k : ItemKind) {uniqueId : Bytes}
    {item : ItemDataT} (h : storedItem k db uniqueId = some item) :
    k.table.getOne db { uniqueId := uniqueId } k.ukey = .ok (true, item) := by
  cases k with
  | localdata =>
    have hone := StoreTable.localDataTable_singleKey.getOne_unique (hok .localdata)
      { uniqueId := uniqueId }
    have hfind : localDataTable.find db
        (localDataTable.getKey { uniqueId := uniqueId } uLocaldataUniqueid) = some item := h
    rw [hfind] at hone
    exact hone
  | wikidata =>
    have hone := StoreTable.wikiDataTable_singleKey.getOne_unique (hok .wikidata)
      { uniqueId := uniqueId }
    have hfind : wikiDataTable.find db
        (wikiDataTable.getKey { uniqueId := uniqueId } uWikidataUniqueid) = some item := h
    rw [hfind] at hone
    exact hone

/-- **What the code decides**: the class of users is for those whose categories the REQUEST names. -/
theorem treatedAsUser_iff {s : State} {q v : UserDataT} {since : Nat} (hs : Moment s q v since)
    (hfound : v.notfound = false) {st : SharedTable} (k : ItemKind) {data item : ItemDataT}
    (hsees : Sees s q v since data st)
    (hitem : storedItem k s.base.st.maindb data.uniqueId = some item) :
    TreatedAsUser k st v data ↔
      ∃ u, storedUser s.base.st.maindb q.name = some u ∧ u.isDeleted = false ∧
        Shares u data.categories := by
  obtain ⟨u, hu, hid, hkt, hadmin, hname, hdel, -, hcats⟩ := hs.fields hfound
  have hone := getOne_item (inv_reach hs.reach).ok k hitem
  have hclass := @ItemDataService.readerType_user st v hadmin hkt hid hfound item data
  have hlook : ∀ category ∈ data.categories,
      (st.dbcache.get (categoryKey v.name category) = some (.tsText v.updatedAt) ↔
        category ∈ u.categories) := by
    intro category hcat
    obtain ⟨s', hs', hnone, hget⟩ := hsees.entries category hcat
    rw [hname, hget, hs'.entry hfound hnone, hcats]
  have hcond : (v.isDeleted = false ∧ ∃ category ∈ data.categories,
      st.dbcache.get (categoryKey v.name category) = some (.tsText v.updatedAt)) ↔
        u.isDeleted = false ∧ Shares u data.categories := by
    rw [hdel]
    exact and_congr_right fun _ => exists_congr fun category => and_congr_right (hlook category)
  constructor
  · rintro ⟨cdata, reader', st₂, hone', htype⟩
    rw [hsees.records, hone] at hone'
    have hcdata : item = cdata := (Prod.mk.inj (Except.ok.inj hone')).2
    rw [← hcdata, hclass] at htype
    split at htype
    · rename_i hboth
      exact ⟨u, hu, hcond.mp hboth⟩
    · cases htype
  · rintro ⟨u', hu', hboth⟩
    have hsame : u = u' := Option.some.inj (hu.symm.trans hu')
    subst hsame
    refine ⟨item, v, st, ?_, ?_⟩
    · rw [hsees.records]
      exact hone
    · rw [hclass, if_pos (hcond.mpr hboth)]

/-- **Entitlement by categories**: in every orderly run a read is right exactly when the categories of
    the request match. -/
theorem readsRight_iff {s : State} {q v : UserDataT} {since : Nat} (hs : Moment s q v since)
    (hfound : v.notfound = false) {st : SharedTable} (k : ItemKind) {data item : ItemDataT}
    (hsees : Sees s q v since data st)
    (hitem : storedItem k s.base.st.maindb data.uniqueId = some item) :
    (TreatedAsUser k st v data ↔ Entitled s.base.st.maindb q.name item) ↔
      RequestMatches s.base.st.maindb q.name item data := by
  rw [treatedAsUser_iff hs hfound k hsees hitem]
  constructor
  · intro hright u hu hdel
    constructor
    · intro hshares
      obtain ⟨u', hu', -, hitems⟩ := hright.mp ⟨u, hu, hdel, hshares⟩
      rw [Option.some.inj (hu.symm.trans hu')]
      exact hitems
    · intro hshares
      obtain ⟨u', hu', -, hitems⟩ := hright.mpr ⟨u, hu, hdel, hshares⟩
      rw [Option.some.inj (hu.symm.trans hu')]
      exact hitems
  · intro hmatch
    constructor
    · rintro ⟨u, hu, hdel, hshares⟩
      exact ⟨u, hu, hdel, (hmatch u hu hdel).mp hshares⟩
    · rintro ⟨u, hu, hdel, hshares⟩
      exact ⟨u, hu, hdel, (hmatch u hu hdel).mpr hshares⟩

/-! ## A shop with two items -/

/-- A user with these categories, and the time of the record. -/
def ann (categories : List Bytes) (updatedAt : Nat) : UserDataT where
  id := 2
  name := str "ann"
  categories := categories
  updatedAt := updatedAt

/-- An item for users of the category `gold`. -/
def tour : ItemDataT where
  id := 3
  uniqueId := str "tour"
  categories := [str "gold"]

/-- An item without categories. -/
def vault : ItemDataT where
  id := 4
  uniqueId := str "vault"

/-- The rows of the user and of the two items. -/
def shopDb : DataDb :=
  (OrdMap.empty.write
    (dataBatch (userDataTable.rows uUserdataName ⟨false, ann [str "gold"] 5⟩))).write
    (dataBatch ([⟨false, tour⟩, ⟨false, vault⟩].flatMap (localDataTable.rows uLocaldataUniqueid)))

/-- The shop before anyone has looked into the cache. -/
def shop : State where
  base := { st := { maindb := shopDb }, dbs := fun _ => shopDb }

/-- Its rows are in order. -/
theorem storeOk_shopDb : StoreOk shopDb := by
  have huser : StoreOk (OrdMap.empty.write
      (dataBatch (userDataTable.rows uUserdataName ⟨false, ann [str "gold"] 5⟩))) :=
    @StoreOk.write _ storeOk_empty .user [⟨false, ann [str "gold"] 5⟩]
      (List.forall_mem_singleton.mpr ⟨by decide, rfl, rfl⟩) (List.pairwise_singleton _ _)
  exact @StoreOk.write _ huser .localdata [⟨false, tour⟩, ⟨false, vault⟩] (by decide) (by decide)

/-- The only user. -/
theorem storedUser_shop {name : Bytes} {u : UserDataT} (h : storedUser shopDb name = some u) :
    u = ann [str "gold"] 5 := by
  obtain ⟨-, -, hrow, -⟩ :=
    (StoreTable.userDataTable_singleKey.find_eq_some (storeOk_shopDb .user) rfl).mp h
  rcases OrdMap.get_write_some hrow with hold | hput
  · rcases OrdMap.get_write_some hold with hnone | hput
    · cases hnone
    · rcases List.mem_cons.mp hput with hindex | hrecord
      · cases hindex
      · exact DataV.user.inj (OrdMap.BatchOp.put.inj (List.mem_singleton.mp hrecord)).2
  · revert hput
    simp [dataBatch, StoreTable.rows, StoreTable.insertRows, localDataTable, itemTable,
      userDataTable, userTable]

/-- It is a start of the machine. -/
theorem shop_init : machine.init shop := by
  refine ⟨⟨storeOk_shopDb, rfl, rfl, fun _ => rfl, rfl, rfl, fun _ _ _ _ h => by cases h⟩, rfl, ?_,
    fun _ => rfl⟩
  intro name u hu
  rw [storedUser_shop hu]
  rfl

/-- A session key that decodes to `ann`. -/
def annSession : Decode := fun _ _ => .ok { name := str "ann", updatedAt := 5 }

/-- What a session check asks for. -/
def askAnn : UserDataT := { name := str "ann", sessionkey := str "key", keytype := kUserdata }

/-- A `Get` of `ann` with one category. -/
def annGet : List Label :=
  [.base (.start 0 .user askAnn), .base (.read 0), .base (.fill 0), .entry 0, .finish 0]

/-- One `Get` by itself fills in in time. -/
theorem annGet_orderly : machine.StepsOk Orderly shop annGet := by
  refine ⟨⟨trivial, trivial⟩, fun s1 h1 => ⟨⟨trivial, trivial⟩, fun s2 h2 => ⟨⟨?_, trivial⟩,
    fun s3 h3 => ⟨?_, fun s4 h4 => ⟨trivial, fun s5 h5 => trivial⟩⟩⟩⟩⟩
  · cases h1
    cases h2
    intro k q r since index _ c hc
    cases hc
  · cases h1
    cases h2
    cases h3
    intro f _ c hc
    cases hc

/-- When `Get` functions of one reader have run through, no entries are still to be set. -/
theorem noneFilling_of {s : State} {name : Bytes} (h0 : s.filling 0 = none)
    (hrest : ∀ i, i ≠ 0 → s.filling i = none) : NoneFilling s name := by
  intro i f hi
  have hnone : s.filling i = none := by
    by_cases h : i = 0
    · rw [h]
      exact h0
    · exact hrest i h
  rw [hnone] at hi
  cases hi

/-- What a read sees in one state. -/
theorem sees_now {s : State} {q v : UserDataT} {since : Nat} (hs : Moment s q v since)
    (hnone : NoneFilling s q.name) (data : ItemDataT) : Sees s q v since data s.base.st :=
  ⟨rfl, fun _ _ => ⟨s, hs, hnone, rfl⟩⟩

/-- The user is let in or kept out by what the request says: `ann` may see the tour and not the
    vault; a read without categories, and one that names `gold`, get it the other way round. -/
theorem class_from_request : ∃ s v, machine.Reach s ∧
    checkSession annSession 5 shop.base.st askAnn false = (s.base.st, .ok (some v)) ∧
    (⟨.user, askAnn, 0, v⟩ : Result) ∈ s.base.results ∧
    (Entitled s.base.st.maindb (str "ann") tour ∧
      ¬ TreatedAsUser .localdata s.base.st v { uniqueId := str "tour" }) ∧
    (¬ Entitled s.base.st.maindb (str "ann") vault ∧
      TreatedAsUser .localdata s.base.st v
        { uniqueId := str "vault", categories := [str "gold"] }) := by
  have hrun : ∃ (s : State) (v : UserDataT), machine.exec shop annGet = some s ∧
      checkSession annSession 5 shop.base.st askAnn false = (s.base.st, .ok (some v)) ∧
      s.base.results = [⟨.user, askAnn, 0, v⟩] ∧ v.notfound = false ∧ s.base.commits = [] ∧
      s.filling 0 = none ∧ (∀ i, i ≠ 0 → s.filling i = none) ∧
      storedUser s.base.st.maindb (str "ann") = some (ann [str "gold"] 5) ∧
      storedItem .localdata s.base.st.maindb (str "tour") = some tour ∧
      storedItem .localdata s.base.st.maindb (str "vault") = some vault := by
    refine ⟨_, _, rfl, rfl, rfl, rfl, rfl, rfl, fun i hi => ?_, by decide, by decide, by decide⟩
    exact (Function.update_of_ne hi ..).trans ((Function.update_of_ne hi ..).trans
      (Function.update_of_ne hi ..))
  obtain ⟨s, v, he, hsess, hres, hfound, hcommits, h0, hrest, hann, htour, hvault⟩ := hrun
  have hmoment : Moment s askAnn v 0 := by
    refine ⟨.exec (.init shop_init) annGet_orderly he, ?_, ?_⟩
    · rw [hres]
      exact List.mem_cons_self
    · intro c hc
      rw [hcommits] at hc
      cases hc
  have hsees := sees_now hmoment (noneFilling_of h0 hrest)
  refine ⟨s, v, hmoment.reach.mono fun _ _ _ => trivial, hsess, hmoment.returned,
    ⟨⟨_, hann, rfl, str "gold", by decide, by decide⟩, ?_⟩, ?_, ?_⟩
  · intro htreated
    obtain ⟨u, -, -, category, hcat, -⟩ :=
      (treatedAsUser_iff hmoment hfound .localdata (hsees _) htour).mp htreated
    cases hcat
  · rintro ⟨u, -, -, category, hcat, -⟩
    cases hcat
  · refine (treatedAsUser_iff hmoment hfound .localdata (hsees _) hvault).mpr ?_
    exact ⟨_, hann, rfl, str "gold", by decide, by decide⟩

/-- `ann` is read and cached, then she loses the category, at another time, and is read again. -/
def demotion : List Label :=
  annGet ++ [.base (.write .user [⟨true, ann [str "silver"] 6⟩]), .base (.drop 0)] ++ annGet

/-- Nothing is pending while no commit has a copy to drop. -/
theorem pending_of_done {commits : List CacheCoherence.Commit} {index : Nat} {hash : Key}
    (h : ∀ c ∈ commits, c.index ≤ index) : CacheCoherence.Pending commits index hash :=
  fun c hc hlt => absurd (h c hc) (Nat.not_le.mpr hlt)

/-- The edit has a new time stamp, and the second `Get` reads after it. -/
theorem demotion_orderly : machine.StepsOk Orderly shop demotion := by
  refine ⟨⟨trivial, trivial⟩, fun s1 h1 => ⟨⟨trivial, trivial⟩, fun s2 h2 => ⟨⟨?_, trivial⟩,
    fun s3 h3 => ⟨?_, fun s4 h4 => ⟨trivial, fun s5 h5 => ⟨⟨trivial, ?_⟩, fun s6 h6 =>
    ⟨⟨trivial, trivial⟩, fun s7 h7 => ⟨⟨trivial, trivial⟩, fun s8 h8 => ⟨⟨trivial, trivial⟩,
    fun s9 h9 => ⟨⟨?_, trivial⟩, fun s10 h10 => ⟨?_, fun s11 h11 => ⟨trivial, fun s12 h12 =>
    trivial⟩⟩⟩⟩⟩⟩⟩⟩⟩⟩⟩⟩
  · cases h1
    cases h2
    intro k q r since index _ c hc
    cases hc
  · cases h1
    cases h2
    cases h3
    intro f _ c hc
    cases hc
  · cases h1
    cases h2
    cases h3
    cases h4
    cases h5
    intro c hc n hn r hr hts
    rcases List.mem_singleton.mp hc with rfl
    have hold : r = ann [str "gold"] 5 := storedUser_shop hr
    rw [hold] at hts
    exact absurd hts (by decide)
  · cases h1
    cases h2
    cases h3
    cases h4
    cases h5
    cases h6
    cases h7
    cases h8
    cases h9
    intro k q r since index hread
    cases hread
    exact pending_of_done (List.forall_mem_singleton.mpr le_rfl)
  · cases h1
    cases h2
    cases h3
    cases h4
    cases h5
    cases h6
    cases h7
    cases h8
    cases h9
    cases h10
    intro f hf
    cases hf
    exact pending_of_done (List.forall_mem_singleton.mpr le_rfl)

/-- After it a request with the categories of the item is read right: `ann` is kept out. -/
theorem readsRight_demoted : ∃ s v, machine.exec shop demotion = some s ∧
    (⟨.user, askAnn, 1, v⟩ : Result) ∈ s.base.results ∧
    storedUser s.base.st.maindb (str "ann") = some (ann [str "silver"] 6) ∧
    ¬ Entitled s.base.st.maindb (str "ann") tour ∧
    (TreatedAsUser .localdata s.base.st v { uniqueId := str "tour", categories := [str "gold"] } ↔
      Entitled s.base.st.maindb (str "ann") tour) := by
  have hrun : ∃ (s : State) (v : UserDataT), machine.exec shop demotion = some s ∧
      (⟨.user, askAnn, 1, v⟩ : Result) ∈ s.base.results ∧ v.notfound = false ∧
      (∀ c ∈ s.base.commits, c.index ≤ 1) ∧
      s.filling 0 = none ∧ (∀ i, i ≠ 0 → s.filling i = none) ∧
      storedUser s.base.st.maindb (str "ann") = some (ann [str "silver"] 6) ∧
      storedItem .localdata s.base.st.maindb (str "tour") = some tour := by
    refine ⟨_, _, rfl, List.mem_cons_self, rfl, List.forall_mem_singleton.mpr le_rfl, rfl,
      fun i hi => ?_, by decide, by decide⟩
    exact (Function.update_of_ne hi ..).trans ((Function.update_of_ne hi ..).trans
      ((Function.update_of_ne hi ..).trans ((Function.update_of_ne hi ..).trans
        ((Function.update_of_ne hi ..).trans (Function.update_of_ne hi ..)))))
  obtain ⟨s, v, he, hres, hfound, hcommits, h0, hrest, hann, htour⟩ := hrun
  have hmoment : Moment s askAnn v 1 :=
    ⟨.exec (.init shop_init) demotion_orderly he, hres, fun c hc _ => hcommits c hc⟩
  refine ⟨s, v, he, hres, hann, ?_, ?_⟩
  · rintro ⟨u, hu, -, category, hcat, hmem⟩
    rw [← Option.some.inj (hann.symm.trans hu)] at hmem
    have hgold : category = str "gold" := List.mem_singleton.mp hcat
    rw [hgold] at hmem
    revert hmem
    decide
  · exact (readsRight_iff hmoment hfound .localdata
      (sees_now hmoment (noneFilling_of h0 hrest) _) htour).mpr fun _ _ _ => Iff.rfl

end CategoryAccess

end Zapdos.Store
