/-
  Two `ManageDataAction`s at once on the same records — whether one loses what the other has written.

  A name stays reserved until its request ends, so of two successful requests with a name in common
  one has written its records before the other reserves any such name.

  THE CRUX.  Users, exters and items are READ before the name is reserved.  A request that reads, waits
  while the other one writes and ends, and then reserves, prepares its record from the old one and
  writes it over the new.  Tags and categories are read under the reservation.  If no request is left
  with a record that the other has written since, the records in common are those of the two requests
  one after the other (`noneLost_of_current`).
-/
import Zapdos.Store.TwoRequests

namespace Zapdos.Store.LostUpdates

open Zapdos.Lib Requests
open Service (newCount newCount_like RanAlone Like)
open TwoRequests (Good Made Close keys_close newCount_close)

variable {k : RecKind}

/-- The transaction has a new record under this name. -/
def Inserts (t : TransactionT) (key : Key) : Prop := ∃ row ∈ t.item, row.key = key

/-- What one of the requests does to the master on its own. -/
def first (r : TwoRequests k) (σ : IdleMaster) (a : ℕ) : ActionOut k.Rec :=
  k.service.manage σ.st (r.m a) (r.input a) {}

/-- What the other one does after it. -/
def second (r : TwoRequests k) (σ : IdleMaster) (a b : ℕ) : ActionOut k.Rec :=
  k.service.manage (first r σ a).table (r.m b) (r.input b) {}

/-- **No update is lost**: one after the other, in some order, both requests succeed as well and leave
    the same records under the names they share; and they do not insert one name both. -/
structure NoneLost (r : TwoRequests k) (σ : IdleMaster) (s : Sys) : Prop where
  serial : ∃ a b, a < 2 ∧ b < 2 ∧ a ≠ b ∧ (∃ payloads, (first r σ a).result = .ok payloads) ∧
    (∃ payloads, (second r σ a b).result = .ok payloads) ∧
    ∀ key ∈ r.names a, key ∈ r.names b →
      k.service.table.find s.table.maindb key =
        k.service.table.find (second r σ a b).table.maindb key
  once : ∀ t t', s.threads 0 = .ended (some t) → s.threads 1 = .ended (some t') →
    ∀ key ∈ r.names 0, key ∈ r.names 1 → ¬ (Inserts t key ∧ Inserts t' key)

/-- Both requests have succeeded: what they have committed has a place in the search index, if there
    is one. -/
def Succeeded (σ : IdleMaster) (s : Sys) : Prop :=
  ∀ o, o < 2 → ∃ t, s.threads o = .ended (some t) ∧ CacheTakes σ.st.noXapian {} t.item

/-! ## One after the other -/

section Serial

variable {r : TwoRequests k} {σ : IdleMaster} {a b : ℕ} {csA csB : List (Change k.Rec)}

/-- The records after some changes. -/
def written (db : DataDb) (cs : List (Change k.Rec)) : DataDb :=
  db.write (dataBatch (cs.flatMap (k.service.table.rows k.service.ukey)))

theorem storeOk_written {db : DataDb} (hok : StoreOk db) {cs : List (Change k.Rec)}
    (hfits : ∀ c ∈ cs, StoreTable.Fits k.service.table k.service.ukey db c)
    (hapart : cs.Pairwise (StoreTable.Apart k.service.table k.service.ukey)) :
    StoreOk (written db cs) := @StoreOk.write db hok k cs hfits hapart

/-- The first request makes the same changes on its own, but for the ids of new records. -/
theorem first_ran (hmade : r.Made σ σ.st.maindb a csA)
    (hfree : ∀ i, σ.st.maincounter < i → i ≤ σ.st.maincounter + newCount csA →
      σ.st.maindb.get (encodePrimaryKey k.pkey i) = none) :
    ∃ cs', k.service.RanAlone σ.st (first r σ a) cs' ∧ List.Forall₂ (r.Close a) csA cs' ∧
      ∀ c ∈ cs', c.found = false →
        k.service.table.id c.record ≤ σ.st.maincounter + newCount cs' := by
  obtain ⟨cs', halone, hclose⟩ := hmade.alone
  refine ⟨cs', ?_, hclose, fun c hc hf => (halone.ids k.service_lawful c hc hf).2⟩
  exact k.service_lawful.manage_like σ.master σ.free (σ.tables k) halone (σ.tables k)
    (hclose.imp fun _ _ hc => hc.toLike) hmade.notfound hmade.fits hmade.apart (fun _ _ => rfl) hfree

/-- The names of the second request show the same after either. -/
theorem find_written (hab : a ≠ b) (hb : b < 2) (hmade : r.Made σ σ.st.maindb a csA)
    {cs' : List (Change k.Rec)} (hclose : List.Forall₂ (r.Close a) csA cs')
    (hfits' : ∀ c ∈ cs', StoreTable.Fits k.service.table k.service.ukey σ.st.maindb c)
    (hapart' : cs'.Pairwise (StoreTable.Apart k.service.table k.service.ukey)) {key : Key}
    (hk : key.keytype = k.service.ukey) (hkey : key ∈ r.names b) :
    k.service.table.find (written σ.st.maindb cs') key =
      k.service.table.find (written σ.st.maindb csA) key := by
  have ht := k.service_lawful.single
  by_cases hin : ∃ c ∈ csA, k.service.key c.record = key
  · -- a name of both, so the change is the same
    obtain ⟨c, hc, rfl⟩ := hin
    obtain ⟨c', hc', hcc⟩ := forall₂_mem hclose.flip hc
    obtain rfl := hcc.shared ⟨b, hb, Ne.symm hab, hkey⟩
    exact (ht.find_batch (σ.tables k) hfits' hapart' hc').trans
      (ht.find_batch (σ.tables k) hmade.fits hmade.apart hc).symm
  · have hno : ∀ c ∈ csA, k.service.key c.record ≠ key := fun c hc he => hin ⟨c, hc, he⟩
    have hno' : ∀ c ∈ cs', k.service.key c.record ≠ key := by
      intro c' hc' he
      obtain ⟨c, hc, hcc⟩ := forall₂_mem hclose hc'
      exact hno c hc (hcc.key.trans he)
    exact (ht.find_batch_other (σ.tables k) hfits' hapart' hk hno').trans
      (ht.find_batch_other (σ.tables k) hmade.fits hmade.apart hk hno).symm

/-- A free row stays free if no change has its id. -/
theorem row_free {cs' : List (Change k.Rec)} {n : ℕ}
    (hfits' : ∀ c ∈ cs', StoreTable.Fits k.service.table k.service.ukey σ.st.maindb c)
    (hids : ∀ c ∈ cs', c.found = false → k.service.table.id c.record ≤ n) {i : ℕ} (hi : n < i)
    (hrow : σ.st.maindb.get (encodePrimaryKey k.pkey i) = none) :
    (written σ.st.maindb cs').get (encodePrimaryKey k.pkey i) = none := by
  have ht := k.service_lawful.single
  rcases ht.get_write_batch σ.st.maindb cs' i with ⟨c, hc, rfl, -⟩ | ⟨-, hget⟩
  · exfalso
    have hfit := hfits' c hc
    cases hf : c.found with
    | false =>
      have hle := hids c hc hf
      omega
    | true =>
      -- the row of the stored record
      rw [StoreTable.Fits, if_pos hf] at hfit
      obtain ⟨old, hold, hid⟩ := hfit
      obtain ⟨-, -, hget, -⟩ := (ht.find_eq_some (σ.tables k) (ht.keytype_ukey c.record)).mp hold
      rw [← hid] at hget
      rw [show encodePrimaryKey k.service.table.primaryKey _ = encodePrimaryKey k.pkey _ from rfl,
        hrow] at hget
      cases hget
  · exact hget.trans hrow

/-- The second request makes the same changes after the first, but for the ids of new records. -/
theorem second_ran (hab : a ≠ b) (hb : b < 2) (hmadea : r.Made σ σ.st.maindb a csA)
    (hmadeb : r.Made σ (written σ.st.maindb csA) b csB) {cs' : List (Change k.Rec)}
    (hran : k.service.RanAlone σ.st (first r σ a) cs') (hclose : List.Forall₂ (r.Close a) csA cs')
    (hids : ∀ c ∈ cs', c.found = false →
      k.service.table.id c.record ≤ σ.st.maincounter + newCount cs')
    (hfree : ∀ i, σ.st.maincounter < i → i ≤ σ.st.maincounter + newCount csA + newCount csB →
      σ.st.maindb.get (encodePrimaryKey k.pkey i) = none) :
    ∃ cs'', k.service.RanAlone (first r σ a).table (second r σ a b) cs'' ∧
      List.Forall₂ k.service.Like csB cs'' := by
  have hlaw := k.service_lawful
  have hokA := storeOk_written σ.tables hmadea.fits hmadea.apart
  have hok' := storeOk_written σ.tables hran.fits hran.apart
  have hmain : (first r σ a).table.maindb = written σ.st.maindb cs' := hran.maindb
  have hcount := newCount_close hclose
  obtain ⟨csB', halone, hcloseb⟩ := hmadeb.alone
  have hfind : ∀ p ∈ r.input b, k.service.stored (written σ.st.maindb cs') p.1 =
      k.service.stored (written σ.st.maindb csA) p.1 := fun p hp =>
    find_written hab hb hmadea hclose hran.fits hran.apart (hlaw.single.keytype_ukey p.1)
      (List.mem_map.mpr ⟨p, hp, rfl⟩)
  -- the same preparation, from the next free id on
  have hsame : SameNokey (written σ.st.maindb csA) (written σ.st.maindb cs') := fun key hkey =>
    (sameNokey_write k σ.st.maindb cs' key hkey).trans
      (sameNokey_write k σ.st.maindb csA key hkey).symm
  have halone' : k.service.Alone (r.m b) (written σ.st.maindb cs') σ.st.maincounter (r.input b)
      csB' :=
    halone.congr fun p hp out hout => k.prepare_congr hokA hok' hsame (hfind p hp) hout
  obtain ⟨cs'', halone'', hlike''⟩ :=
    halone'.rebase hlaw k.fill_notfound k.fill_takes (first r σ a).table.maincounter
  have hlike : List.Forall₂ k.service.Like csB cs'' :=
    Like.trans_all (hcloseb.imp fun _ _ hc => hc.toLike) hlike''
  rw [← hmain] at halone''
  refine ⟨cs'', ?_, hlike⟩
  refine hlaw.manage_like hran.isMaster (hran.tmpcache.trans σ.free) ?_ halone'' (hokA k) hlike
    hmadeb.notfound hmadeb.fits hmadeb.apart ?_ ?_
  · rw [hmain]
    exact hok' k
  · intro c hc
    rw [hmain]
    refine find_written hab hb hmadea hclose hran.fits hran.apart
      (hlaw.single.keytype_ukey c.record) ?_
    have hkeys := keys_close hokA halone hcloseb
    have hmem : k.service.key c.record ∈ csB.map (fun c => k.service.key c.record) :=
      List.mem_map.mpr ⟨c, hc, rfl⟩
    rw [hkeys] at hmem
    exact hmem
  · intro i hlt hle
    rw [hran.maincounter] at hlt hle
    rw [hmain]
    exact row_free hran.fits hids hlt (hfree i (by omega) (by omega))

end Serial

/-! ## Runs -/

/-- A new record has its name free, so a shared name is found by the second request. -/
theorem found_of_shared {r : TwoRequests k} {σ : IdleMaster} {a b : ℕ} {csA csB : List (Change k.Rec)}
    (hmadea : r.Made σ σ.st.maindb a csA) (hmadeb : r.Made σ (written σ.st.maindb csA) b csB)
    {c : Change k.Rec} (hc : c ∈ csB) (hkey : k.service.key c.record ∈ r.names a) :
    c.found = true := by
  have ht := k.service_lawful.single
  obtain ⟨cs', halone, hclose⟩ := hmadea.alone
  have hkeys := keys_close σ.tables halone hclose
  have hmem : k.service.key c.record ∈ csA.map (fun c => k.service.key c.record) := by
    rw [hkeys]
    exact hkey
  obtain ⟨d, hd, he⟩ := List.mem_map.mp hmem
  have hfind := ht.find_batch (σ.tables k) hmadea.fits hmadea.apart hd
  by_contra hf
  have hfit := hmadeb.fits c hc
  rw [StoreTable.Fits, if_neg hf] at hfit
  have hokA := storeOk_written σ.tables hmadea.fits hmadea.apart
  have hnone := (ht.find_eq_none (hokA k) (ht.keytype_ukey c.record)).mpr hfit.2.2
  rw [show k.service.table.getKey c.record k.service.ukey =
    k.service.table.getKey d.record k.service.ukey from he.symm] at hnone
  rw [show k.service.table.find (written σ.st.maindb csA) _ = _ from hfind] at hnone
  cases hnone

/-- The second request inserts no name that the first one has. -/
theorem not_inserts {r : TwoRequests k} {σ : IdleMaster} {a b : ℕ} {csA csB : List (Change k.Rec)}
    (hmadea : r.Made σ σ.st.maindb a csA) (hmadeb : r.Made σ (written σ.st.maindb csA) b csB)
    {t : TransactionT} (hitem : t.item = csB.flatMap (k.service.table.rows k.service.ukey)) {key : Key}
    (hkey : key ∈ r.names a) : ¬ Inserts t key := by
  rintro ⟨row, hrow, rfl⟩
  have hne : ∀ i, row.key ≠ encodePrimaryKey k.service.table.primaryKey i := by
    obtain ⟨p, -, hp⟩ := List.mem_map.mp hkey
    rw [← hp]
    exact k.service_lawful.single.ukey_ne_primary _ _
  rw [hitem] at hrow
  obtain ⟨c, hc, hrow⟩ := List.mem_flatMap.mp hrow
  rcases RecChange.key_of_mem_rows (c := ⟨k, c⟩) hrow with hprimary | hname
  · exact hne _ hprimary
  · have hkey' : k.service.key c.record ∈ r.names a := by
      rw [hname] at hkey
      exact hkey
    have hfound := found_of_shared hmadea hmadeb hc hkey'
    rw [StoreTable.rows, if_pos hfound] at hrow
    rw [List.mem_singleton.mp hrow] at hne
    exact hne _ rfl

/-- The ids that were handed out were free. -/
theorem free_rows {r : TwoRequests k} {σ : IdleMaster} {s : Sys} {cs : ℕ → List (Change k.Rec)}
    {hist : List (ℕ × List (Change k.Rec))} (h : r.Good σ s cs hist) (hend : Succeeded σ s) {a b : ℕ}
    (ha : a < 2) (hb : b < 2) (hab : a ≠ b) :
    ∀ i, σ.st.maincounter < i → i ≤ σ.st.maincounter + newCount (cs a) + newCount (cs b) →
      σ.st.maindb.get (encodePrimaryKey k.pkey i) = none := by
  have hnone : ∀ o, (s.threads o).pending = none := by
    intro o
    by_cases ho2 : o < 2
    · obtain ⟨t, ht, -⟩ := hend o ho2
      rw [ht]
      rfl
    · rw [h.only o (Nat.le_of_not_lt ho2)]
      rfl
  have hids : ∀ o, TwoRequests.idsTaken s cs o = newCount (cs o) := by
    intro o
    rw [TwoRequests.idsTaken, TwoRequests.pendingCount, hnone]
    rfl
  have htotal := h.total
  rw [hids, hids] at htotal
  have hsum : newCount (cs a) + newCount (cs b) = newCount (cs 0) + newCount (cs 1) := by
    obtain ⟨rfl, rfl⟩ | ⟨rfl, rfl⟩ : (a = 0 ∧ b = 1) ∨ (a = 1 ∧ b = 0) := by omega
    · rfl
    · exact Nat.add_comm _ _
  intro i hlt hle
  rcases h.free i hlt (by omega) with ⟨o, hp⟩ | hrow
  · rw [hnone o] at hp
    cases hp
  · exact hrow

/-- **Two requests at once**: if both succeed in a run whose steps are all current, no update is
    lost. -/
theorem noneLost_of_current (r : TwoRequests k) (σ : IdleMaster) {s : Sys}
    (h : (machine r.requests σ).ReachWhere (r.Current σ) s) (hend : Succeeded σ s) :
    NoneLost r σ s := by
  obtain ⟨o, ho2, hfail⟩ | ⟨cs, hist, hgood⟩ := TwoRequests.good_reach h
  · exfalso
    obtain ⟨t, ht, -⟩ := hend o ho2
    rcases hfail with ⟨nc, hnc⟩ | hnone
    · rw [hnc] at ht
      cases ht
    · rw [hnone] at ht
      cases ht
  · have hall : ∀ o, o < 2 → o ∈ hist.map Prod.fst := by
      intro o ho2
      by_contra hno
      obtain ⟨t, ht, -⟩ := hend o ho2
      have hst := hgood.before o ho2 hno
      rw [ht] at hst
      cases hst
    obtain ⟨a, b, csA, csB, ha, hb, hab, rfl, hmadea, hmadeb, hdb⟩ := hgood.wrote.both hall
    obtain ⟨hcsB, tB, hwB, hitemB⟩ := hgood.after (b, csB) List.mem_cons_self
    obtain ⟨hcsA, tA, hwA, hitemA⟩ :=
      hgood.after (a, csA) (List.mem_cons_of_mem _ List.mem_cons_self)
    have hcsA : cs a = csA := hcsA
    have hcsB : cs b = csB := hcsB
    have hfree := free_rows hgood hend ha hb hab
    rw [hcsA, hcsB] at hfree
    have hnoB : ∀ t, s.threads b = .ended (some t) → ∀ key ∈ r.names a, ¬ Inserts t key := by
      intro t ht key hkey
      have hwB : writtenOf (s.threads b) = some tB := hwB
      rw [ht] at hwB
      cases hwB
      exact not_inserts hmadea hmadeb hitemB hkey
    have htakes : ∀ {o : ℕ} {cs : List (Change k.Rec)} {t : TransactionT}, o < 2 →
        writtenOf (s.threads o) = some t →
        t.item = cs.flatMap (k.service.table.rows k.service.ukey) →
        ∀ c ∈ cs, k.service.Takes σ.st.noXapian c := by
      intro o cs t ho2 hw hitem
      obtain ⟨t', ht', htakes⟩ := hend o ho2
      rw [ht'] at hw
      cases hw
      rw [hitem] at htakes
      exact Service.cacheTakes_flatMap.mp htakes
    constructor
    · obtain ⟨csA', hranA, hcloseA, hidsA⟩ :=
        first_ran hmadea fun i hlt hle => hfree i hlt (by omega)
      obtain ⟨csB', hranB, hlikeB⟩ := second_ran hab hb hmadea hmadeb hranA hcloseA hidsA hfree
      have hokB := Service.takes_like hlikeB (htakes hb hwB hitemB)
      rw [← hranA.noXapian] at hokB
      refine ⟨a, b, ha, hb, hab, hranA.ok (Service.takes_like (hcloseA.imp fun _ _ hc => hc.toLike)
        (htakes ha hwA hitemA)), hranB.ok hokB, fun key hkeya hkeyb => ?_⟩
      have ht := k.service_lawful.single
      have hokA := storeOk_written σ.tables hmadea.fits hmadea.apart
      have hok' : StoreOk (first r σ a).table.maindb := by
        rw [hranA.maindb]
        exact storeOk_written σ.tables hranA.fits hranA.apart
      -- the second request updates the record, the same way in both runs
      obtain ⟨cs', halone, hclose⟩ := hmadeb.alone
      obtain ⟨c, hc, rfl⟩ : ∃ c ∈ csB, k.service.key c.record = key := by
        have hmem : key ∈ csB.map (fun c => k.service.key c.record) := by
          rw [keys_close hokA halone hclose]
          exact hkeyb
        exact List.mem_map.mp hmem
      obtain ⟨c', hc', hcc⟩ := forall₂_mem hlikeB.flip hc
      obtain rfl := hcc.same (found_of_shared hmadea hmadeb hc hkeya)
      rw [hdb, hranB.maindb]
      exact (ht.find_batch (hokA k) hmadeb.fits hmadeb.apart hc).trans
        (ht.find_batch (hok' k) hranB.fits hranB.apart hc').symm
    · intro t t' h0 h1 key hkey0 hkey1 hboth
      obtain ⟨rfl, rfl⟩ | ⟨rfl, rfl⟩ : (a = 0 ∧ b = 1) ∨ (a = 1 ∧ b = 0) := by omega
      · exact hnoB t' h1 key hkey0 hboth.2
      · exact hnoB t h0 key hkey1 hboth.1

/-! ## Tags and categories -/

/-- Under the reservation: no request of this kind stands with a record it has only read. -/
def NoneRead (s : Sys) : Prop :=
  ∀ o k' m task, s.threads o = .manage k' m task →
    k'.service.readFirst = false ∧ ∀ found cdata, task.stage ≠ .read found cdata

theorem readNames_of_noneRead {s : Sys} (h : NoneRead s) (o : ℕ) : (s.threads o).readNames = [] := by
  cases hth : s.threads o with
  | manage k' m task =>
    obtain ⟨-, hno⟩ := h o k' m task hth
    unfold Thread.readNames
    dsimp only
    split
    · rename_i hstage
      exact absurd hstage (hno _ _)
    · rfl
  | waiting => rfl
  | commit phase now nc t => rfl
  | leaving nc result => rfl
  | ended result => rfl

/-- A record is read under the reservation by every step. -/
theorem noneRead_moves {r : TwoRequests k} (hk : k.service.readFirst = false) {s : Sys} {l : Label}
    (h : NoneRead s) {st' : SharedTable} {th' : Thread} {adds : List RecChange}
    (hm : Moves (r.requests l.thread) s.table l.env (s.threads l.thread) st' th' adds) :
    NoneRead ⟨st', Function.update s.threads l.thread th'⟩ := by
  have hmine : ∀ k' m task, th' = .manage k' m task →
      k'.service.readFirst = false ∧ ∀ found cdata, task.stage ≠ .read found cdata := by
    intro k' m task hth'
    generalize hth : s.threads l.thread = th at hm
    cases hm with
    | start hr =>
      obtain ⟨-, he⟩ := TwoRequests.request_eq hr
      cases he
      cases hth'
      exact ⟨hk, by simp⟩
    | advance hadv =>
      obtain ⟨hfirst, -⟩ := h _ _ _ _ hth
      cases hth'
      refine ⟨hfirst, ?_⟩
      cases hadv with
      | read _ _ hread =>
        rw [hfirst] at hread
        cases hread
      | reserve => simp
      | reserveRead => simp
      | readReserved => simp
      | number => simp
      | add => simp
    | reset => cases hth'
    | refuse => cases hth'
    | fail => cases hth'
    | finish => cases hth'
    | empty => cases hth'
    | number => cases hth'
    | log => cases hth'
    | write => cases hth'
    | push => cases hth'
    | leave => cases hth'
  intro o k' m task ho
  by_cases hoo : o = l.thread
  · subst hoo
    simp only [Function.update_self] at ho
    exact hmine k' m task ho
  · simp only [Function.update_of_ne hoo] at ho
    exact h o k' m task ho

/-- **Where the name is reserved first**, every run whose requests take their ids one after the other
    is current. -/
theorem current_of_reserveFirst {r : TwoRequests k} (hk : k.service.readFirst = false)
    {σ : IdleMaster} {s : Sys}
    (h : (machine r.requests σ).ReachWhere (fun s l => ∀ key ∈ (s.threads l.thread).numberNames,
      r.Shared l.thread key →
        s.table.maincounter = σ.st.maincounter + (s.threads l.thread).taken) s) :
    (machine r.requests σ).ReachWhere (r.Current σ) s := by
  suffices hall : (machine r.requests σ).ReachWhere (r.Current σ) s ∧ NoneRead s ∧
      ∃ cs, Inv r.requests s cs from hall.1
  induction h with
  | init hi =>
    refine ⟨.init hi, ?_, ?_⟩
    · rw [show _ = _ from hi]
      intro o k' m task ho
      cases ho
    · rw [show _ = _ from hi]
      exact ⟨_, inv_init r.requests σ⟩
  | @step s s' l _ hids hs ih =>
    obtain ⟨hreach, hnone, cs, hinv⟩ := ih
    have hcurrent : r.Current σ s l := by
      refine ⟨fun _ o _ key hkey => ?_, hids⟩
      rw [readNames_of_noneRead hnone o] at hkey
      cases hkey
    have hreach' := Machine.ReachWhere.step hreach hcurrent hs
    obtain ⟨⟨st', th'⟩, hth, rfl⟩ := Option.map_eq_some_iff.mp hs
    obtain ⟨adds, hmoves⟩ := threadStep_moves hinv.store hth
    exact ⟨hreach', noneRead_moves hk hnone hmoves, _, inv_moves hinv rfl hmoves⟩

/-! ## Two edits of one user -/

/-- An admin edits some fields of a user. -/
def edit (fields : ℕ) : Manage where
  updater := desk
  action := uactionUpdate
  fields := fields

/-- The description of `ann`, and her given name. -/
def editAnn : TwoRequests .user where
  m o := if o = 0 then edit udfldInfo else edit udfldGname
  input o := if o = 0 then [({ name := str "ann", description := str "painter" }, {})]
    else [({ name := str "ann", givenName := str "Ann" }, {})]

def ann : Key := RecKind.user.service.key { name := str "ann" }

/-- What is stored of `ann`. -/
def annNow (db : DataDb) : Option (Bytes × Bytes) :=
  (userDataTable.find db ann).map fun r => (r.description, r.givenName)

def hasSucceeded : Thread → Bool
  | .ended (some t) => decide (CacheTakes annAndBob.st.noXapian {} t.item)
  | _ => false

theorem succeeded_of {s : Sys} (h0 : hasSucceeded (s.threads 0) = true)
    (h1 : hasSucceeded (s.threads 1) = true) : Succeeded annAndBob s := by
  have hsome : ∀ {th : Thread}, hasSucceeded th = true →
      ∃ t, th = .ended (some t) ∧ CacheTakes annAndBob.st.noXapian {} t.item := by
    intro th hth
    unfold hasSucceeded at hth
    split at hth
    · exact ⟨_, rfl, of_decide_eq_true hth⟩
    · cases hth
  intro o ho2
  obtain rfl | rfl : o = 0 ∨ o = 1 := by omega
  · exact hsome h0
  · exact hsome h1

/-- The first request reads `ann` and waits for the other one to end. -/
def stale : List Label :=
  (List.replicate 2 0 ++ List.replicate 10 1 ++ List.replicate 8 0).map fun o => { thread := o }

/-- The second request reads `ann` when the first one has written her, and waits for it to end. -/
def afterwards : List Label :=
  (List.replicate 8 0 ++ List.replicate 2 1 ++ List.replicate 2 0 ++ List.replicate 8 1).map
    fun o => { thread := o }

/-- The given name is lost. -/
theorem stale_update_lost :
    ¬ ∀ (k : RecKind) (r : TwoRequests k) (σ : IdleMaster) (s : Sys),
      (machine r.requests σ).Reach s → Succeeded σ s → NoneLost r σ s := by
  intro hall
  have hrun : ((machine editAnn.requests annAndBob).exec ⟨annAndBob.st, fun _ => .waiting⟩
      stale).map (fun s => (hasSucceeded (s.threads 0), hasSucceeded (s.threads 1),
        annNow s.table.maindb)) = some (true, true, some (str "painter", [])) := by decide +kernel
  have hserial : annNow (second editAnn annAndBob 0 1).table.maindb =
        some (str "painter", str "Ann") ∧
      annNow (second editAnn annAndBob 1 0).table.maindb = some (str "painter", str "Ann") := by
    decide +kernel
  obtain ⟨s, hs, hv⟩ := Option.map_eq_some_iff.mp hrun
  simp only [Prod.mk.injEq] at hv
  obtain ⟨h0, h1, hnow⟩ := hv
  obtain ⟨a, b, ha, hb, hab, -, -, hsame⟩ :=
    (hall _ _ _ s (Machine.Reach.of_exec rfl hs) (succeeded_of h0 h1)).serial
  have hann : annNow s.table.maindb = annNow (second editAnn annAndBob a b).table.maindb := by
    have hname : ∀ o, ann ∈ editAnn.names o := by
      intro o
      by_cases ho : o = 0
      · rw [ho]
        exact List.mem_singleton.mpr rfl
      · simp only [TwoRequests.names, editAnn, if_neg ho]
        exact List.mem_singleton.mpr rfl
    exact congrArg (Option.map fun r : UserDataT => (r.description, r.givenName))
      (hsame ann (hname a) (hname b))
  rw [hnow] at hann
  obtain ⟨rfl, rfl⟩ | ⟨rfl, rfl⟩ : (a = 0 ∧ b = 1) ∨ (a = 1 ∧ b = 0) := by omega
  · rw [hserial.1] at hann
    exact absurd hann (by decide)
  · rw [hserial.2] at hann
    exact absurd hann (by decide)

/-- Both edits are kept. -/
theorem noneLost_afterwards :
    ∃ s, (machine editAnn.requests annAndBob).exec ⟨annAndBob.st, fun _ => .waiting⟩ afterwards =
        some s ∧
      annNow s.table.maindb = some (str "painter", str "Ann") ∧ NoneLost editAnn annAndBob s := by
  have hrun : ((machine editAnn.requests annAndBob).exec ⟨annAndBob.st, fun _ => .waiting⟩
      afterwards).map (fun s => (hasSucceeded (s.threads 0), hasSucceeded (s.threads 1),
        annNow s.table.maindb)) = some (true, true, some (str "painter", str "Ann")) := by
    decide +kernel
  have hok : (machine editAnn.requests annAndBob).StepsOk (editAnn.Current annAndBob)
      ⟨annAndBob.st, fun _ => .waiting⟩ afterwards := by decide +kernel
  obtain ⟨s, hs, hv⟩ := Option.map_eq_some_iff.mp hrun
  simp only [Prod.mk.injEq] at hv
  obtain ⟨h0, h1, hnow⟩ := hv
  exact ⟨s, hs, hnow, noneLost_of_current editAnn annAndBob ((Machine.ReachWhere.init rfl).exec hok hs)
    (succeeded_of h0 h1)⟩

end Zapdos.Store.LostUpdates
