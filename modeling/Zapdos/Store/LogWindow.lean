/-
  What `ReadLog` returns, call by call.

  A follower asks for the entries after the last id it has, at most `limit` of them, and asks again
  from the last id it got.  It should get a window of the run of entries that follow without a gap,
  and all windows together should be the run.

  THE CRUX.  The loop stops when the number of entries it has added EXCEEDS the limit, so a window has
  one entry more than asked for (`readLog_returns`).  The windows still follow one another without
  overlap (`readAll_eq_run`); a window is as long as it should be exactly when the run is not longer
  than the limit (`window_iff`).
-/
import Zapdos.Store.StoreLevel

namespace Zapdos.Store.LogWindow

open Zapdos.Lib

/-- The entries that successive calls with these limits return, until one returns none. -/
def readAll (st : SharedTable) (now : Nat) (lastid : Nat) : List Nat → Option (List TransactionT)
  | [] => none
  | limit :: limits =>
    match readLog st { lastid := lastid, limit := limit } now with
    | .error _ => none
    | .ok out =>
      if out.trans = [] then some []
      else (readAll st now out.lastid limits).map (out.trans ++ ·)

/-- What is promised for a request, where `run` are the entries that follow without a gap: the first
    of them up to the limit; and all of them by successive calls with any limits. -/
structure Window (st : SharedTable) (run : List TransactionT) (tlist : TransListT) : Prop where
  call : ∀ now, ∃ out, readLog st tlist now = .ok out ∧
    out.trans = tlist.trans ++ run.take tlist.limit ∧
    out.lastid = tlist.lastid + (run.take tlist.limit).length
  calls : ∀ now limits, (∀ limit ∈ limits, 1 ≤ limit) → run.length < limits.length →
    readAll st now tlist.lastid limits = some run

variable {st : SharedTable} {f : NumLog TransactionT} {run : List TransactionT}

/-- **Everything `ReadLog` returns**: at the log counter nothing, below it the next entries, up to one
    more than the limit. -/
theorem readLog_returns (hf : HoldsEntries st.logdb f) {tlist : TransListT}
    (hrun : IsRun f tlist.lastid run) (hle : tlist.lastid ≤ st.logcounter) (now : Nat) :
    ∃ out, readLog st tlist now = .ok out ∧
      (tlist.lastid = st.logcounter → out.trans = tlist.trans ∧ out.lastid = tlist.lastid) ∧
      (tlist.lastid < st.logcounter → out.trans = tlist.trans ++ run.take (tlist.limit + 1) ∧
        out.lastid = tlist.lastid + (run.take (tlist.limit + 1)).length) := by
  rw [readLog, if_neg (by omega)]
  by_cases heq : tlist.lastid = st.logcounter
  · rw [if_pos heq]
    refine ⟨_, rfl, fun _ => ⟨rfl, rfl⟩, fun hlt => ?_⟩
    omega
  · rw [if_neg heq]
    have hloop := readLogLoop_spec hf _ tlist 0 tlist.lastid
      (rowsFrom_seek st.logdb tlist.lastid) (Or.inl rfl) (Nat.zero_le _)
    simp only [hloop, Nat.sub_zero, Nat.zero_add, contig_eq_take hrun]
    split
    · exact ⟨_, rfl, fun he => absurd he heq, fun _ => ⟨rfl, rfl⟩⟩
    · exact ⟨_, rfl, fun he => absurd he heq, fun _ => ⟨rfl, rfl⟩⟩

/-- **Successive calls**: if the run does not pass the log counter, they return all of it, without a
    gap or a repetition. -/
theorem readAll_eq_run (hf : HoldsEntries st.logdb f) {lastid : Nat} (hrun : IsRun f lastid run)
    (hle : lastid + run.length ≤ st.logcounter) (now : Nat) {limits : List Nat}
    (hlim : run.length < limits.length) : readAll st now lastid limits = some run := by
  induction limits generalizing lastid run with
  | nil => cases hlim
  | cons limit limits ih =>
    have hlastid : IsRun f (TransListT.lastid { lastid := lastid, limit := limit }) run := hrun
    obtain ⟨out, hout, hat, hbelow⟩ := readLog_returns hf hlastid
      (by show lastid ≤ _; omega) now
    rw [readAll, hout]
    simp only
    cases run with
    | nil =>
      -- at the end of the run nothing is returned
      have hempty : out.trans = [] := by
        rcases Nat.lt_or_eq_of_le (show lastid ≤ st.logcounter by omega) with hlt | heq
        · exact (hbelow hlt).1
        · exact (hat heq).1
      rw [if_pos hempty]
    | cons t run =>
      rw [List.length_cons] at hle hlim
      obtain ⟨htrans, hlast⟩ := hbelow (by show lastid < _; omega)
      have htake : out.trans = (t :: run).take (limit + 1) := htrans
      rw [if_neg (by rw [htake, List.take_succ_cons]; exact List.cons_ne_nil _ _)]
      have hn : ((t :: run).take (limit + 1)).length ≤ (t :: run).length := by
        rw [List.length_take]
        exact min_le_right _ _
      have hpos : 0 < ((t :: run).take (limit + 1)).length := by
        rw [List.take_succ_cons, List.length_cons]
        omega
      have hdrop := hrun.drop hn
      have hrest := ih hdrop
        (by rw [List.length_drop, List.length_cons] at *; omega)
        (by rw [List.length_drop, List.length_cons] at *; omega)
      rw [hlast, hrest, htake, Option.map_some]
      exact congrArg some (List.prefix_iff_eq_append.mp (List.take_prefix (limit + 1) (t :: run)))

/-- A run that passes the log counter ends in a call that throws. -/
theorem readAll_past (hf : HoldsEntries st.logdb f) {lastid limit : Nat}
    (hrun : IsRun f lastid run) (hlt : lastid < st.logcounter) (hshort : run.length ≤ limit)
    (hpast : st.logcounter < lastid + run.length) (now : Nat) (n : Nat) :
    readAll st now lastid (List.replicate (n + 1) limit) = none := by
  have hlastid : IsRun f (TransListT.lastid { lastid := lastid, limit := limit }) run := hrun
  obtain ⟨out, hout, -, hbelow⟩ := readLog_returns hf hlastid hlt.le now
  obtain ⟨htrans, hlast⟩ := hbelow hlt
  rw [List.take_of_length_le (show run.length ≤ limit + 1 by omega)] at htrans hlast
  have hne : out.trans ≠ [] := by
    rw [htrans]
    intro he
    have hzero : run.length = 0 := by
      rw [show run = [] from he]
      rfl
    omega
  rw [List.replicate_succ, readAll, hout]
  simp only [if_neg hne, hlast]
  cases n with
  | zero => rfl
  | succ n =>
    rw [List.replicate_succ, readAll, readLog, if_pos hpast]
    rfl

/-- A request that gets its window asks for enough, and the entries end below the log counter. -/
theorem Window.bounds (hf : HoldsEntries st.logdb f) {tlist : TransListT}
    (hrun : IsRun f tlist.lastid run) (hlimit : 1 ≤ tlist.limit)
    (hle : tlist.lastid ≤ st.logcounter) (h : Window st run tlist) :
    run.length ≤ tlist.limit ∧ tlist.lastid + run.length ≤ st.logcounter := by
  obtain ⟨out, hout, hat, hbelow⟩ := readLog_returns hf hrun hle 0
  obtain ⟨out', hout', htrans, hlast⟩ := h.call 0
  rw [hout] at hout'
  cases hout'
  rcases Nat.lt_or_eq_of_le hle with hlt | heq
  · obtain ⟨-, hlast'⟩ := hbelow hlt
    rw [hlast, List.length_take, List.length_take] at hlast'
    have hshort : run.length ≤ tlist.limit := by omega
    refine ⟨hshort, ?_⟩
    -- past the log counter the next call throws
    by_contra hpast
    have hall := h.calls 0 (List.replicate (run.length + 1) tlist.limit)
      (fun limit hl => by rw [List.eq_of_mem_replicate hl]; exact hlimit)
      (by rw [List.length_replicate]; omega)
    rw [readAll_past hf hrun hlt hshort (by omega) 0 run.length] at hall
    cases hall
  · obtain ⟨-, hlast'⟩ := hat heq
    rw [hlast, List.length_take] at hlast'
    have hnone : run.length = 0 := by omega
    omega

/-- Enough is asked for, and the entries end below the log counter: the request gets its window. -/
theorem window_of_bounds (hf : HoldsEntries st.logdb f) {tlist : TransListT}
    (hrun : IsRun f tlist.lastid run) (hle : tlist.lastid ≤ st.logcounter)
    (hshort : run.length ≤ tlist.limit) (hcount : tlist.lastid + run.length ≤ st.logcounter) :
    Window st run tlist := by
  refine ⟨fun now => ?_, fun now limits _ hlim => readAll_eq_run hf hrun hcount now hlim⟩
  obtain ⟨out, hout, hat, hbelow⟩ := readLog_returns hf hrun hle now
  refine ⟨out, hout, ?_⟩
  rcases Nat.lt_or_eq_of_le hle with hlt | heq
  · obtain ⟨htrans, hlast⟩ := hbelow hlt
    rw [List.take_of_length_le (by omega)] at htrans hlast ⊢
    exact ⟨htrans, hlast⟩
  · obtain ⟨htrans, hlast⟩ := hat heq
    have hnil : run = [] := List.eq_nil_of_length_eq_zero (by omega)
    rw [hnil, List.take_nil, List.append_nil]
    exact ⟨htrans, hlast⟩

/-- **Exactly these requests.**  A request gets its window if and only if the entries that follow in a
    row are no more than its limit, and none of them is past the log counter. -/
theorem window_iff (hf : HoldsEntries st.logdb f) {tlist : TransListT}
    (hrun : IsRun f tlist.lastid run) (hlimit : 1 ≤ tlist.limit)
    (hle : tlist.lastid ≤ st.logcounter) :
    Window st run tlist ↔
      run.length ≤ tlist.limit ∧ tlist.lastid + run.length ≤ st.logcounter := by
  constructor
  · intro h
    exact h.bounds hf hrun hlimit hle
  · rintro ⟨hshort, hcount⟩
    exact window_of_bounds hf hrun hle hshort hcount

/-- A log with two entries. -/
def twoEntries : SharedTable :=
  { logcounter := 2
    logdb := (freshLog.write (logBatch { id := 1 })).write (logBatch { id := 2 }) }

/-- Its entries. -/
def twoLog : NumLog TransactionT :=
  Function.update (Function.update (fun _ => none) 1 (some { id := 1 })) 2 (some { id := 2 })

theorem twoEntries_holds : HoldsEntries twoEntries.logdb twoLog :=
  (holdsEntries_fresh.write { id := 1 } Nat.one_pos).write { id := 2 } Nat.two_pos

theorem twoLog_isRun : IsRun twoLog 0 [{ id := 1 }, { id := 2 }] := ⟨rfl, rfl, rfl⟩

/-- Asked for one entry, the second comes as well. -/
theorem window_too_long :
    ¬ ∀ (st : SharedTable) (f : NumLog TransactionT) (run : List TransactionT) (tlist : TransListT),
      HoldsEntries st.logdb f → IsRun f tlist.lastid run → 1 ≤ tlist.limit →
      tlist.lastid ≤ st.logcounter → Window st run tlist := by
  intro hall
  have h := hall twoEntries twoLog [{ id := 1 }, { id := 2 }] { limit := 1 } twoEntries_holds
    twoLog_isRun le_rfl (Nat.zero_le _)
  have hshort : 2 ≤ 1 := (h.bounds twoEntries_holds twoLog_isRun le_rfl (Nat.zero_le _)).1
  omega

/-- Asked for two entries, both come. -/
theorem window_iff_two : Window twoEntries [{ id := 1 }, { id := 2 }] { limit := 2 } :=
  (window_iff twoEntries_holds twoLog_isRun (show 1 ≤ 2 by decide)
    (Nat.zero_le _)).mpr ⟨le_rfl, le_rfl⟩

end Zapdos.Store.LogWindow
