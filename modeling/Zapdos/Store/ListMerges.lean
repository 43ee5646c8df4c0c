/-
  `HandleStrings`, `HandleUserCategories` and `HandleContacts` with the boolean they return.

  The three handlers are one loop: the keys of the old entries go into a map, an entry of the request
  whose key is there is passed by, any other is appended and its key added.  They differ in what they
  do with an empty entry and in what they check.
-/
import Zapdos.Store.Handlers
import Zapdos.Lib.KeyedUnion

namespace Zapdos.Store.ListMerges

open Zapdos.Lib

/-- No check. -/
def noCheck {α : Type} (_ : α) : Except Exc Unit := .ok ()

/-- `HandleStrings`. -/
def handleStrings : List Bytes → List Bytes → Bool → Except Exc (List Bytes × Bool) :=
  unionInto id List.isEmpty noCheck noCheck

/-- The lookup of a category. -/
def checkCategory (categoryGet : Bytes → CategoryT) (var : Bytes) : Except Exc Unit :=
  let ref := categoryGet var
  if ref.notfound || ref.isDeleted then badDataOf "Category absent or deleted: " var else .ok ()

/-- `HandleUserCategories`. -/
def handleUserCategories (categoryGet : Bytes → CategoryT) :
    List Bytes → List Bytes → Bool → Except Exc (List Bytes × Bool) :=
  unionInto id List.isEmpty noCheck (checkCategory categoryGet)

/-- The key of a contact. -/
def contactKey (var : VerifiedT) : ℤ × Bytes := (var.vtype, var.data)

/-- An empty contact is refused. -/
def checkContact (var : VerifiedT) : Except Exc Unit :=
  if var.data = [] then badData "Data for contact does not exist" else .ok ()

/-- `HandleContacts`. -/
def handleContacts : List VerifiedT → List VerifiedT → Bool → Except Exc (List VerifiedT × Bool) :=
  unionInto contactKey (fun _ => false) checkContact noCheck

/-- The empty contacts are those that are refused. -/
theorem checkContact_ok (var : VerifiedT) (h : checkContact var = .ok ()) :
    false = var.data.isEmpty := by
  unfold checkContact at h
  split_ifs at h with hempty
  · cases h
  · symm
    simpa using hempty

/-- **List merges are ordered set unions.** -/
theorem orderedUnions (categoryGet : Bytes → CategoryT) :
    OrderedUnion id List.isEmpty handleStrings ∧
      OrderedUnion id List.isEmpty (handleUserCategories categoryGet) ∧
      OrderedUnion contactKey (fun var => var.data.isEmpty) handleContacts := by
  exact ⟨unionInto_orderedUnion fun _ _ => rfl, unionInto_orderedUnion fun _ _ => rfl,
    unionInto_orderedUnion checkContact_ok⟩

/-! ## The handlers without the boolean -/

section

variable {α κ : Type} [DecidableEq κ] {key : α → κ} {skip : α → Bool}
  {before after : α → Except Exc Unit}

/-- A handler that looks for the key in the list itself returns the list of the loop with the map. -/
theorem unionInto_fst (loop : List α → List α → Except Exc (List α))
    (hnil : ∀ odata, loop [] odata = .ok odata)
    (hcons : ∀ var idata odata, loop (var :: idata) odata
      = match before var with
        | .error e => .error e
        | .ok () =>
          if skip var || decide (key var ∈ odata.map key) then loop idata odata
          else
            match after var with
            | .error e => .error e
            | .ok () => loop idata (odata ++ [var]))
    (idata odata : List α) (merge : Bool) :
    (unionInto key skip before after idata odata merge).map Prod.fst
      = loop idata (if merge then odata else []) := by
  have hloop : ∀ (idata : List α) (kmap : List κ) (odata : List α) (change : Bool),
      (∀ k, k ∈ kmap ↔ k ∈ odata.map key) →
        (unionLoop key skip before after idata kmap odata change).map Prod.fst
          = loop idata odata := by
    intro idata
    induction idata with
    | nil =>
      intro kmap odata change _
      exact (hnil odata).symm
    | cons var idata ih =>
      intro kmap odata change hstep
      rw [hcons, unionLoop]
      cases before var with
      | error e => rfl
      | ok _ =>
        simp only [← hstep]
        split_ifs
        · exact ih kmap odata change hstep
        · cases after var with
          | error e => rfl
          | ok _ =>
            refine ih (key var :: kmap) (odata ++ [var]) true ?_
            intro k
            rw [List.map_append, List.mem_append, ← hstep]
            simp [or_comm]
  cases merge with
  | true => exact hloop idata (odata.map key) odata false fun _ => Iff.rfl
  | false => exact hloop idata [] [] false fun _ => Iff.rfl

end

theorem handleStrings_fst (idata odata : List Bytes) (merge : Bool) :
    (handleStrings idata odata merge).map Prod.fst
      = .ok (Store.handleStrings idata odata merge) := by
  refine unionInto_fst (fun idata odata => .ok (idata.foldl (fun odata var =>
    if var = [] ∨ var ∈ odata then odata else odata ++ [var]) odata)) ?_ ?_ idata odata merge
  · intro odata
    rfl
  · intro var idata odata
    by_cases hold : var = [] ∨ var ∈ odata
    · simp [noCheck, hold]
    · simp [noCheck, hold]

theorem handleUserCategories_fst (categoryGet : Bytes → CategoryT) (idata odata : List Bytes)
    (merge : Bool) :
    (handleUserCategories categoryGet idata odata merge).map Prod.fst
      = Store.handleUserCategories categoryGet idata odata merge := by
  refine unionInto_fst (userCategoriesLoop categoryGet) ?_ ?_ idata odata merge
  · intro odata
    rfl
  · intro var idata odata
    rw [userCategoriesLoop]
    by_cases hold : var = [] ∨ var ∈ odata
    · simp [noCheck, hold]
    · simp only [noCheck, checkCategory, hold, if_false]
      split_ifs <;> simp_all [badDataOf]

theorem handleContacts_fst (idata odata : List VerifiedT) (merge : Bool) :
    (handleContacts idata odata merge).map Prod.fst = Store.handleContacts idata odata merge := by
  refine unionInto_fst contactsLoop ?_ ?_ idata odata merge
  · intro odata
    rfl
  · intro var idata odata
    have hany : odata.any (sameContact var) = decide (contactKey var ∈ odata.map contactKey) := by
      rw [Bool.eq_iff_iff, List.any_eq_true, decide_eq_true_eq, List.mem_map]
      simp only [sameContact, contactKey, decide_eq_true_eq, Prod.mk.injEq]
      constructor
      · rintro ⟨o, ho, htype, hdata⟩
        exact ⟨o, ho, htype.symm, hdata.symm⟩
      · rintro ⟨o, ho, htype, hdata⟩
        exact ⟨o, ho, htype.symm, hdata.symm⟩
    rw [contactsLoop, hany]
    by_cases hempty : var.data = []
    · simp [checkContact, hempty, badData]
    · simp [noCheck, checkContact, hempty]

/-- A handler that returns the list of an ordered union merges lists in the same way. -/
theorem merged_of_fst {α κ : Type} [DecidableEq κ] {key : α → κ} {empty : α → Bool}
    {run : List α → List α → Bool → Except Exc (List α × Bool)}
    {handler : List α → List α → Bool → Except Exc (List α)} (h : OrderedUnion key empty run)
    (hfst : ∀ idata odata merge, (run idata odata merge).map Prod.fst = handler idata odata merge)
    {idata odata out : List α} (hout : handler idata odata true = .ok out) :
    out = odata ++ firsts key (odata.map key) (idata.filter fun a => !empty a) := by
  rw [← hfst] at hout
  cases hrun : run idata odata true with
  | error e =>
    rw [hrun] at hout
    cases hout
  | ok res =>
    rw [hrun] at hout
    cases hout
    exact h.merged idata odata res.1 res.2 hrun

/-- **The lists that the services store are ordered unions**: of a merge, the old list and then the
    first new element of every new key. -/
theorem stored_unions (categoryGet : Bytes → CategoryT) :
    (∀ idata odata, Store.handleStrings idata odata true =
      odata ++ firsts id (odata.map id) (idata.filter fun a => !a.isEmpty)) ∧
    (∀ idata odata out, Store.handleUserCategories categoryGet idata odata true = .ok out →
      out = odata ++ firsts id (odata.map id) (idata.filter fun a => !a.isEmpty)) ∧
    (∀ idata odata out, Store.handleContacts idata odata true = .ok out →
      out = odata ++ firsts contactKey (odata.map contactKey)
        (idata.filter fun var => !var.data.isEmpty)) := by
  refine ⟨fun idata odata => ?_, fun idata odata out h => ?_, fun idata odata out h => ?_⟩
  · exact @merged_of_fst _ _ _ _ _ _
      (fun idata odata merge => .ok (Store.handleStrings idata odata merge)) (unionInto_orderedUnion
        fun _ _ => rfl) handleStrings_fst _ _ _ rfl
  · exact merged_of_fst (unionInto_orderedUnion fun _ _ => rfl)
      (handleUserCategories_fst categoryGet) h
  · exact merged_of_fst (unionInto_orderedUnion checkContact_ok) handleContacts_fst h

end Zapdos.Store.ListMerges
