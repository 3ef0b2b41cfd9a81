import Mathlib
import PostingQuery.StableSort

/-!
Sorting is the insertion sort of lists.
-/

namespace PostingQuery

variable {α β : Type}

namespace StableSort

theorem insert_eq_orderedInsert (ordered : α → α → Bool) (x : α) (elements : List α) :
    insert ordered x elements = elements.orderedInsert (fun a b => ordered a b = true) x := by
  induction elements with
  | nil => rfl
  | cons y rest ih => rw [insert, List.orderedInsert_cons, ih]

theorem sort_eq_insertionSort (ordered : α → α → Bool) (elements : List α) :
    sort ordered elements = elements.insertionSort fun a b => ordered a b = true := by
  induction elements with
  | nil => rfl
  | cons x rest ih =>
    rw [List.insertionSort_cons, ← ih, ← insert_eq_orderedInsert]
    rfl

theorem insert_perm (ordered : α → α → Bool) (x : α) (elements : List α) :
    (insert ordered x elements).Perm (x :: elements) := by
  rw [insert_eq_orderedInsert]
  exact List.perm_orderedInsert _ _ _

theorem sort_perm (ordered : α → α → Bool) (elements : List α) : (sort ordered elements).Perm elements := by
  rw [sort_eq_insertionSort]
  exact List.perm_insertionSort _ _

theorem length_sort (ordered : α → α → Bool) (elements : List α) :
    (sort ordered elements).length = elements.length :=
  (sort_perm ordered elements).length_eq

theorem map_sort {ordered : α → α → Bool} {orderedAfter : β → β → Bool} {rename : α → β} {elements : List α}
    (same : ∀ a ∈ elements, ∀ b ∈ elements, orderedAfter (rename a) (rename b) = ordered a b) :
    (sort ordered elements).map rename = sort orderedAfter (elements.map rename) := by
  rw [sort_eq_insertionSort, sort_eq_insertionSort]
  exact List.map_insertionSort _ _ rename elements fun a listedA b listedB => by rw [same a listedA b listedB]

theorem pairwise_sort {ordered : α → α → Bool} (total : ∀ a b, ordered a b = true ∨ ordered b a = true)
    (trans : ∀ a b c, ordered a b = true → ordered b c = true → ordered a c = true) (elements : List α) :
    (sort ordered elements).Pairwise fun a b => ordered a b = true := by
  have totality : Std.Total fun a b => ordered a b = true := ⟨total⟩
  have transitivity : IsTrans α fun a b => ordered a b = true := ⟨trans⟩
  rw [sort_eq_insertionSort]
  exact List.pairwise_insertionSort _ _

theorem sort_congr {ordered : α → α → Bool} {elements others : List α} (perm : elements.Perm others)
    (total : ∀ a b, ordered a b = true ∨ ordered b a = true)
    (trans : ∀ a b c, ordered a b = true → ordered b c = true → ordered a c = true)
    (antisymm : ∀ a b, ordered a b = true → ordered b a = true → a = b) :
    sort ordered elements = sort ordered others := by
  have same : (sort ordered elements).Perm (sort ordered others) :=
    (sort_perm _ _).trans (perm.trans (sort_perm _ _).symm)
  exact same.eq_of_pairwise (fun a b _ _ => antisymm a b) (pairwise_sort total trans elements)
    (pairwise_sort total trans others)

theorem sort_key_congr {key : α → β} [LinearOrder β] [DecidableLE β] (injective : key.Injective)
    {elements others : List α} (perm : elements.Perm others) :
    sort (fun a b => decide (key a ≤ key b)) elements = sort (fun a b => decide (key a ≤ key b)) others := by
  apply sort_congr perm
  · intro a b
    rw [decide_eq_true_iff, decide_eq_true_iff]
    exact le_total (key a) (key b)
  · intro a b c first second
    rw [decide_eq_true_iff] at *
    exact first.trans second
  · intro a b first second
    rw [decide_eq_true_iff] at *
    exact injective (le_antisymm first second)

end StableSort

end PostingQuery
