import Mathlib
import PostingQuery.Proofs.Gather
import PostingQuery.Proofs.Walk
import PostingQuery.CursorHeap

/-!
The heap order: no entry has a smaller document than its parent. Every operation restores it and
keeps the entries, so that users of a heap see a list of entries in no particular order, of which the
root is a smallest one.
-/

namespace PostingQuery

namespace CursorHeap

variable {σ : Type}

section Order

variable [Cursor σ]

def key (entries : Array (Ranked σ)) (i : Nat) : DocId :=
  if inside : i < entries.size then entries[i].doc else noMoreDocs

theorem key_of_lt {entries : Array (Ranked σ)} {i : Nat} (inside : i < entries.size) :
    key entries i = entries[i].doc := dif_pos inside

theorem key_swap {entries : Array (Ranked σ)} {i j : Nat} (hi : i < entries.size)
    (hj : j < entries.size) (k : Nat) :
    key (entries.swap i j) k =
      if k = i then key entries j else if k = j then key entries i else key entries k := by
  unfold key
  simp only [Array.size_swap]
  grind

def OrderedFrom (first : Nat) (entries : Array (Ranked σ)) : Prop :=
  ∀ child, 0 < child → child < entries.size → first ≤ (child - 1) / 2 →
    key entries ((child - 1) / 2) ≤ key entries child

def Ordered (entries : Array (Ranked σ)) : Prop := OrderedFrom 0 entries

/-- Only the entry at a place may be larger than its children, which are no smaller than its parent. -/
structure Sinking (first : Nat) (entries : Array (Ranked σ)) (place : Nat) : Prop where
  inside : first ≤ place
  others : ∀ child, 0 < child → child < entries.size → first ≤ (child - 1) / 2 →
    (child - 1) / 2 ≠ place → key entries ((child - 1) / 2) ≤ key entries child
  around : 0 < place → first ≤ (place - 1) / 2 → ∀ child, 0 < child → child < entries.size →
    (child - 1) / 2 = place → key entries ((place - 1) / 2) ≤ key entries child

/-- Only the entry at a place may be smaller than its parent, which is at most the children there. -/
structure Rising (entries : Array (Ranked σ)) (place : Nat) : Prop where
  others : ∀ child, 0 < child → child < entries.size → child ≠ place →
    key entries ((child - 1) / 2) ≤ key entries child
  around : 0 < place → ∀ child, 0 < child → child < entries.size → (child - 1) / 2 = place →
    key entries ((place - 1) / 2) ≤ key entries child

theorem smallerChild_spec (entries : Array (Ranked σ)) (i : Nat) (hasLeft : 2 * i + 1 < entries.size) :
    ((smallerChild entries i hasLeft).val - 1) / 2 = i ∧
      ∀ child, 0 < child → child < entries.size → (child - 1) / 2 = i →
        key entries (smallerChild entries i hasLeft).val ≤ key entries child := by
  unfold smallerChild
  split
  next hasRight =>
    split
    next smaller =>
      refine ⟨by simp only; omega, fun child positive inside parent => ?_⟩
      have sides : child = 2 * i + 1 ∨ child = 2 * i + 2 := by omega
      rcases sides with rfl | rfl
      · rw [key_of_lt hasRight, key_of_lt hasLeft]
        exact smaller.le
      · exact le_rfl
    next notSmaller =>
      refine ⟨by simp only; omega, fun child positive inside parent => ?_⟩
      have sides : child = 2 * i + 1 ∨ child = 2 * i + 2 := by omega
      rcases sides with rfl | rfl
      · exact le_rfl
      · rw [key_of_lt hasRight, key_of_lt hasLeft]
        exact not_lt.mp notSmaller
  next alone =>
    refine ⟨by simp only; omega, fun child positive inside parent => ?_⟩
    have only : child = 2 * i + 1 := by omega
    rw [only]

theorem siftDown_of_smaller {entries : Array (Ranked σ)} {i : Nat} (hasLeft : 2 * i + 1 < entries.size)
    {child : Nat} (below : i < child) (inside : child < entries.size) (placeInside : i < entries.size)
    (same : smallerChild entries i hasLeft = ⟨child, below, inside⟩)
    (smaller : entries[child].doc < entries[i].doc) :
    siftDown entries i = siftDown (entries.swap i child) child := by
  rw [siftDown, dif_pos hasLeft, same]
  exact if_pos smaller

theorem siftDown_of_not_smaller {entries : Array (Ranked σ)} {i : Nat}
    (hasLeft : 2 * i + 1 < entries.size) {child : Nat} (below : i < child)
    (inside : child < entries.size) (placeInside : i < entries.size)
    (same : smallerChild entries i hasLeft = ⟨child, below, inside⟩)
    (notSmaller : ¬ entries[child].doc < entries[i].doc) : siftDown entries i = entries := by
  rw [siftDown, dif_pos hasLeft, same]
  exact if_neg notSmaller

theorem siftDown_of_leaf {entries : Array (Ranked σ)} {i : Nat}
    (leaf : ¬ 2 * i + 1 < entries.size) : siftDown entries i = entries := by
  rw [siftDown, dif_neg leaf]

theorem siftDown_perm (entries : Array (Ranked σ)) (i : Nat) :
    (siftDown entries i).Perm entries := by
  induction entries, i using siftDown.induct with
  | case1 entries i hasLeft child below inside same smaller ih =>
    rw [siftDown_of_smaller hasLeft below inside (below.trans inside) same smaller]
    exact ih.trans (Array.swap_perm _ _)
  | case2 entries i hasLeft child below inside same notSmaller =>
    rw [siftDown_of_not_smaller hasLeft below inside (below.trans inside) same notSmaller]
  | case3 entries i leaf => rw [siftDown_of_leaf leaf]

theorem Sinking.swap {first : Nat} {entries : Array (Ranked σ)} {place : Nat}
    (sinking : Sinking first entries place) (hasLeft : 2 * place + 1 < entries.size) {child : Nat}
    (below : place < child) (inside : child < entries.size) (placeInside : place < entries.size)
    (same : smallerChild entries place hasLeft = ⟨child, below, inside⟩)
    (smaller : entries[child].doc < entries[place].doc) :
    Sinking first (entries.swap place child) child := by
  have parent : (child - 1) / 2 = place := by
    have spec := (smallerChild_spec entries place hasLeft).1
    rwa [same] at spec
  have least : ∀ other, 0 < other → other < entries.size → (other - 1) / 2 = place →
      key entries child ≤ key entries other := by
    have spec := (smallerChild_spec entries place hasLeft).2
    rwa [same] at spec
  have drop : key entries child < key entries place := by
    rw [key_of_lt inside, key_of_lt placeInside]
    exact smaller
  have firstPlace := sinking.inside
  refine ⟨by omega, fun other positive otherInside above apart => ?_, fun _ _ other positive otherInside under => ?_⟩
  · rw [Array.size_swap] at otherInside
    rw [key_swap, key_swap]
    by_cases atPlace : (other - 1) / 2 = place
    · rw [if_pos atPlace]
      have keep : other ≠ place := by omega
      rw [if_neg keep]
      split
      next => exact drop.le
      next => exact least other positive otherInside atPlace
    · rw [if_neg atPlace, if_neg apart]
      by_cases onPlace : other = place
      · rw [if_pos onPlace]
        subst onPlace
        exact sinking.around positive above child (by omega) inside parent
      · rw [if_neg onPlace, if_neg (by omega)]
        exact sinking.others other positive otherInside above atPlace
  · rw [Array.size_swap] at otherInside
    rw [key_swap, key_swap, parent, if_pos rfl, if_neg (by omega), if_neg (by omega), ← under]
    exact sinking.others other positive otherInside (by omega) (by omega)

theorem siftDown_ordered {first : Nat} {entries : Array (Ranked σ)} {place : Nat}
    (sinking : Sinking first entries place) : OrderedFrom first (siftDown entries place) := by
  induction entries, place using siftDown.induct with
  | case1 entries place hasLeft child below inside same smaller ih =>
    rw [siftDown_of_smaller hasLeft below inside (below.trans inside) same smaller]
    exact ih (sinking.swap hasLeft below inside (below.trans inside) same smaller)
  | case2 entries place hasLeft child below inside same notSmaller =>
    rw [siftDown_of_not_smaller hasLeft below inside (below.trans inside) same notSmaller]
    intro other positive otherInside above
    by_cases under : (other - 1) / 2 = place
    · have least := (smallerChild_spec entries place hasLeft).2 other positive otherInside under
      rw [same] at least
      rw [under]
      refine le_trans ?_ least
      rw [key_of_lt inside, key_of_lt (below.trans inside)]
      exact not_lt.mp notSmaller
    · exact sinking.others other positive otherInside above under
  | case3 entries place leaf =>
    rw [siftDown_of_leaf leaf]
    intro other positive inside above
    refine sinking.others other positive inside above ?_
    omega

theorem Ordered.sinking {entries : Array (Ranked σ)} (ordered : Ordered entries) (place : Nat) :
    Sinking 0 entries place := by
  refine ⟨Nat.zero_le place, fun child positive inside _ _ =>
    ordered child positive inside (Nat.zero_le _), fun positive _ child childPositive inside parent => ?_⟩
  have upper := ordered place positive (by omega) (Nat.zero_le _)
  have lower := ordered child childPositive inside (Nat.zero_le _)
  rw [parent] at lower
  exact upper.trans lower

theorem Ordered.congr {before after : Array (Ranked σ)} (ordered : Ordered before)
    (size : after.size = before.size)
    (doc : ∀ i (h : i < before.size) (h' : i < after.size), after[i].doc = before[i].doc) :
    Ordered after := by
  intro child positive inside above
  have kept := ordered child positive (by omega) above
  rw [key_of_lt (by omega), key_of_lt (by omega)] at kept ⊢
  rwa [doc _ (by omega) (by omega), doc _ (by omega) (by omega)]

theorem siftUp_perm (entries : Array (Ranked σ)) (i : Nat) (inside : i < entries.size) :
    (siftUp entries i inside).Perm entries := by
  induction entries, i, inside using siftUp.induct with
  | case1 entries inside => rw [siftUp, dif_pos rfl]
  | case2 entries i inside notRoot parent settled => rw [siftUp, dif_neg notRoot, if_pos settled]
  | case3 entries i inside notRoot parent unsettled ih =>
    rw [siftUp, dif_neg notRoot, if_neg unsettled]
    exact ih.trans (Array.swap_perm _ _)

theorem Rising.swap {entries : Array (Ranked σ)} {place : Nat} (inside : place < entries.size)
    (parentInside : (place - 1) / 2 < entries.size)
    (others : ∀ child, 0 < child → child < entries.size → child ≠ place → (child - 1) / 2 ≠ place →
      key entries ((child - 1) / 2) ≤ key entries child)
    (around : ∀ child, 0 < child → child < entries.size → (child - 1) / 2 = place →
      key entries ((place - 1) / 2) ≤ key entries child)
    (smaller : key entries place < key entries ((place - 1) / 2)) :
    Rising (entries.swap place ((place - 1) / 2)) ((place - 1) / 2) := by
  refine ⟨fun child positive childInside apart => ?_, fun positive child childPositive childInside below => ?_⟩
  · rw [Array.size_swap] at childInside
    rw [key_swap, key_swap, if_neg apart]
    by_cases onPlace : child = place
    · rw [if_pos onPlace, onPlace, if_neg (by omega), if_pos rfl]
      exact smaller.le
    · rw [if_neg onPlace]
      by_cases underPlace : (child - 1) / 2 = place
      · rw [if_pos underPlace]
        exact around child positive childInside underPlace
      · rw [if_neg underPlace]
        have kept := others child positive childInside onPlace underPlace
        split
        next beside =>
          rw [beside] at kept
          exact smaller.le.trans kept
        next => exact kept
  · rw [Array.size_swap] at childInside
    have grand := others ((place - 1) / 2) positive (by omega) (by omega) (by omega)
    rw [key_swap, key_swap, if_neg (by omega), if_neg (by omega)]
    by_cases onPlace : child = place
    · rw [if_pos onPlace]
      exact grand
    · rw [if_neg onPlace, if_neg (by omega)]
      have kept := others child childPositive childInside onPlace (by omega)
      rw [below] at kept
      exact grand.trans kept

theorem siftUp_ordered {entries : Array (Ranked σ)} {place : Nat} (inside : place < entries.size)
    (rising : Rising entries place) : Ordered (siftUp entries place inside) := by
  induction entries, place, inside using siftUp.induct with
  | case1 entries inside =>
    rw [siftUp, dif_pos rfl]
    exact fun child positive childInside _ => rising.others child positive childInside (by omega)
  | case2 entries place inside notRoot parent settled =>
    rw [siftUp, dif_neg notRoot, if_pos settled]
    intro child positive childInside _
    by_cases here : child = place
    · rw [here, key_of_lt inside, key_of_lt (by omega)]
      exact settled
    · exact rising.others child positive childInside here
  | case3 entries place inside notRoot parent unsettled ih =>
    rw [siftUp, dif_neg notRoot, if_neg unsettled]
    refine ih (Rising.swap inside (by omega) (fun child positive childInside apart _ =>
      rising.others child positive childInside apart)
      (rising.around (Nat.pos_of_ne_zero notRoot)) ?_)
    rw [key_of_lt inside, key_of_lt (by omega)]
    exact not_le.mp unsettled

theorem sift_ordered {entries : Array (Ranked σ)} {place : Nat} (inside : place < entries.size)
    (others : ∀ child, 0 < child → child < entries.size → child ≠ place → (child - 1) / 2 ≠ place →
      key entries ((child - 1) / 2) ≤ key entries child)
    (around : 0 < place → ∀ child, 0 < child → child < entries.size → (child - 1) / 2 = place →
      key entries ((place - 1) / 2) ≤ key entries child) :
    Ordered (siftDown (siftUp entries place inside) place) := by
  refine siftDown_ordered ?_
  by_cases root : place = 0
  · rw [siftUp, dif_pos root]
    refine ⟨Nat.zero_le place, fun child positive childInside _ apart => ?_, fun positive => by omega⟩
    exact others child positive childInside (by omega) apart
  · by_cases settled : key entries ((place - 1) / 2) ≤ key entries place
    · have stays : siftUp entries place inside = entries := by
        rw [key_of_lt inside, key_of_lt (by omega)] at settled
        rw [siftUp, dif_neg root, if_pos settled]
      rw [stays]
      refine ⟨Nat.zero_le place, fun child positive childInside _ apart => ?_,
        fun positive _ => around positive⟩
      by_cases here : child = place
      · rw [here]
        exact settled
      · exact others child positive childInside here apart
    · have risen : Ordered (siftUp entries place inside) := by
        have smaller := not_le.mp settled
        have rising := Rising.swap inside (by omega) others (around (Nat.pos_of_ne_zero root)) smaller
        rw [key_of_lt inside, key_of_lt (by omega)] at settled
        rw [siftUp, dif_neg root, if_neg settled]
        exact siftUp_ordered _ rising
      exact risen.sinking place

theorem siftFirst_perm (count : Nat) (entries : Array (Ranked σ)) :
    (siftFirst count entries).Perm entries := by
  induction count generalizing entries with
  | zero => exact .refl entries
  | succ count ih => exact (ih _).trans (siftDown_perm entries count)

theorem siftFirst_ordered {count : Nat} {entries : Array (Ranked σ)}
    (ordered : OrderedFrom count entries) : Ordered (siftFirst count entries) := by
  induction count generalizing entries with
  | zero => exact ordered
  | succ count ih =>
    refine ih (siftDown_ordered ⟨le_rfl, fun child positive inside above apart => ?_, fun _ _ => by omega⟩)
    exact ordered child positive inside (by omega)

theorem ofList_perm (entries : List (Ranked σ)) : (ofList entries).entries.toList.Perm entries :=
  Array.perm_iff_toList_perm.mp (siftFirst_perm _ entries.toArray)

theorem ofList_ordered (entries : List (Ranked σ)) : Ordered (ofList entries).entries := by
  refine siftFirst_ordered fun child positive inside above => ?_
  rw [List.size_toArray] at inside
  omega

theorem key_root_le {entries : Array (Ranked σ)} (ordered : Ordered entries) (i : Nat)
    (inside : i < entries.size) : key entries 0 ≤ key entries i := by
  induction i using Nat.strong_induction_on with
  | _ i ih =>
    by_cases root : i = 0
    · rw [root]
    · have upper := ih ((i - 1) / 2) (by omega) (by omega)
      exact upper.trans (ordered i (Nat.pos_of_ne_zero root) inside (Nat.zero_le _))

theorem topDoc_eq_key (heap : CursorHeap σ) : heap.topDoc = key heap.entries 0 := rfl

theorem topDoc_le {heap : CursorHeap σ} (ordered : Ordered heap.entries) {entry : Ranked σ}
    (member : entry ∈ heap.entries.toList) : heap.topDoc ≤ entry.doc := by
  obtain ⟨i, inside, rfl⟩ := Array.mem_iff_getElem.mp (Array.mem_toList_iff.mp member)
  rw [topDoc_eq_key, ← key_of_lt inside]
  exact key_root_le ordered i inside

theorem exists_topDoc {heap : CursorHeap σ} (nonempty : heap.entries.toList ≠ []) :
    ∃ entry ∈ heap.entries.toList, entry.doc = heap.topDoc := by
  have positive : 0 < heap.entries.size := by
    rw [← Array.length_toList]
    exact List.length_pos_of_ne_nil nonempty
  exact ⟨heap.entries[0], by simp, by rw [topDoc_eq_key, key_of_lt positive]⟩

theorem key_fill {entries : Array (Ranked σ)} {i : Nat} (inside : i < entries.size) (k : Nat)
    (kept : k < entries.size - 1) :
    key (entries.swap i (entries.size - 1)).pop k =
      if k = i then key entries (entries.size - 1) else key entries k := by
  have swapped := key_swap inside (show entries.size - 1 < entries.size by omega) k
  rw [if_neg (show k ≠ entries.size - 1 by omega)] at swapped
  rw [← swapped, key_of_lt (by simp; omega), key_of_lt (by simp; omega)]
  simp

omit [Cursor σ] in
theorem fill_perm {entries : Array (Ranked σ)} {i : Nat} (inside : i < entries.size) :
    entries.toList.Perm (entries[i] :: (entries.swap i (entries.size - 1)).pop.toList) := by
  have last : entries.size - 1 < entries.size := by omega
  have swapped : (entries.swap i (entries.size - 1)).toList.Perm entries.toList :=
    Array.perm_iff_toList_perm.mp (Array.swap_perm inside last)
  have nonempty : (entries.swap i (entries.size - 1)).toList ≠ [] := by
    apply List.ne_nil_of_length_pos
    simp
    omega
  have split := List.dropLast_concat_getLast nonempty
  have end_eq : (entries.swap i (entries.size - 1)).toList.getLast nonempty = entries[i] := by
    simp [List.getLast_eq_getElem]
  rw [end_eq, ← Array.toList_pop] at split
  calc
    entries.toList.Perm (entries.swap i (entries.size - 1)).toList := swapped.symm
    _ = (entries.swap i (entries.size - 1)).pop.toList ++ [entries[i]] := split.symm
    List.Perm _ (entries[i] :: (entries.swap i (entries.size - 1)).pop.toList) :=
      List.perm_append_singleton _ _

omit [Cursor σ] in
theorem toList_eq_root_cons {heap : CursorHeap σ} (nonempty : 0 < heap.entries.size) :
    heap.entries.toList = heap.entries[0] :: heap.entries.toList.tail := by
  have some : heap.entries.toList ≠ [] := by
    apply List.ne_nil_of_length_pos
    simpa using nonempty
  rw [← List.cons_head_tail some]
  simp [List.head_eq_getElem]

theorem removeAt_perm (heap : CursorHeap σ) {i : Nat} (inside : i < heap.entries.size) :
    heap.entries.toList.Perm
      ((heap.removeAt i inside).1 :: (heap.removeAt i inside).2.entries.toList) := by
  have perm := fill_perm inside
  unfold removeAt
  dsimp only
  split
  next stays =>
    refine perm.trans (.cons _ ?_)
    exact (Array.perm_iff_toList_perm.mp ((siftDown_perm _ i).trans (siftUp_perm _ i stays))).symm
  next => exact perm

theorem removeAt_ordered {heap : CursorHeap σ} (ordered : Ordered heap.entries) {i : Nat}
    (inside : i < heap.entries.size) : Ordered (heap.removeAt i inside).2.entries := by
  have filled := key_fill inside
  have size : (heap.entries.swap i (heap.entries.size - 1)).pop.size = heap.entries.size - 1 := by simp
  unfold removeAt
  dsimp only
  split
  next stays =>
    refine sift_ordered stays (fun child positive childInside apart parentApart => ?_)
      (fun positive child childPositive childInside parent => ?_)
    · rw [size] at childInside
      rw [filled _ (by omega), filled child childInside, if_neg apart, if_neg parentApart]
      exact ordered child positive (by omega) (Nat.zero_le _)
    · rw [size] at childInside
      rw [filled _ (by omega), filled child childInside, if_neg (by omega), if_neg (by omega)]
      have upper := ordered i positive inside (Nat.zero_le _)
      have lower := ordered child childPositive (by omega) (Nat.zero_le _)
      rw [parent] at lower
      exact upper.trans lower
  next leaves =>
    intro child positive childInside _
    rw [size] at childInside leaves
    rw [filled _ (by omega), filled child childInside, if_neg (by omega), if_neg (by omega)]
    exact ordered child positive (by omega) (Nat.zero_le _)

theorem removeAt_fst (heap : CursorHeap σ) {i : Nat} (inside : i < heap.entries.size) :
    (heap.removeAt i inside).1 = heap.entries[i] := by
  unfold removeAt
  dsimp only
  split <;> rfl

theorem removeTop_perm (heap : CursorHeap σ) :
    heap.removeTop.entries.toList.Perm heap.entries.toList.tail := by
  unfold removeTop
  split
  next nonempty =>
    have filled := fill_perm nonempty
    rw [toList_eq_root_cons nonempty, List.perm_cons] at filled
    exact (Array.perm_iff_toList_perm.mp (siftDown_perm _ 0)).trans filled.symm
  next empty =>
    rw [List.eq_nil_of_length_eq_zero (l := heap.entries.toList) (by simpa using empty)]
    exact .nil

theorem removeTop_ordered {heap : CursorHeap σ}
    (others : ∀ child, 0 < child → child < heap.entries.size → (child - 1) / 2 ≠ 0 →
      key heap.entries ((child - 1) / 2) ≤ key heap.entries child) :
    Ordered heap.removeTop.entries := by
  unfold removeTop
  split
  next nonempty =>
    have filled := key_fill nonempty
    have size : (heap.entries.swap 0 (heap.entries.size - 1)).pop.size = heap.entries.size - 1 := by simp
    refine siftDown_ordered ⟨le_rfl, fun child positive inside _ apart => ?_, by omega⟩
    rw [size] at inside
    rw [filled _ (by omega), filled child inside, if_neg apart, if_neg (by omega)]
    exact others child positive (by omega) apart
  next empty => exact fun child positive inside _ => by omega

theorem key_set_root {entries : Array (Ranked σ)} (nonempty : 0 < entries.size) (entry : Ranked σ)
    {i : Nat} (below : i ≠ 0) : key (entries.set 0 entry) i = key entries i := by
  unfold key
  simp only [Array.size_set]
  grind

theorem moveTop_perm {heap : CursorHeap σ} (nonempty : 0 < heap.entries.size)
    (move : σ → Step σ DocId) :
    ((move heap.entries[0].scorer).1 = .ok noMoreDocs ∧
        (heap.moveTop move).2.entries.toList.Perm heap.entries.toList.tail) ∨
      ((move heap.entries[0].scorer).1 ≠ .ok noMoreDocs ∧
        (heap.moveTop move).2.entries.toList.Perm
          (⟨heap.entries[0].rank, (move heap.entries[0].scorer).2⟩ :: heap.entries.toList.tail)) := by
  have front : ∀ after : σ, (heap.entries.set 0 ⟨heap.entries[0].rank, after⟩).toList =
      ⟨heap.entries[0].rank, after⟩ :: heap.entries.toList.tail := by
    intro after
    rw [Array.toList_set, toList_eq_root_cons nonempty]
    rfl
  rcases moves : move heap.entries[0].scorer with ⟨failure | landing, after⟩
  · right
    simp only [moveTop, dif_pos nonempty, moves, front]
    exact ⟨by simp, .refl _⟩
  · simp only [moveTop, dif_pos nonempty, moves]
    split
    next ended =>
      have left := removeTop_perm ⟨heap.entries.set 0 ⟨heap.entries[0].rank, after⟩⟩
      rw [front] at left
      exact .inl ⟨by rw [ended], left⟩
    next stays =>
      refine .inr ⟨by simpa using stays, ?_⟩
      rw [← front]
      exact Array.perm_iff_toList_perm.mp (siftDown_perm _ 0)

theorem moveTop_root {heap : CursorHeap σ} (ordered : Ordered heap.entries)
    (nonempty : 0 < heap.entries.size) {move : σ → Step σ DocId} {landing : DocId} {after : σ}
    (moves : move heap.entries[0].scorer = (.ok landing, after)) :
    ∃ moved, heap.moveTop move = (.ok (decide (landing ≠ noMoreDocs)), moved) ∧
      Ordered moved.entries ∧ moved.entries.toList.Perm
        (if landing = noMoreDocs then heap.entries.toList.tail
        else ⟨heap.entries[0].rank, after⟩ :: heap.entries.toList.tail) := by
  have others : ∀ child, 0 < child →
      child < (heap.entries.set 0 ⟨heap.entries[0].rank, after⟩).size → (child - 1) / 2 ≠ 0 →
      key (heap.entries.set 0 ⟨heap.entries[0].rank, after⟩) ((child - 1) / 2) ≤
        key (heap.entries.set 0 ⟨heap.entries[0].rank, after⟩) child := by
    intro child childPositive inside apart
    rw [Array.size_set] at inside
    rw [key_set_root nonempty _ apart, key_set_root nonempty _ childPositive.ne']
    exact ordered child childPositive inside (Nat.zero_le _)
  have perm := moveTop_perm nonempty move
  simp only [moveTop, dif_pos nonempty, moves] at perm ⊢
  split
  next ended =>
    refine ⟨_, Prod.ext (by simp [ended]) rfl, removeTop_ordered others, ?_⟩
    simpa [ended] using perm
  next stays =>
    refine ⟨_, Prod.ext (by simp [stays]) rfl, siftDown_ordered ⟨le_rfl, ?_, by omega⟩, ?_⟩
    · exact fun child childPositive inside _ apart => others child childPositive inside apart
    · simpa [stays] using perm

theorem moveTop_spec {heap : CursorHeap σ} (ordered : Ordered heap.entries)
    (nonempty : heap.entries.toList ≠ []) :
    ∃ root rest, heap.entries.toList.Perm (root :: rest) ∧ root.doc = heap.topDoc ∧
      ∀ (move : σ → Step σ DocId) (landing : DocId) (after : σ),
        move root.scorer = (.ok landing, after) →
        ∃ moved, heap.moveTop move = (.ok (decide (landing ≠ noMoreDocs)), moved) ∧
          Ordered moved.entries ∧ moved.entries.toList.Perm
            (if landing = noMoreDocs then rest else ⟨root.rank, after⟩ :: rest) := by
  have positive : 0 < heap.entries.size := by
    rw [← Array.length_toList]
    exact List.length_pos_of_ne_nil nonempty
  refine ⟨heap.entries[0], heap.entries.toList.tail, .of_eq (toList_eq_root_cons positive), ?_,
    fun move landing after moves => moveTop_root ordered positive moves⟩
  rw [topDoc_eq_key, key_of_lt positive]

omit [Cursor σ] in
theorem placeOfLeastRank_eq_argmin (heap : CursorHeap σ) :
    heap.placeOfLeastRank = (List.finRange heap.entries.size).argmin fun i => (heap.entries.toVector.get i).rank := by
  unfold placeOfLeastRank List.argmin
  congr 1
  funext best i
  cases best with
  | none => rfl
  | some j => rfl

theorem takeLeastRank_spec {heap rest : CursorHeap σ} {taken : Ranked σ}
    (takes : heap.takeLeastRank = some (taken, rest)) :
    heap.entries.toList.Perm (taken :: rest.entries.toList) ∧
      (∀ other ∈ heap.entries.toList, taken.rank ≤ other.rank) ∧
      (Ordered heap.entries → Ordered rest.entries) := by
  rw [takeLeastRank, placeOfLeastRank_eq_argmin] at takes
  split at takes
  next => cases takes
  next i found =>
    obtain ⟨rfl, rfl⟩ := Prod.ext_iff.mp (Option.some.inj takes)
    refine ⟨removeAt_perm heap i.isLt, fun other member => ?_, fun ordered => removeAt_ordered ordered i.isLt⟩
    obtain ⟨j, inside, rfl⟩ := Array.mem_iff_getElem.mp (Array.mem_toList_iff.mp member)
    rw [removeAt_fst]
    exact List.le_of_mem_argmin (f := fun i => (heap.entries.toVector.get i).rank)
      (List.mem_finRange ⟨j, inside⟩) found

theorem exists_takeLeastRank {heap : CursorHeap σ} (nonempty : heap.entries.toList ≠ []) :
    ∃ taken rest, heap.takeLeastRank = some (taken, rest) := by
  have places : List.finRange heap.entries.size ≠ [] := by
    apply List.ne_nil_of_length_pos
    rw [List.length_finRange, ← Array.length_toList]
    exact List.length_pos_of_ne_nil nonempty
  obtain ⟨i, found⟩ := Option.ne_none_iff_exists'.mp (mt (List.argmin_eq_none
    (f := fun i => (heap.entries.toVector.get i).rank)).mp places)
  exact ⟨_, _, by rw [takeLeastRank, placeOfLeastRank_eq_argmin, found]⟩

theorem placesOn_of_match {entries : Array (Ranked σ)} {doc : DocId} {i : Nat}
    (inside : i < entries.size) (here : entries[i].doc = doc) :
    placesOn entries doc i =
      i :: (placesOn entries doc (2 * i + 1) ++ placesOn entries doc (2 * i + 2)) := by
  rw [placesOn, dif_pos inside, if_pos here]

theorem placesOn_of_not_match {entries : Array (Ranked σ)} {doc : DocId} {i : Nat}
    (apart : ∀ inside : i < entries.size, entries[i].doc ≠ doc) : placesOn entries doc i = [] := by
  rw [placesOn]
  split
  next inside => rw [if_neg (apart inside)]
  next => rfl

theorem match_of_mem_placesOn {entries : Array (Ranked σ)} {doc : DocId} {root i : Nat}
    (member : i ∈ placesOn entries doc root) :
    root ≤ i ∧ ∃ inside : i < entries.size, entries[i].doc = doc := by
  induction root using placesOn.induct entries doc with
  | case1 root inside here left right =>
    rw [placesOn_of_match inside here] at member
    rcases List.mem_cons.mp member with same | below
    · exact ⟨same.ge, same ▸ inside, by simpa only [same] using here⟩
    · rcases List.mem_append.mp below with side | side
      · exact ⟨by have := (left side).1; omega, (left side).2⟩
      · exact ⟨by have := (right side).1; omega, (right side).2⟩
  | case2 root inside apart =>
    rw [placesOn_of_not_match fun _ => apart] at member
    cases member
  | case3 root outside =>
    rw [placesOn_of_not_match fun inside => absurd inside outside] at member
    cases member

theorem parent_mem_placesOn {entries : Array (Ranked σ)} {doc : DocId} {root i : Nat}
    (member : i ∈ placesOn entries doc root) :
    i = root ∨ (i - 1) / 2 ∈ placesOn entries doc root := by
  induction root using placesOn.induct entries doc with
  | case1 root inside here left right =>
    rw [placesOn_of_match inside here] at member ⊢
    rcases List.mem_cons.mp member with same | below
    · exact .inl same
    · right
      rcases List.mem_append.mp below with side | side
      · rcases left side with same | found
        · exact List.mem_cons.mpr (.inl (by omega))
        · exact List.mem_cons_of_mem _ (List.mem_append_left _ found)
      · rcases right side with same | found
        · exact List.mem_cons.mpr (.inl (by omega))
        · exact List.mem_cons_of_mem _ (List.mem_append_right _ found)
  | case2 root inside apart =>
    rw [placesOn_of_not_match fun _ => apart] at member
    cases member
  | case3 root outside =>
    rw [placesOn_of_not_match fun inside => absurd inside outside] at member
    cases member

theorem placesOn_disjoint {entries : Array (Ranked σ)} {doc : DocId} {root i : Nat}
    (left : i ∈ placesOn entries doc (2 * root + 1)) : i ∉ placesOn entries doc (2 * root + 2) := by
  induction i using Nat.strong_induction_on with
  | _ i ih =>
    intro right
    have lowLeft := (match_of_mem_placesOn left).1
    have lowRight := (match_of_mem_placesOn right).1
    rcases parent_mem_placesOn left with same | foundLeft
    · omega
    · rcases parent_mem_placesOn right with same | foundRight
      · have low := (match_of_mem_placesOn foundLeft).1
        omega
      · exact ih ((i - 1) / 2) (by omega) foundLeft foundRight

theorem placesOn_nodup (entries : Array (Ranked σ)) (doc : DocId) (root : Nat) :
    (placesOn entries doc root).Nodup := by
  induction root using placesOn.induct entries doc with
  | case1 root inside here left right =>
    rw [placesOn_of_match inside here, List.nodup_cons, List.nodup_append']
    refine ⟨fun member => ?_, left, right, fun i => placesOn_disjoint⟩
    rcases List.mem_append.mp member with side | side
    · have low := (match_of_mem_placesOn side).1
      omega
    · have low := (match_of_mem_placesOn side).1
      omega
  | case2 root inside apart => rw [placesOn_of_not_match fun _ => apart]; exact .nil
  | case3 root outside =>
    rw [placesOn_of_not_match fun inside => absurd inside outside]
    exact .nil

theorem child_mem_placesOn {entries : Array (Ranked σ)} {doc : DocId} {root child : Nat}
    (positive : 0 < child) (inside : child < entries.size) (here : entries[child].doc = doc)
    (found : (child - 1) / 2 ∈ placesOn entries doc root) : child ∈ placesOn entries doc root := by
  induction root using placesOn.induct entries doc with
  | case1 root rootInside rootHere left right =>
    rw [placesOn_of_match rootInside rootHere] at found ⊢
    refine List.mem_cons_of_mem _ (List.mem_append.mpr ?_)
    rcases List.mem_cons.mp found with same | below
    · have sides : child = 2 * root + 1 ∨ child = 2 * root + 2 := by omega
      rcases sides with side | side
      · left
        rw [← side, placesOn_of_match inside here]
        exact List.mem_cons_self
      · right
        rw [← side, placesOn_of_match inside here]
        exact List.mem_cons_self
    · rcases List.mem_append.mp below with side | side
      · exact .inl (left side)
      · exact .inr (right side)
  | case2 root rootInside apart =>
    rw [placesOn_of_not_match fun _ => apart] at found
    cases found
  | case3 root outside =>
    rw [placesOn_of_not_match fun rootInside => absurd rootInside outside] at found
    cases found

/-- Walking down from the root of a heap finds every entry on the smallest document. -/
theorem mem_placesOn_root {entries : Array (Ranked σ)} (ordered : Ordered entries) {doc : DocId}
    (least : key entries 0 = doc) (i : Nat) :
    i ∈ placesOn entries doc 0 ↔ ∃ inside : i < entries.size, entries[i].doc = doc := by
  constructor
  · exact fun member => (match_of_mem_placesOn member).2
  · rintro ⟨inside, here⟩
    induction i using Nat.strong_induction_on with
    | _ i ih =>
      by_cases root : i = 0
      · subst root
        rw [placesOn_of_match inside here]
        exact List.mem_cons_self
      · have parentInside : (i - 1) / 2 < entries.size := by omega
        -- The parent lies between the root and the entry, which stand on the same document.
        have above := ordered i (Nat.pos_of_ne_zero root) inside (Nat.zero_le _)
        have below := key_root_le ordered _ parentInside
        rw [key_of_lt parentInside, key_of_lt inside, here] at above
        rw [key_of_lt parentInside, least] at below
        exact child_mem_placesOn (Nat.pos_of_ne_zero root) inside here
          (ih _ (by omega) parentInside (le_antisymm above below))

end Order

section Scoring

variable {S : Type} [Scorer S σ]

/-- Entries before and after some of them were scored: nothing that a walk depends on has changed. -/
structure Rescored (before after : Array (Ranked σ)) : Prop where
  size : after.size = before.size
  rank : ∀ i (h : i < before.size) (h' : i < after.size), after[i].rank = before[i].rank
  doc : ∀ i (h : i < before.size) (h' : i < after.size), after[i].doc = before[i].doc
  refines : ∀ i (h : i < before.size) (h' : i < after.size) (meaning : Meaning S),
    Refines before[i].scorer meaning → Refines after[i].scorer meaning

namespace Rescored

theorem ordered {before after : Array (Ranked σ)} (rescored : Rescored before after)
    (ordered : Ordered before) : Ordered after := ordered.congr rescored.size rescored.doc

theorem forall₂ {before after : Array (Ranked σ)} (rescored : Rescored before after) :
    List.Forall₂ (fun entry scored : Ranked σ => scored.rank = entry.rank ∧ scored.doc = entry.doc ∧
      ∀ meaning : Meaning S, Refines entry.scorer meaning → Refines scored.scorer meaning)
      before.toList after.toList := by
  rw [List.forall₂_iff_get]
  refine ⟨by simp [rescored.size], fun i h₁ h₂ => ?_⟩
  simp only [Array.length_toList] at h₁ h₂
  simp only [List.get_eq_getElem, Array.getElem_toList]
  exact ⟨rescored.rank i h₁ h₂, rescored.doc i h₁ h₂, rescored.refines i h₁ h₂⟩

end Rescored

def scored (entry : Ranked σ) : Ranked σ := ⟨entry.rank, (Scorer.score entry.scorer).2⟩

theorem scoreAt_yields {places : List Nat} (entries : Array (Ranked σ)) (distinct : places.Nodup)
    (scores : ∀ i ∈ places, ∃ (inside : i < entries.size) (value : S),
      (Scorer.score entries[i].scorer).1 = .ok value) :
    (scoreAt places entries).Yields fun values after =>
      after = entries.mapIdx (fun i entry => if i ∈ places then scored entry else entry) ∧
        List.Forall₂ (fun i value => ∀ _ : i < entries.size,
          (Scorer.score entries[i].scorer).1 = .ok value) places values := by
  induction places generalizing entries with
  | nil => exact ⟨[], entries, rfl, Array.ext (by simp) fun i h h' => by simp, .nil⟩
  | cons i rest ih =>
    obtain ⟨inside, value, answer⟩ := scores i List.mem_cons_self
    obtain ⟨fresh, distinctRest⟩ := List.nodup_cons.mp distinct
    have step : Scorer.score entries[i].scorer = (.ok value, (Scorer.score entries[i].scorer).2) :=
      Prod.ext answer rfl
    -- The places still to be scored hold what they held before.
    have kept : ∀ j ∈ rest, ∀ h : j < entries.size, ∀ h' : j < (entries.set i (scored entries[i])).size,
        (entries.set i (scored entries[i]))[j] = entries[j] := by
      intro j member h h'
      exact Array.getElem_set_ne inside h fun same => fresh (same ▸ member)
    obtain ⟨values, after, same, afterEq, asked⟩ :=
      ih (entries.set i (scored entries[i])) distinctRest fun j member => by
        obtain ⟨jInside, other, jAnswer⟩ := scores j (List.mem_cons_of_mem i member)
        exact ⟨by simpa using jInside, other, by rwa [kept j member jInside]⟩
    refine ⟨value :: values, after, ?_, ?_, .cons (fun _ => answer) ?_⟩
    · rw [scoreAt, dif_pos inside, step]
      simp only [scored] at same
      simp only [same]
    · rw [afterEq]
      apply Array.ext (by simp)
      intro j h h'
      simp only [Array.getElem_mapIdx, Array.getElem_set, List.mem_cons]
      by_cases here : i = j
      · subst here
        simp [fresh]
      · simp [here, Ne.symm here]
    · refine List.forall₂_iff_get.mpr ⟨asked.length_eq, fun k h₁ h₂ => ?_⟩
      intro jInside
      have insideAfter : rest.get ⟨k, h₁⟩ < (entries.set i (scored entries[i])).size := by simpa using jInside
      have holds := (List.forall₂_iff_get.mp asked).2 k h₁ h₂ insideAfter
      rwa [kept _ (List.get_mem _ _) jInside insideAfter] at holds

/-- Scoring the matches of a heap asks every entry on the root's document once, and no other. -/
theorem scoreMatches_asks {heap : CursorHeap σ} (ordered : Ordered heap.entries)
    (scores : ∀ entry ∈ heap.entries.toList, entry.doc = heap.topDoc →
      ∃ value : S, (Scorer.score entry.scorer).1 = .ok value) :
    (heap.scoreMatches heap.topDoc).Yields fun values after =>
      after.entries = heap.entries.map
        (fun entry => if entry.doc = heap.topDoc then scored entry else entry) ∧
      Gathers (fun (entry : Ranked σ) value => (Scorer.score entry.scorer).1 = .ok value)
        (heap.entries.toList.filter fun entry => decide (entry.doc = heap.topDoc)) values := by
  have found := mem_placesOn_root ordered (topDoc_eq_key heap).symm
  obtain ⟨values, after, same, afterEq, asked⟩ :=
    scoreAt_yields heap.entries (placesOn_nodup heap.entries heap.topDoc 0) fun i member => by
      obtain ⟨inside, here⟩ := (found i).mp member
      obtain ⟨value, answer⟩ := scores heap.entries[i] (by simp) here
      exact ⟨inside, value, answer⟩
  obtain ⟨chosen, chosenSame⟩ : ∃ chosen : List (Fin heap.entries.toList.length),
      chosen.map Fin.val = placesOn heap.entries heap.topDoc 0 := by
    refine exists_fin_places fun i member => ?_
    rw [Array.length_toList]
    exact ((found i).mp member).1
  refine ⟨values, ⟨after⟩, by rw [scoreMatches, same]; rfl, ?_,
    chosen.map heap.entries.toList.get, map_get_perm_filter ?_ fun i => ?_, ?_⟩
  · rw [afterEq]
    apply Array.ext (by simp)
    intro i h h'
    simp only [Array.size_mapIdx] at h
    simp [found, h]
  · exact List.Nodup.of_map Fin.val (chosenSame ▸ placesOn_nodup heap.entries heap.topDoc 0)
  · have listed : i ∈ chosen ↔ i.val ∈ placesOn heap.entries heap.topDoc 0 := by
      rw [← chosenSame]
      exact (List.mem_map_of_injective Fin.val_injective).symm
    have bound : i.val < heap.entries.size := Array.length_toList ▸ i.isLt
    simp [listed, found, bound]
  · rw [← chosenSame, List.forall₂_map_left_iff] at asked
    rw [List.forall₂_map_left_iff]
    exact asked.imp fun i value holds => holds (Array.length_toList ▸ i.isLt)

theorem scoreMatches_yields {heap : CursorHeap σ} (ordered : Ordered heap.entries)
    (real : IsReal heap.topDoc)
    (refine : ∀ entry ∈ heap.entries.toList, ∃ meaning : Meaning S, Refines entry.scorer meaning) :
    (heap.scoreMatches heap.topDoc).Yields fun values after => Rescored heap.entries after.entries ∧
      Gathers (fun (entry : Ranked σ) value => ∀ meaning : Meaning S, Refines entry.scorer meaning →
        meaning.scores heap.topDoc value)
        (heap.entries.toList.filter fun entry => decide (entry.doc = heap.topDoc)) values := by
  -- An entry on the root's document answers its score, and stays where it is.
  have answers : ∀ entry : Ranked σ, entry.doc = heap.topDoc → ∀ meaning : Meaning S,
      Refines entry.scorer meaning → ∃ value, (Scorer.score entry.scorer).1 = .ok value ∧
        meaning.scores heap.topDoc value ∧ (scored entry).doc = entry.doc := by
    intro entry here meaning refines
    have onDoc : Cursor.doc entry.scorer = heap.topDoc := here
    obtain ⟨value, after, same, ⟨answered, stays⟩, -⟩ :=
      refines.score (refines.member_of_real (onDoc.symm ▸ real))
    refine ⟨value, congrArg Prod.fst same, onDoc ▸ answered, ?_⟩
    rw [scored, same]
    exact stays
  obtain ⟨values, after, same, afterEq, gathers⟩ := scoreMatches_asks ordered fun entry member here => by
    obtain ⟨meaning, refines⟩ := refine entry member
    obtain ⟨value, answered, -⟩ := answers entry here meaning refines
    exact ⟨value, answered⟩
  refine ⟨values, after, same, ?_, gathers.mono fun entry member value asked meaning refines => ?_⟩
  · have size : after.entries.size = heap.entries.size := by rw [afterEq, Array.size_map]
    have entryAt : ∀ i (h : i < heap.entries.size) (h' : i < after.entries.size), after.entries[i] =
        if heap.entries[i].doc = heap.topDoc then scored heap.entries[i] else heap.entries[i] := by
      intro i h h'
      simp [afterEq]
    refine ⟨size, fun i h h' => ?_, fun i h h' => ?_, fun i h h' meaning refines => ?_⟩
    all_goals
      rw [entryAt i h h']
      split
    · rfl
    · rfl
    next here =>
      obtain ⟨meaning, refines⟩ := refine heap.entries[i] (by simp)
      obtain ⟨-, -, -, stays⟩ := answers _ here meaning refines
      exact stays
    · rfl
    next here => exact refines.after_step (.score _ (by rw [← here] at real; exact real))
    · exact refines
  · have here : entry.doc = heap.topDoc := by simpa using (List.mem_filter.mp member).2
    obtain ⟨other, answered, scores, -⟩ := answers entry here meaning refines
    rw [answered] at asked
    cases asked
    exact scores

end Scoring

end CursorHeap

end PostingQuery
