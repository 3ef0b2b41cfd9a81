import Mathlib
import PostingQuery.Proofs.Heap
import PostingQuery.Proofs.Term
import PostingQuery.Score.SinglePrecision

/-!
Heaps in use. Whatever is done to a heap, one operation after the other, it stays in order, it holds
what it held before less what was taken out, and the matches of the root's document are all found.
-/

namespace PostingQuery

namespace CursorHeap

variable {S σ : Type} [Scorer S σ]

/-- One operation on a heap in which no cursor fails. Scoring leaves the cursors where they are. -/
inductive Operates : CursorHeap σ → CursorHeap σ → Prop
  | next {heap after : CursorHeap σ} {stays : Bool}
    (moves : heap.moveTop Cursor.next = (.ok stays, after)) : Operates heap after
  | advance {heap after : CursorHeap σ} {stays : Bool} (target : DocId)
    (moves : heap.moveTop (fun scorer => Cursor.advance scorer target) = (.ok stays, after)) :
    Operates heap after
  | removeTop (heap : CursorHeap σ) : Operates heap heap.removeTop
  | removeAt (heap : CursorHeap σ) (i : Nat) (inside : i < heap.entries.size) :
    Operates heap (heap.removeAt i inside).2
  | score (heap : CursorHeap σ)
    (scores : ∀ entry ∈ heap.entries.toList, entry.doc = heap.topDoc →
      (∃ value : S, (Scorer.score entry.scorer).1 = .ok value) ∧ (scored entry).doc = entry.doc) :
    Operates heap (heap.scoreMatches heap.topDoc).2

theorem moveTop_of_empty {heap : CursorHeap σ} (empty : heap.entries.size = 0)
    (move : σ → Step σ DocId) : heap.moveTop move = (.ok false, heap) := by
  rw [moveTop, dif_neg (by omega)]

theorem ordered_of_moveTop {heap after : CursorHeap σ} {move : σ → Step σ DocId} {stays : Bool}
    (ordered : Ordered heap.entries) (moves : heap.moveTop move = (.ok stays, after)) :
    Ordered after.entries := by
  by_cases nonempty : 0 < heap.entries.size
  · cases answer : move heap.entries[0].scorer with
    | mk landing root =>
      cases landing with
      | error failure =>
        rw [moveTop, dif_pos nonempty, answer] at moves
        cases moves
      | ok landing =>
        obtain ⟨moved, same, orderedAfter, -⟩ := moveTop_root ordered nonempty answer
        rw [same] at moves
        cases moves
        exact orderedAfter
  · rw [moveTop_of_empty (by omega)] at moves
    cases moves
    exact ordered

theorem Operates.ordered {heap after : CursorHeap σ} (operates : Operates heap after)
    (ordered : Ordered heap.entries) : Ordered after.entries := by
  cases operates with
  | next moves => exact ordered_of_moveTop ordered moves
  | advance target moves => exact ordered_of_moveTop ordered moves
  | removeTop => exact removeTop_ordered fun child positive inside _ => ordered child positive inside (Nat.zero_le _)
  | removeAt i inside => exact removeAt_ordered ordered inside
  | score scores =>
    obtain ⟨values, after, same, afterEq, -⟩ :=
      scoreMatches_asks ordered fun entry member here => (scores entry member here).1
    rw [same]
    refine ordered.congr (by rw [afterEq, Array.size_map]) fun i h h' => ?_
    simp only [afterEq, Array.getElem_map]
    split
    next here => exact (scores _ (by simp) here).2
    next => rfl

theorem ordered_of_operates {entries : List (Ranked σ)} {heap : CursorHeap σ}
    (run : Relation.ReflTransGen Operates (ofList entries) heap) : Ordered heap.entries := by
  induction run with
  | refl => exact ofList_ordered entries
  | tail _ operates ih => exact operates.ordered ih

/-- Over every run of operations a heap stays in order and loses no entry but the one that is taken
out, and every cursor on the root's document is scored once, without a call to any other. -/
theorem operations_keep_order_and_entries (entries : List (Ranked σ)) :
    (ofList entries).entries.toList.Perm entries ∧
      ∀ heap : CursorHeap σ, Relation.ReflTransGen Operates (ofList entries) heap →
        (∀ child (inside : child < heap.entries.size), 0 < child →
          heap.entries[(child - 1) / 2].doc ≤ heap.entries[child].doc) ∧
        (∀ (move : σ → Step σ DocId) (nonempty : 0 < heap.entries.size) (landing : DocId) (after : σ),
          move heap.entries[0].scorer = (.ok landing, after) →
          ∃ moved, heap.moveTop move = (.ok (decide (landing ≠ noMoreDocs)), moved) ∧
            moved.entries.toList.Perm (if landing = noMoreDocs then heap.entries.toList.tail
              else ⟨heap.entries[0].rank, after⟩ :: heap.entries.toList.tail)) ∧
        (∀ move : σ → Step σ DocId, heap.entries.size = 0 → heap.moveTop move = (.ok false, heap)) ∧
        heap.removeTop.entries.toList.Perm heap.entries.toList.tail ∧
        (∀ i (inside : i < heap.entries.size), (heap.removeAt i inside).1 = heap.entries[i] ∧
          heap.entries.toList.Perm (heap.entries[i] :: (heap.removeAt i inside).2.entries.toList)) ∧
        ((∀ entry ∈ heap.entries.toList, entry.doc = heap.topDoc →
            ∃ value : S, (Scorer.score entry.scorer).1 = .ok value) →
          (heap.scoreMatches heap.topDoc).Yields fun values after =>
            after.entries = heap.entries.map (fun entry =>
              if entry.doc = heap.topDoc then ⟨entry.rank, (Scorer.score entry.scorer).2⟩ else entry) ∧
            Gathers (fun entry value => (Scorer.score entry.scorer).1 = .ok value)
              (heap.entries.toList.filter fun entry => decide (entry.doc = heap.topDoc)) values) := by
  refine ⟨ofList_perm entries, fun heap run => ?_⟩
  have ordered := ordered_of_operates run
  refine ⟨fun child inside positive => ?_, fun move nonempty landing after moves => ?_,
    fun move empty => moveTop_of_empty empty move, removeTop_perm heap,
    fun i inside => ⟨removeAt_fst heap inside, ?_⟩, scoreMatches_asks ordered⟩
  · have kept := ordered child positive inside (Nat.zero_le _)
    rwa [key_of_lt (by omega), key_of_lt inside] at kept
  · obtain ⟨moved, same, -, perm⟩ := moveTop_root ordered nonempty moves
    exact ⟨moved, same, perm⟩
  · rw [← removeAt_fst heap inside]
    exact removeAt_perm heap inside

def standing (doc : DocId) : TermScorer PostingList Float32 :=
  ⟨(Cursor.next (PostingList.fresh [.ofDoc doc])).2, .constant Score.one Score.one⟩

/-- Of cursors on 5, 1, 9, 3 and 7 the first one leaves from the middle of the heap. The others stay in
order, and the one at the root is scored. -/
theorem five_cursors_lose_the_first :
    ∃ heap, Relation.ReflTransGen Operates (ofList (Ranked.ofList ([5, 1, 9, 3, 7].map standing))) heap ∧
      heap.entries.toList.map (fun entry => (entry.rank, entry.doc)) = [(1, 1), (3, 3), (2, 9), (4, 7)] ∧
      (heap.scoreMatches heap.topDoc).Yields fun values _ => values.length = 1 := by
  obtain ⟨heap, run, places, answers, alone⟩ : ∃ heap,
      Relation.ReflTransGen Operates (ofList (Ranked.ofList ([5, 1, 9, 3, 7].map standing))) heap ∧
      heap.entries.toList.map (fun entry => (entry.rank, entry.doc)) = [(1, 1), (3, 3), (2, 9), (4, 7)] ∧
      (∀ entry ∈ heap.entries.toList, (Scorer.score entry.scorer).1.isOk = true) ∧
      (heap.entries.toList.filter fun entry => decide (entry.doc = heap.topDoc)).length = 1 :=
    ⟨_, .single (.removeAt _ 3 (by decide +kernel)), by decide +kernel, by decide +kernel, by decide +kernel⟩
  obtain ⟨-, -, -, -, -, scores⟩ := (operations_keep_order_and_entries _).2 heap run
  refine ⟨heap, run, places, (scores fun entry member _ => ?_).mono fun values after asked => ?_⟩
  · have answered := answers entry member
    cases outcome : (Scorer.score entry.scorer).1 with
    | error failure =>
      rw [outcome] at answered
      cases answered
    | ok value => exact ⟨value, rfl⟩
  · rw [asked.2.length_eq, alone]

end CursorHeap

end PostingQuery
