import PostingQuery.Journal
import PostingQuery.Scorer.Basic

/-!
Heaps of cursors with the smallest current document at the root. Cursors that share the root's
document hang together below the root, so the matches of a document are found by walking down.
-/

namespace PostingQuery

def Cursor.overflows (sum : UInt64) : List UInt64 → List Event
  | [] => []
  | cost :: costs =>
    let later := overflows (sum + cost) costs
    if UInt64.size ≤ sum.toNat + cost.toNat then .costOverflow :: later else later

/-- The sum of some costs. It is taken modulo `2 ^ 64`, which is reported wherever it makes a difference. -/
def Cursor.sumCosts (costs : List UInt64) : Logged UInt64 := ⟨.ok (costs.foldl (· + ·) 0), overflows 0 costs⟩

structure Ranked (σ : Type) where
  rank : Nat
  scorer : σ

namespace Ranked

variable {σ : Type}

def ofList (scorers : List σ) : List (Ranked σ) :=
  scorers.zipIdx.map fun (scorer, rank) => ⟨rank, scorer⟩

def doc [Cursor σ] (entry : Ranked σ) : DocId := Cursor.doc entry.scorer

end Ranked

/-- A binary heap: the children of place `i` are at `2 * i + 1` and `2 * i + 2`. -/
structure CursorHeap (σ : Type) where
  entries : Array (Ranked σ)

namespace CursorHeap

variable {S σ : Type}

def size (heap : CursorHeap σ) : Nat := heap.entries.size

/-- All cursors together cannot make more moves than this. -/
def moveBound (heap : CursorHeap σ) : Nat :=
  heap.entries.foldl (fun moves _ => moves + moveLimit) moveLimit

section Order

variable [Cursor σ]

/-- The child of a place with the smaller document. Of two equal ones it is the left child. -/
def smallerChild (entries : Array (Ranked σ)) (i : Nat) (hasLeft : 2 * i + 1 < entries.size) :
    { child : Nat // i < child ∧ child < entries.size } :=
  if hasRight : 2 * i + 2 < entries.size then
    if entries[2 * i + 2].doc < entries[2 * i + 1].doc then ⟨2 * i + 2, by omega⟩
    else ⟨2 * i + 1, by omega⟩
  else ⟨2 * i + 1, by omega⟩

def siftDown (entries : Array (Ranked σ)) (i : Nat) : Array (Ranked σ) :=
  if hasLeft : 2 * i + 1 < entries.size then
    let ⟨child, below, inside⟩ := smallerChild entries i hasLeft
    if entries[child].doc < entries[i].doc then
      siftDown (entries.swap i child) child
    else entries
  else entries
termination_by entries.size - i
decreasing_by simp only [Array.size_swap]; omega

def siftUp (entries : Array (Ranked σ)) (i : Nat) (inside : i < entries.size) : Array (Ranked σ) :=
  if root : i = 0 then entries
  else
    let parent := (i - 1) / 2
    if entries[parent].doc ≤ entries[i].doc then entries
    else siftUp (entries.swap i parent) parent (by simp only [Array.size_swap]; omega)
termination_by i
decreasing_by omega

def siftFirst : Nat → Array (Ranked σ) → Array (Ranked σ)
  | 0, entries => entries
  | count + 1, entries => siftFirst count (siftDown entries count)

def ofList (entries : List (Ranked σ)) : CursorHeap σ :=
  ⟨siftFirst (entries.length / 2) entries.toArray⟩

def topDoc (heap : CursorHeap σ) : DocId :=
  if nonempty : 0 < heap.entries.size then heap.entries[0].doc else noMoreDocs

def removeAt (heap : CursorHeap σ) (i : Nat) (inside : i < heap.entries.size) :
    Ranked σ × CursorHeap σ :=
  let removed := heap.entries[i]
  let entries := (heap.entries.swap i (heap.entries.size - 1)).pop
  if stays : i < entries.size then
    (removed, ⟨siftDown (siftUp entries i stays) i⟩)
  else (removed, ⟨entries⟩)

def removeTop (heap : CursorHeap σ) : CursorHeap σ :=
  if nonempty : 0 < heap.entries.size then
    ⟨siftDown (heap.entries.swap 0 (heap.entries.size - 1)).pop 0⟩
  else heap

/-- Moves the root. It sinks to where it belongs, or leaves once its documents are used up. Answers
whether it stays. After a failed move the root keeps its place. -/
def moveTop (heap : CursorHeap σ) (move : σ → Step σ DocId) : Step (CursorHeap σ) Bool :=
  if nonempty : 0 < heap.entries.size then
    match move heap.entries[0].scorer with
    | (.error failure, scorer) =>
      (.error failure, ⟨heap.entries.set 0 ⟨heap.entries[0].rank, scorer⟩⟩)
    | (.ok doc, scorer) =>
      let entries := heap.entries.set 0 ⟨heap.entries[0].rank, scorer⟩
      if doc = noMoreDocs then (.ok false, removeTop ⟨entries⟩)
      else (.ok true, ⟨siftDown entries 0⟩)
  else (.ok false, heap)

def placeOfLeastRank (heap : CursorHeap σ) : Option (Fin heap.entries.size) :=
  (List.finRange heap.entries.size).foldl (fun best i =>
    match best with
    | none => some i
    | some j => if heap.entries[i].rank < heap.entries[j].rank then some i else some j) none

def takeLeastRank (heap : CursorHeap σ) : Option (Ranked σ × CursorHeap σ) :=
  match heap.placeOfLeastRank with
  | none => none
  | some i => some (heap.removeAt i i.isLt)

/-- The places at and below a place whose entries stand on a document, each before those below it.
Nothing is looked for below an entry that stands elsewhere. -/
def placesOn (entries : Array (Ranked σ)) (doc : DocId) (i : Nat) : List Nat :=
  if inside : i < entries.size then
    if entries[i].doc = doc then
      i :: (placesOn entries doc (2 * i + 1) ++ placesOn entries doc (2 * i + 2))
    else []
  else []
termination_by entries.size - i

def cost (heap : CursorHeap σ) : Logged UInt64 :=
  Cursor.sumCosts (heap.entries.toList.map fun entry => Cursor.cost entry.scorer)

end Order

variable [Scorer S σ]

def scoreAt : List Nat → Array (Ranked σ) → Step (Array (Ranked σ)) (List S)
  | [], entries => (.ok [], entries)
  | i :: rest, entries =>
    if inside : i < entries.size then
      match Scorer.score entries[i].scorer with
      | (.error failure, scorer) => (.error failure, entries.set i ⟨entries[i].rank, scorer⟩)
      | (.ok value, scorer) =>
        match scoreAt rest (entries.set i ⟨entries[i].rank, scorer⟩) with
        | (.error failure, entries) => (.error failure, entries)
        | (.ok values, entries) => (.ok (value :: values), entries)
    else scoreAt rest entries

def scoreMatches (heap : CursorHeap σ) (doc : DocId) : Step (CursorHeap σ) (List S) :=
  (scoreAt (placesOn heap.entries doc 0) heap.entries).within CursorHeap.mk

end CursorHeap

end PostingQuery
