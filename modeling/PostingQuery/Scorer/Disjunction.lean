import PostingQuery.Coordination
import PostingQuery.CursorHeap

/-!
Disjunctions: the documents of any part. A document is scored from the scores of the parts that stand
on it, as soon as the disjunction lands on it.
-/

namespace PostingQuery

inductive Aggregation (S : Type) where
  | sum
  | best (tieBreaker : S)

namespace Aggregation

variable {S : Type} [Score S]

def combine (aggregation : Aggregation S) (scores : List S) : S :=
  match aggregation with
  | sum => Score.round (Score.total scores)
  | best tieBreaker =>
    match scores with
    | [] => Score.zero
    | scores =>
      let largest := Score.largest scores
      largest + tieBreaker * (Score.round (Score.total scores) - largest)

end Aggregation

structure Disjunction (S σ : Type) where
  heap : CursorHeap σ
  doc : DocId
  cost : UInt64
  aggregation : Aggregation S
  coordination : Option (CoordinationTable S)
  counting : Bool
  matchers : Nat
  value : S

namespace Disjunction

variable {S σ : Type} [Score S]

def ofList [Cursor σ] (scorers : List σ) (aggregation : Aggregation S)
    (coordination : Option (CoordinationTable S)) : Logged (Disjunction S σ) :=
  match scorers with
  | [] => .silent (.error (.invalidConfiguration .emptyDisjunction))
  | scorers =>
    let heap := CursorHeap.ofList (Ranked.ofList scorers)
    heap.cost.map fun cost => {
      heap, doc := unpositioned, cost, aggregation, coordination, counting := false
      matchers := 0, value := Score.zero }

def counted (disjunction : Disjunction S σ) : Disjunction S σ := { disjunction with counting := true }

def exhaust (disjunction : Disjunction S σ) : Step (Disjunction S σ) DocId :=
  (.ok noMoreDocs, { disjunction with doc := noMoreDocs, matchers := 0 })

def score (disjunction : Disjunction S σ) : S :=
  match disjunction.coordination with
  | some table => disjunction.value * table.factor disjunction.matchers
  | none => disjunction.value

variable [Scorer S σ]

def land (disjunction : Disjunction S σ) : Step (Disjunction S σ) DocId :=
  let doc := disjunction.heap.topDoc
  match disjunction.heap.scoreMatches doc with
  | (.error failure, heap) => (.error failure, { disjunction with heap, doc })
  | (.ok scores, heap) =>
    let value := disjunction.aggregation.combine scores
    (.ok doc, { disjunction with heap, doc, matchers := scores.length, value })

def moveUntil (move : σ → Step σ DocId) (arrived : DocId → Bool) :
    Nat → Disjunction S σ → Step (Disjunction S σ) DocId
  | 0, disjunction => (.error (.other .stalled), disjunction)
  | moves + 1, disjunction =>
    match disjunction.heap.moveTop move with
    | (.error failure, heap) => (.error failure, { disjunction with heap })
    | (.ok stays, heap) =>
      let disjunction := { disjunction with heap }
      if !stays && heap.size == 0 then disjunction.exhaust
      else if arrived heap.topDoc then disjunction.land
      else moveUntil move arrived moves disjunction

instance : Cursor (Disjunction S σ) where
  doc := doc
  next disjunction :=
    moveUntil Cursor.next (· != disjunction.doc) disjunction.heap.moveBound disjunction
  advance disjunction target :=
    moveUntil (Cursor.advance · target) (decide <| target ≤ ·) disjunction.heap.moveBound disjunction
  cost := cost

instance : Scorer S (Disjunction S σ) where
  score disjunction := (.ok disjunction.score, disjunction)
  matchCount := matchers
  scoreCounting disjunction :=
    let count := if disjunction.counting then disjunction.matchers else 0
    (.ok (disjunction.score, count), disjunction)
  explain := Scorer.explainScore fun disjunction => (.ok disjunction.score, disjunction)

end Disjunction

end PostingQuery
