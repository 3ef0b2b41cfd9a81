import PostingQuery.CursorHeap
import PostingQuery.StableSort

/-!
Quorums: the documents that at least a minimum of the parts match. The costliest parts, one fewer
than the minimum, wait in a reserve outside the heap. A match needs a part of the heap, so candidates
come from the cheap parts alone, and the reserve is only advanced to candidates.
-/

namespace PostingQuery

structure Quorum (S σ : Type) [Score S] where
  minimum : Nat
  /-- Costliest first. -/
  reserve : List (Ranked σ)
  heap : CursorHeap σ
  /-- The parts of heap and reserve whose documents are not used up. -/
  live : Nat
  doc : DocId
  matchers : Nat
  total : Score.Total S
  cost : UInt64
  /-- Whether a candidate is dropped as soon as the rest of the reserve cannot make up its minimum. -/
  abortsEarly : Bool
  counting : Bool

namespace Quorum

variable {S σ : Type} [Score S]

def ofSorted [Cursor σ] (sorted : List σ) (minimum : Nat) (cost : UInt64) : Quorum S σ where
  minimum
  reserve := (Ranked.ofList sorted).take (minimum - 1)
  heap := .ofList ((Ranked.ofList sorted).drop (minimum - 1))
  live := sorted.length
  doc := unpositioned
  matchers := 0
  total := Score.nothing
  cost
  abortsEarly := true
  counting := false

/-- A quorum of at least two parts, with a minimum from one to their number. Of parts with equal costs
the earlier one ranks as the costlier. -/
def ofList [Cursor σ] (scorers : List σ) (minimum : Nat) : Logged (Quorum S σ) :=
  let count := scorers.length
  if count < 2 then .silent (.error (.invalidConfiguration (.quorumOverTooFew count)))
  else if minimum = 0 ∨ count < minimum then
    .silent (.error (.invalidConfiguration (.quorumOutOfRange count minimum)))
  else
    let costlier (a b : σ) := decide (Cursor.cost b ≤ Cursor.cost a)
    (Cursor.sumCosts (scorers.map Cursor.cost)).map (ofSorted (StableSort.sort costlier scorers) minimum)

def thorough (quorum : Quorum S σ) : Quorum S σ := { quorum with abortsEarly := false }

def counted (quorum : Quorum S σ) : Quorum S σ := { quorum with counting := true }

def exhausted (quorum : Quorum S σ) : Quorum S σ := { quorum with doc := noMoreDocs, matchers := 0 }

def loseOne (quorum : Quorum S σ) : Quorum S σ := { quorum with live := quorum.live - 1 }

def score (quorum : Quorum S σ) : S := Score.round quorum.total

variable [Scorer S σ]

/-- Puts an entry that misses the candidate behind the unseen ones. If it has just used up its
documents, the costliest entry of the heap takes its place, at the end of the reserve. Answers nothing
if too few parts are left to match again. -/
def passOver (quorum : Quorum S σ) (usedUp : Bool) (entry : Ranked σ) (seen : List (Ranked σ)) :
    Quorum S σ × Option (List (Ranked σ)) :=
  if usedUp then
    let quorum := quorum.loseOne
    if quorum.live < quorum.minimum then (quorum.exhausted, none)
    else
      match quorum.heap.takeLeastRank with
      | some (replacement, heap) => ({ quorum with heap }, some (seen ++ [replacement]))
      | none => (quorum, some seen)
  else (quorum, some (entry :: seen))

def isHopeless (quorum : Quorum S σ) (unseen : List (Ranked σ)) : Bool :=
  quorum.abortsEarly && decide (quorum.matchers + unseen.length < quorum.minimum)

/-- Looks at the reserve from its last entry to its first. `unseen` holds the entries still to look at,
the last one first, and `seen` those behind them. -/
def pollReserve (quorum : Quorum S σ) : List (Ranked σ) → List (Ranked σ) → Step (Quorum S σ) Unit
  | [], seen => (.ok (), { quorum with reserve := seen })
  | entry :: unseen, seen =>
    let lagging := decide (entry.doc < quorum.doc)
    match Cursor.reach entry.scorer quorum.doc with
    | (.error failure, scorer) =>
      (.error failure, { quorum with reserve := unseen.reverse ++ ⟨entry.rank, scorer⟩ :: seen })
    | (.ok reached, scorer) =>
      if reached = quorum.doc then
        let quorum := { quorum with matchers := quorum.matchers + 1 }
        match Scorer.score scorer with
        | (.error failure, scorer) =>
          (.error failure, { quorum with reserve := unseen.reverse ++ ⟨entry.rank, scorer⟩ :: seen })
        | (.ok value, scorer) =>
          pollReserve { quorum with total := Score.accumulate quorum.total value } unseen
            (⟨entry.rank, scorer⟩ :: seen)
      else
        match quorum.passOver (lagging && reached == noMoreDocs) ⟨entry.rank, scorer⟩ seen with
        | (quorum, none) =>
          (.ok (), { quorum with reserve := unseen.reverse ++ ⟨entry.rank, scorer⟩ :: seen })
        | (quorum, some seen) =>
          if quorum.isHopeless unseen then (.ok (), { quorum with reserve := unseen.reverse ++ seen })
          else pollReserve quorum unseen seen

def evaluate (quorum : Quorum S σ) : Step (Quorum S σ) Unit :=
  let doc := quorum.heap.topDoc
  let quorum := { quorum with doc }
  if doc = noMoreDocs then (.ok (), quorum.exhausted)
  else
    match quorum.heap.scoreMatches doc with
    | (.error failure, heap) => (.error failure, { quorum with heap })
    | (.ok scores, heap) =>
      let counted := { quorum with heap, matchers := scores.length, total := Score.total scores }
      counted.pollReserve counted.reserve.reverse []

def moveWhile (move : σ → Step σ DocId) (behind : DocId → Bool) :
    Nat → Quorum S σ → Step (Quorum S σ) Bool
  | 0, quorum => (.error (.other .stalled), quorum)
  | moves + 1, quorum =>
    if behind quorum.heap.topDoc then
      match quorum.heap.moveTop move with
      | (.error failure, heap) => (.error failure, { quorum with heap })
      | (.ok true, heap) => moveWhile move behind moves { quorum with heap }
      | (.ok false, heap) =>
        let quorum := { quorum with heap }.loseOne
        if quorum.live < quorum.minimum then (.ok false, quorum.exhausted)
        else moveWhile move behind moves quorum
    else (.ok true, quorum)

def search : Nat → Quorum S σ → Step (Quorum S σ) DocId
  | 0, quorum => (.error (.other .stalled), quorum)
  | candidates + 1, quorum =>
    match moveWhile Cursor.next (· == quorum.doc) quorum.heap.moveBound quorum with
    | (.error failure, quorum) => (.error failure, quorum)
    | (.ok false, quorum) => (.ok noMoreDocs, quorum)
    | (.ok true, quorum) =>
      match quorum.evaluate with
      | (.error failure, quorum) => (.error failure, quorum)
      | (.ok (), quorum) =>
        if quorum.doc = noMoreDocs ∨ quorum.minimum ≤ quorum.matchers then (.ok quorum.doc, quorum)
        else search candidates quorum

def next (quorum : Quorum S σ) : Step (Quorum S σ) DocId := search moveLimit quorum

def advance (quorum : Quorum S σ) (target : DocId) : Step (Quorum S σ) DocId :=
  if quorum.live < quorum.minimum then (.ok noMoreDocs, quorum.exhausted)
  else
    match moveWhile (Cursor.advance · target) (decide <| · < target) quorum.heap.moveBound quorum with
    | (.error failure, quorum) => (.error failure, quorum)
    | (.ok false, quorum) => (.ok noMoreDocs, quorum)
    | (.ok true, quorum) =>
      match quorum.evaluate with
      | (.error failure, quorum) => (.error failure, quorum)
      | (.ok (), quorum) =>
        if quorum.doc = noMoreDocs ∨ quorum.minimum ≤ quorum.matchers then (.ok quorum.doc, quorum)
        else quorum.next

instance : Cursor (Quorum S σ) where
  doc := doc
  next := next
  advance := advance
  cost := cost

instance : Scorer S (Quorum S σ) where
  score quorum := (.ok quorum.score, quorum)
  matchCount := matchers
  scoreCounting quorum :=
    let count := if quorum.counting then quorum.matchers else 0
    (.ok (quorum.score, count), quorum)
  explain := Scorer.explainScore fun quorum => (.ok quorum.score, quorum)

end Quorum

end PostingQuery
