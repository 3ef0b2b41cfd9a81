import PostingQuery.Scorer.Basic

/-!
Exclusions: the documents of a required scorer that a barrier does not match. Scores and counts come
from the required side alone.
-/

namespace PostingQuery

structure Exclusion (ρ ξ : Type) where
  required : ρ
  barrier : Option ξ
  doc : DocId

namespace Exclusion

variable {S ρ ξ : Type} [Score S]

def ofParts (required : ρ) (barrier : ξ) : Exclusion ρ ξ := ⟨required, some barrier, unpositioned⟩

section Walk

variable [Cursor ρ] [Cursor ξ]

/-- Brings the barrier up to a document and answers whether it matches there. A barrier without
further documents is dropped. -/
def poll (candidate : DocId) (barrier : ξ) : Step (Option ξ) Bool :=
  match Cursor.reach barrier candidate with
  | (.error failure, barrier) => (.error failure, some barrier)
  | (.ok reached, barrier) =>
    if reached = noMoreDocs then (.ok false, none)
    else (.ok (decide (reached ≤ candidate)), some barrier)

def settle : Nat → Exclusion ρ ξ → DocId → Step (Exclusion ρ ξ) DocId
  | 0, exclusion, _ => (.error (.other .stalled), exclusion)
  | moves + 1, exclusion, candidate =>
    if candidate = noMoreDocs then (.ok noMoreDocs, { exclusion with doc := noMoreDocs })
    else
      match exclusion.barrier with
      | none => (.ok candidate, { exclusion with doc := candidate })
      | some barrier =>
        match poll candidate barrier with
        | (.error failure, barrier) => (.error failure, { exclusion with barrier })
        | (.ok false, barrier) => (.ok candidate, { exclusion with barrier, doc := candidate })
        | (.ok true, barrier) =>
          match Cursor.next exclusion.required with
          | (.error failure, required) => (.error failure, { exclusion with required, barrier })
          | (.ok reached, required) => settle moves { exclusion with required, barrier } reached

def moveRequired (exclusion : Exclusion ρ ξ) (move : ρ → Step ρ DocId) :
    Step (Exclusion ρ ξ) DocId :=
  match move exclusion.required with
  | (.error failure, required) => (.error failure, { exclusion with required })
  | (.ok reached, required) => settle moveLimit { exclusion with required } reached

instance : Cursor (Exclusion ρ ξ) where
  doc := doc
  next exclusion := exclusion.moveRequired Cursor.next
  advance exclusion target := exclusion.moveRequired (Cursor.advance · target)
  cost exclusion := Cursor.cost exclusion.required

end Walk

variable [Scorer S ρ] [Cursor ξ]

def score (exclusion : Exclusion ρ ξ) : Step (Exclusion ρ ξ) S :=
  (Scorer.score exclusion.required).within fun required => { exclusion with required }

instance : Scorer S (Exclusion ρ ξ) where
  score := score
  matchCount exclusion := Scorer.matchCount exclusion.required
  scoreCounting exclusion :=
    (Scorer.scoreCounting exclusion.required).within fun required => { exclusion with required }
  explain := Scorer.explainScore score

end Exclusion

end PostingQuery
