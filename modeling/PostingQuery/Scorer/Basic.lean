import PostingQuery.Cursor
import PostingQuery.Explanation

/-!
Scorers: cursors that score the document they stand on. A scorer also tells how many clauses of its
query match there, which decides on the coordination factor.
-/

namespace PostingQuery

/-- A cursor with a score for its current document. Scoring may move parts of the scorer that lag
behind, so it leaves a new state. -/
class Scorer (S : outParam Type) (σ : Type) extends Cursor σ where
  score : σ → Step σ S
  /-- The number of clauses that match the current document. A leaf is one clause. -/
  matchCount : σ → Nat := fun _ => 1
  /-- The score together with the number of matching clauses that this part of a query contributes.
  A leaf contributes none: the node that holds it does the counting. -/
  scoreCounting : σ → Step σ (S × Nat) := fun scorer => (score scorer).map (·, 0)
  explain : σ → DocId → Step σ (Explanation S)

namespace Scorer

variable {S σ : Type} [Score S]

def explainScore [Cursor σ] (score : σ → Step σ S) (scorer : σ) (doc : DocId) :
    Step σ (Explanation S) :=
  match Cursor.seek scorer doc with
  | (.error failure, scorer) => (.error failure, scorer)
  | (.ok current, scorer) =>
    if current = doc then
      (score scorer).map fun value => .matching value s!"score(doc={doc})" []
    else (.ok (.noMatch s!"no match on doc {doc}" []), scorer)

def collectScoredWithin [Scorer S σ] : Nat → σ → List (DocId × S) → Step σ (List (DocId × S))
  | 0, scorer, _ => (.error (.other .stalled), scorer)
  | moves + 1, scorer, hits =>
    match Cursor.next scorer with
    | (.error failure, scorer) => (.error failure, scorer)
    | (.ok doc, scorer) =>
      if doc = noMoreDocs then (.ok hits.reverse, scorer)
      else
        match score scorer with
        | (.error failure, scorer) => (.error failure, scorer)
        | (.ok value, scorer) => collectScoredWithin moves scorer ((doc, value) :: hits)

def collectScored [Scorer S σ] (scorer : σ) : Step σ (List (DocId × S)) :=
  collectScoredWithin moveLimit scorer []

/-- The part of a state in which its behaviour lies, and how the state is put back around it. -/
structure Focus (S τ : Type) where
  {part : Type}
  [scorer : Scorer S part]
  state : part
  rebuild : part → τ

@[reducible]
def ofFocus {τ : Type} (focus : τ → Focus S τ) : Scorer S τ where
  doc state := (focus state).scorer.doc (focus state).state
  next state := ((focus state).scorer.next (focus state).state).within (focus state).rebuild
  advance state target :=
    ((focus state).scorer.advance (focus state).state target).within (focus state).rebuild
  cost state := (focus state).scorer.cost (focus state).state
  score state := ((focus state).scorer.score (focus state).state).within (focus state).rebuild
  matchCount state := (focus state).scorer.matchCount (focus state).state
  scoreCounting state :=
    ((focus state).scorer.scoreCounting (focus state).state).within (focus state).rebuild
  explain state doc :=
    ((focus state).scorer.explain (focus state).state doc).within (focus state).rebuild

end Scorer

structure EmptyScorer (S : Type) where
  cursor : EmptyCursor := {}

namespace EmptyScorer

variable {S : Type} [Score S]

instance : Cursor (EmptyScorer S) where
  doc scorer := Cursor.doc scorer.cursor
  next scorer := (Cursor.next scorer.cursor).within EmptyScorer.mk
  advance scorer target := (Cursor.advance scorer.cursor target).within EmptyScorer.mk
  cost scorer := Cursor.cost scorer.cursor

instance : Scorer S (EmptyScorer S) where
  score scorer := (.ok Score.zero, scorer)
  matchCount _ := 0
  explain := Scorer.explainScore fun scorer => (.ok Score.zero, scorer)

end EmptyScorer

end PostingQuery
