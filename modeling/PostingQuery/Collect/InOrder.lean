import PostingQuery.Collect.Collector
import PostingQuery.Scorer.Basic

/-!
Searching in document order: a scorer is walked, and each of its documents goes to the collector.
-/

namespace PostingQuery.InOrder

variable {S σ κ : Type} [Scorer S σ] [Collector S κ]

/-- Passes the current document on and moves, as long as it lies before `bound`. Answers whether
documents are left. A failure leaves the scorer on the document that it happened on. -/
def feed (bound : DocId) : Nat → σ → κ → DocId → Step (σ × κ) Bool
  | 0, scorer, sink, _ => (.error (.other .stalled), (scorer, sink))
  | moves + 1, scorer, sink, doc =>
    if doc < bound then
      match Scorer.score scorer with
      | (.error failure, scorer) => (.error failure, (scorer, sink))
      | (.ok value, scorer) =>
        match Collector.collect sink doc value with
        | (.error failure, sink) => (.error failure, (scorer, sink))
        | (.ok (), sink) =>
          match Cursor.next scorer with
          | (.error failure, scorer) => (.error failure, (scorer, sink))
          | (.ok doc, scorer) => feed bound moves scorer sink doc
    else (.ok (doc != noMoreDocs), (scorer, sink))

def drain (scorer : σ) (sink : κ) (bound : DocId) : Step (σ × κ) Bool :=
  let doc := Cursor.doc scorer
  let placed := if doc < 0 then Cursor.next scorer else (.ok doc, scorer)
  match placed with
  | (.error failure, scorer) => (.error failure, (scorer, sink))
  | (.ok doc, scorer) => feed bound moveLimit scorer sink doc

end PostingQuery.InOrder
