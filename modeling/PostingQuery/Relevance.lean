import PostingQuery.Document
import PostingQuery.Score.Basic

/-!
Relevance: how the leaves of a query turn a frequency into a score. A query never looks inside.
-/

namespace PostingQuery

structure Relevance (S : Type) where
  name : String
  boost : S
  score : DocId → S → S
  /-- What a sloppy occurrence adds to the frequency when it spans some extra positions. -/
  slopFactor : Int → S

namespace Relevance

variable {S : Type} [Score S]

/-- One over one more than the extra positions, so that an exact occurrence counts once. -/
def reciprocalSlop (distance : Int) : S := Score.one / (Score.ofInt distance + Score.one)

def constant (value boost : S) : Relevance S :=
  ⟨"Constant", boost, fun _ _ => value * boost, reciprocalSlop⟩

def ofFunction (score : DocId → S → S) : Relevance S := ⟨"Fn", Score.one, score, reciprocalSlop⟩

def functionInspected : String := "FnScorer \x7b .. \x7d"

end Relevance

end PostingQuery
