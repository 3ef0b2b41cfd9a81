import PostingQuery.Coordination
import PostingQuery.Scorer.Basic

/-!
The root of a counting tree: counts the matching clauses of a document and multiplies its score by
the factor for their number.
-/

namespace PostingQuery

structure Coordinated (S σ : Type) where
  inner : σ
  table : CoordinationTable S

namespace Coordinated

variable {S σ : Type} [Score S]

instance [Cursor σ] : Cursor (Coordinated S σ) where
  doc root := Cursor.doc root.inner
  next root := (Cursor.next root.inner).within fun inner => { root with inner }
  advance root target := (Cursor.advance root.inner target).within fun inner => { root with inner }
  cost root := Cursor.cost root.inner

variable [Scorer S σ]

def score (root : Coordinated S σ) : Step (Coordinated S σ) S :=
  ((Scorer.scoreCounting root.inner).map fun (value, count) => value * root.table.factor count).within
    fun inner => { root with inner }

instance : Scorer S (Coordinated S σ) where
  score := score
  matchCount root := Scorer.matchCount root.inner
  explain := Scorer.explainScore score

end Coordinated

end PostingQuery
