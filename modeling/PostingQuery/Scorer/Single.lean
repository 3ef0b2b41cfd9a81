import PostingQuery.Scorer.Basic

/-!
A part of a query that counts as one matching clause, whatever it holds.
-/

namespace PostingQuery

structure Single (σ : Type) where
  inner : σ

namespace Single

variable {S σ : Type} [Score S]

instance [Cursor σ] : Cursor (Single σ) where
  doc single := Cursor.doc single.inner
  next single := (Cursor.next single.inner).within Single.mk
  advance single target := (Cursor.advance single.inner target).within Single.mk
  cost single := Cursor.cost single.inner

def score [Scorer S σ] (single : Single σ) : Step (Single σ) S :=
  (Scorer.score single.inner).within Single.mk

instance [Scorer S σ] : Scorer S (Single σ) where
  score := score
  matchCount _ := 1
  scoreCounting single := single.score.map (·, 1)
  explain := Scorer.explainScore score

end Single

end PostingQuery
