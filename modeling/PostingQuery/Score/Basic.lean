/-!
What scores are made of. A query is evaluated over any type of scores that has the operations
below, so that its rules can be read with rounding and without.
-/

namespace PostingQuery

/-- A type of scores. Sums over many clauses run in a wider type, `Total`, and are rounded to a
score once. -/
class Score (S : Type) extends Add S, Sub S, Mul S, Div S where
  Total : Type
  zero : S
  one : S
  ofInt : Int → S
  ofNat : Nat → S
  nothing : Total
  widen : S → Total
  accumulate : Total → S → Total
  round : Total → S
  scaled : Total → S → S
  largest : List S → S
  isOne : S → Bool
  isPositive : S → Bool
  text : S → String
  inspected : S → String

namespace Score

variable {S : Type} [Score S]

def total (scores : List S) : Total S := scores.foldl accumulate nothing

end Score

end PostingQuery
