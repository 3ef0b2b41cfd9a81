import PostingQuery.Boolean.Query
import PostingQuery.Scorer.Basic

/-!
Explaining how a document scores against the clauses of a boolean query.
-/

namespace PostingQuery

namespace BooleanQuery

variable {S σ : Type} [Score S]

def requiredDetails (explained : List (Explanation S)) : List (Explanation S) :=
  explained.zipIdx.map fun (detail, i) =>
    if detail.matched then detail
    else .noMatch s!"no match on required clause (must #{i})" [detail]

def prohibitedDetails (explained : List (Explanation S)) : List (Explanation S) :=
  explained.zipIdx.filterMap fun (detail, i) =>
    if detail.matched then
      some (.noMatch s!"match on prohibited clause (must_not #{i})" [detail])
    else none

/-- Puts the explanations of the clauses together. The sum runs over the matching clauses in order. -/
def combine (query : BooleanQuery S σ) (required optional prohibited : List (Explanation S)) :
    Explanation S :=
  let optional := optional.filter (·.matched)
  let details := requiredDetails required ++ optional ++ prohibitedDetails prohibited
  let minimum := query.minimum
  if required.any (!·.matched) || prohibited.any (·.matched) then
    .noMatch "Failure to meet condition(s) of required/prohibited clause(s)" details
  else if optional.length < minimum then
    .noMatch s!"Failure to match minimum number of optional clauses: {minimum}" details
  else
    let scoring := required ++ optional
    let overlap := scoring.length
    let value := scoring.foldl (fun sum detail => sum + detail.value) Score.zero
    let sum : Explanation S := ⟨value, "sum of:", 0 < overlap, details⟩
    let factor := query.table.factor overlap
    let largest := query.table.largest
    if Score.isOne factor || overlap == 0 then sum
    else
      .matching (value * factor) "product of:"
        [sum, .matching factor s!"coord({overlap}/{largest})" []]

/-- Explains a document: every clause is moved to it, in the order required, optional, prohibited. -/
def explain [Scorer S σ] (query : BooleanQuery S σ) (doc : DocId) :
    Except Failure (Explanation S) := do
  query.settings.validate
  let explainAll (clauses : List σ) := (Step.each (Scorer.explain · doc) clauses).1
  let required ← explainAll query.required
  let optional ← explainAll query.optional
  let prohibited ← explainAll query.prohibited
  return query.combine required optional prohibited

end BooleanQuery

end PostingQuery
