import PostingQuery.Boolean.Query
import PostingQuery.Boolean.Scorer

/-!
From a boolean query to its scorer. Each clause is used once, in the place that the plan gives it.
-/

namespace PostingQuery

namespace ClauseGroup

variable {S σ : Type} [Score S] [Scorer S σ]

def requireAll (clauses : List σ) : Except Failure (ClauseGroup S σ) :=
  match clauses with
  | [clause] => .ok (.one ⟨clause⟩)
  | clauses => (Conjunction.ofList clauses Score.one).map fun scorer => .all scorer.counted

/-- All clauses, counted as a conjunction even if there is one. -/
def conjoin (clauses : List σ) : Except Failure (ClauseGroup S σ) :=
  (Conjunction.ofList clauses Score.one).map fun scorer => .all scorer.counted

def require (clauses : List σ) (minimum : Nat) : Logged (ClauseGroup S σ) :=
  if 1 < minimum then (Quorum.ofList clauses minimum).map fun scorer => .atLeast scorer.counted
  else (Disjunction.ofList clauses .sum none).map fun scorer => .any scorer.counted

def requireSome (clauses : List σ) : Logged (ClauseGroup S σ) :=
  match clauses with
  | [clause] => return .one ⟨clause⟩
  | clauses => require clauses 1

end ClauseGroup

namespace Filtered

variable {S ρ σ : Type} [Score S] [Scorer S ρ] [Scorer S σ]

def without (scorer : ρ) (prohibited : List σ) : Logged (Filtered S ρ σ) :=
  match prohibited with
  | [] => return .free scorer
  | [clause] => return .behind (.ofParts scorer (.one clause))
  | clauses =>
    (Quorum.ofList clauses 1).map fun barrier => .behind (.ofParts scorer (.any barrier))

end Filtered

namespace BooleanQuery

variable {S σ : Type} [Score S] [Scorer S σ]

def carryOut (query : BooleanQuery S σ) : BooleanPlan → Logged (BooleanScorer S σ)
  | .nothing => return .nothing {}
  | .requiredOnly => do
    let all ← Conjunction.ofList query.required (query.table.factor query.required.length)
    return .all all
  | .optionalOnly => (Disjunction.ofList query.optional .sum (some query.table)).map .any
  | .someOptional least => do
    let optional ← ClauseGroup.require query.optional least
    alone optional
  | .oneOptional => do
    let optional ← ClauseGroup.requireAll query.optional
    alone optional
  | .allOptional => do
    let optional ← ClauseGroup.conjoin query.optional
    alone optional
  | .everyClause => do
    let clauses ← ClauseGroup.conjoin (query.required ++ query.optional)
    alone clauses
  | .gated => do
    let required ← ClauseGroup.requireAll query.required
    let optional ← ClauseGroup.require query.optional query.minimum
    let both ← Conjunction.ofList [required, optional] Score.one
    let filtered ← Filtered.without both query.prohibited
    return .counting ⟨.gated filtered, query.table⟩
  | .bonus => do
    let required ← ClauseGroup.requireAll query.required
    let optional ← ClauseGroup.requireSome query.optional
    let filtered ← Filtered.without required query.prohibited
    return .counting ⟨.bonus (.ofParts filtered optional), query.table⟩
where
  alone (clauses : ClauseGroup S σ) : Logged (BooleanScorer S σ) := do
    let filtered ← Filtered.without clauses query.prohibited
    return .counting ⟨.group filtered, query.table⟩

/-- The scorer of a query, which visits its documents in order. -/
def build (query : BooleanQuery S σ) : Logged (BooleanScorer S σ) := do
  query.settings.validate
  Logged.report query.planEvent
  query.carryOut query.plan

end BooleanQuery

end PostingQuery
