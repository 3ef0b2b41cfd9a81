import PostingQuery.Coordination
import PostingQuery.Journal
import PostingQuery.Settings.Basic

/-!
Boolean queries and the plan by which one is evaluated. The plan depends on the numbers of clauses
alone.
-/

namespace PostingQuery

structure BooleanQuery (S σ : Type) where
  required : List σ
  optional : List σ
  prohibited : List σ
  minimum : Nat
  coordination : CoordinationPolicy S
  settings : Settings

inductive BooleanPlan where
  /-- No document can match. -/
  | nothing
  /-- All required clauses, with nothing else to look at. -/
  | requiredOnly
  /-- Any optional clause, with nothing else to look at. -/
  | optionalOnly
  /-- A minimum of the optional clauses that is smaller than their number. -/
  | someOptional (minimum : Nat)
  | oneOptional
  | allOptional
  /-- All required and all optional clauses. -/
  | everyClause
  /-- All required clauses and a minimum of the optional ones. -/
  | gated
  /-- All required clauses, where the optional ones only add to the score. -/
  | bonus
  deriving DecidableEq

namespace BooleanQuery

variable {S σ : Type}

def matchesNothing (query : BooleanQuery S σ) : Bool :=
  (query.required.isEmpty && query.optional.isEmpty) || query.optional.length < query.minimum

def plan (query : BooleanQuery S σ) : BooleanPlan :=
  let least := max query.minimum 1
  if query.matchesNothing then .nothing
  else if query.optional.isEmpty && query.prohibited.isEmpty then .requiredOnly
  else if query.required.isEmpty then
    if query.prohibited.isEmpty && query.minimum ≤ 1 && 1 < query.optional.length then .optionalOnly
    else if least < query.optional.length then .someOptional least
    else if query.optional.length = 1 then .oneOptional
    else .allOptional
  else if query.optional.length = query.minimum then .everyClause
  else if 0 < query.minimum then .gated
  else .bonus

def planEvent (query : BooleanQuery S σ) : Event :=
  let required := query.required.length
  let optional := query.optional.length
  match query.plan with
  | .nothing => .nothingMatches required optional query.minimum
  | .requiredOnly => .requiredOnly required
  | .optionalOnly => .optionalOnly optional
  | .someOptional least => .someOptional least optional
  | .oneOptional => .oneOptional
  | .allOptional => .allOptional optional
  | .everyClause => .everyClause required optional
  | .gated => .gated query.minimum optional
  | .bonus => .bonus optional

variable [Score S]

def table (query : BooleanQuery S σ) : CoordinationTable S :=
  let largest := query.required.length + query.optional.length
  if query.settings.coordDisabled then .disabled largest else .ofPolicy query.coordination largest

end BooleanQuery

end PostingQuery
