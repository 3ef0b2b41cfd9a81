import PostingQuery.Boolean.Build
import PostingQuery.Collect.Window

/-!
Searches that push all hits into a collector, window by window or in document order.
-/

namespace PostingQuery

inductive BulkSearch (S σ ρ : Type) [Score S] where
  | windowed (search : WindowedSearch S σ)
  | inOrder (scorer : ρ)

inductive SearchOutcome where
  | completed
  | terminated
  deriving DecidableEq

namespace BulkSearch

variable {S σ ρ κ : Type} [Score S] [Scorer S σ] [Scorer S ρ] [Collector S κ]

def drain (search : BulkSearch S σ ρ) (sink : κ) (bound : DocId) :
    Drained (BulkSearch S σ ρ) κ Bool :=
  match search with
  | windowed search =>
    let drained := search.drain sink bound
    ⟨drained.outcome, windowed drained.rest, drained.sink, drained.events⟩
  | inOrder scorer =>
    match InOrder.drain scorer sink bound with
    | (outcome, (scorer, sink)) => ⟨outcome, inOrder scorer, sink, []⟩

def drainAll (search : BulkSearch S σ ρ) (sink : κ) : Drained (BulkSearch S σ ρ) κ Unit :=
  let drained := search.drain sink noMoreDocs
  { drained with outcome := drained.outcome.map fun _ => () }

/-- Collects every hit that is left. A collector that wants no more ends the search in good order. -/
def run (search : BulkSearch S σ ρ) (sink : κ) : Drained (BulkSearch S σ ρ) κ SearchOutcome :=
  let drained := search.drainAll sink
  match drained.outcome with
  | .ok () => { drained with outcome := .ok .completed }
  | .error .terminated =>
    { drained with outcome := .ok .terminated, events := drained.events ++ [.terminatedEarly] }
  | .error failure => { drained with outcome := .error failure }

end BulkSearch

namespace BooleanQuery

variable {S σ : Type} [Score S] [Scorer S σ]

/-- Whether a query can be searched window by window: hits may arrive in any order, and one optional
clause is enough to match. -/
def isWindowed (query : BooleanQuery S σ) (anyOrder : Bool) : Bool :=
  anyOrder && query.required.isEmpty && !query.optional.isEmpty && query.minimum ≤ 1

def buildSearch (query : BooleanQuery S σ) (anyOrder : Bool) :
    Logged (BulkSearch S σ (BooleanScorer S σ)) := do
  if query.isWindowed anyOrder then
    Logged.report (.windowed query.optional.length query.prohibited.length)
    let search ← WindowedSearch.ofClauses query.optional query.prohibited query.minimum query.table
      query.settings
    return .windowed search
  else
    let scorer ← query.build
    return .inOrder scorer

end BooleanQuery

end PostingQuery
