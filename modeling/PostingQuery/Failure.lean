import PostingQuery.Document

/-!
Everything that can go wrong, as causes. The wording of each cause is given once, by `message`.
-/

namespace PostingQuery

inductive Misconfiguration where
  | tableSizeNotPowerOfTwo (size : UInt64)
  | tableSizeBeyondDocuments (size : UInt64)
  | chunkSizeOutOfRange (size largest : UInt64)
  | noNextCalls
  | documentOutOfOrder (doc last : DocId)
  | positionCountMismatch (doc : DocId) (count : Nat) (freq : Int)
  | positionsUnsorted (doc : DocId)
  | negativeFirstPosition (doc : DocId) (position : Int)
  | emptyConjunction
  | emptyDisjunction
  | quorumOverTooFew (count : Nat)
  | quorumOutOfRange (count minimum : Nat)
  | phraseTooShort (count : Nat)
  | negativePhrasePosition (position : Int)
  | negativeSlop (slop : Int)
  | noOptionalClause
  | minimumExceedsClauses (minimum count : Nat)
  | coordinationTooSmall (covered needed : Nat)
  | reported (text : String)
  deriving DecidableEq

inductive PostingFault where
  | notOnDocument
  | positionsUsedUp (doc : DocId)
  | negativePosition (position : Int) (doc : DocId)
  | reported (text : String)
  deriving DecidableEq

inductive Complaint where
  /-- A document lies behind the cursor that is asked to explain it. -/
  | behindCursor (doc current : DocId)
  /-- A loop used up its bound because some cursor does not move forward. -/
  | stalled
  | internal (text : String)
  | reported (text : String)
  deriving DecidableEq

/-- A failed operation. `terminated` is no fault: a collector raises it to stop early. -/
inductive Failure where
  | invalidConfiguration (why : Misconfiguration)
  | posting (why : PostingFault)
  | terminated
  | json
  | other (why : Complaint)
  /-- A failure that a collaborator reports in its own words. -/
  | collaborator (text : String)
  deriving DecidableEq

namespace Misconfiguration

def message : Misconfiguration → String
  | tableSizeNotPowerOfTwo size => s!"bucket_table_size must be a power of two >= 2, got {size}"
  | tableSizeBeyondDocuments size => s!"bucket_table_size {size} exceeds the document id space"
  | chunkSizeOutOfRange size largest => s!"phrase_chunk_size must be in 1..={largest}, got {size}"
  | noNextCalls => "phrase_max_next_calls must be at least 1"
  | documentOutOfOrder doc last =>
    "posting doc ids must be strictly increasing, non-negative and below NO_MORE_DOCS " ++
      s!"(got {doc} after {last})"
  | positionCountMismatch doc count freq => s!"doc {doc} has {count} positions but freq {freq}"
  | positionsUnsorted doc => s!"positions of doc {doc} must be sorted"
  | negativeFirstPosition doc position =>
    s!"positions of doc {doc} must be non-negative, got {position}"
  | emptyConjunction => "a conjunction needs at least one sub-scorer"
  | emptyDisjunction => "a disjunction needs at least one sub-scorer"
  | quorumOverTooFew count => s!"minimum-should-match needs at least 2 sub-scorers, got {count}"
  | quorumOutOfRange count minimum =>
    s!"minimum-should-match must be in 1..={count}, got {minimum}"
  | phraseTooShort count => s!"a phrase needs at least 2 terms, got {count}"
  | negativePhrasePosition position =>
    s!"phrase term position must be non-negative, got {position}"
  | negativeSlop slop => s!"slop must be non-negative, got {slop}"
  | noOptionalClause => "windowed boolean scorer needs at least one optional clause"
  | minimumExceedsClauses minimum count =>
    s!"minimum-should-match {minimum} exceeds {count} optional clauses"
  | coordinationTooSmall covered needed => s!"coord table covers {covered} clauses, need {needed}"
  | reported text => text

end Misconfiguration

namespace PostingFault

def message : PostingFault → String
  | notOnDocument => "posting list is not positioned on a document"
  | positionsUsedUp doc => s!"read past the last position of doc {doc}"
  | negativePosition position doc => s!"negative position {position} in doc {doc}"
  | reported text => text

end PostingFault

namespace Complaint

def message : Complaint → String
  | behindCursor doc current => s!"cannot explain doc {doc}: already positioned on {current}"
  | stalled => "a cursor does not move forward"
  | internal text => "Internal error: " ++ text
  | reported text => text

end Complaint

namespace Failure

def message : Failure → String
  | invalidConfiguration why => "Invalid configuration: " ++ why.message
  | posting why => "Posting error: " ++ why.message
  | terminated => "Collection terminated"
  | json => "JSON error"
  | other why => "Error: " ++ why.message
  | collaborator text => "Anyhow error: " ++ text

def isTermination : Failure → Bool
  | terminated => true
  | _ => false

end Failure

end PostingQuery
