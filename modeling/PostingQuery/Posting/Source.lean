import PostingQuery.Cursor

/-!
Posting sources: the cursors at the leaves of a query. On each document they give the number of
occurrences of a term and its positions, one after the other.
-/

namespace PostingQuery

class PostingSource (P : Type) extends Cursor P where
  freq : P → Except Failure Int
  /-- The next position in the current document. It is asked for at most `freq` times. -/
  nextPosition : P → Step P Int

end PostingQuery
