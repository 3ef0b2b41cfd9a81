/-!
Document ids of one index segment, and the two ids that stand for no document.
-/

namespace PostingQuery

/-- A document of one index segment. Real documents are natural numbers below `noMoreDocs`. -/
abbrev DocId := Int

def noMoreDocs : DocId := 2147483647

def unpositioned : DocId := -1

/-- An upper bound on the moves of one cursor: each move raises the document id, and there are fewer
ids than this. Loops that move a cursor until it reaches a goal count down from here. -/
def moveLimit : Nat := 4294967296

end PostingQuery
