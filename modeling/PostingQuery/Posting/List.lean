import PostingQuery.Posting.Source

/-!
Posting lists held in memory. A list is an index into its postings, which a jump finds by halving the
postings ahead.
-/

namespace PostingQuery

/-- One document of a posting list. There are no positions where they are not indexed. -/
structure Posting where
  doc : DocId
  freq : Int
  positions : List Int
  deriving DecidableEq

namespace Posting

def ofDoc (doc : DocId) : Posting := ⟨doc, 1, []⟩

def ofPositions (doc : DocId) (positions : List Int) : Posting := ⟨doc, positions.length, positions⟩

def areSorted : List Int → Bool
  | x :: y :: rest => x ≤ y && areSorted (y :: rest)
  | _ => true

/-- Why a posting cannot follow the document `last`. The document is looked at first, then the number
of positions, their order, and the first of them. -/
def refusal (last : DocId) (posting : Posting) : Option Misconfiguration :=
  if posting.doc ≤ last ∨ posting.doc = noMoreDocs then
    some (.documentOutOfOrder posting.doc last)
  else
    match posting.positions with
    | [] => none
    | first :: rest =>
      if (rest.length + 1 : Int) ≠ posting.freq then
        some (.positionCountMismatch posting.doc (rest.length + 1) posting.freq)
      else if !areSorted (first :: rest) then some (.positionsUnsorted posting.doc)
      else if first < 0 then some (.negativeFirstPosition posting.doc first)
      else none

def firstRefusal : DocId → List Posting → Option Misconfiguration
  | _, [] => none
  | last, posting :: rest =>
    match posting.refusal last with
    | some why => some why
    | none => firstRefusal posting.doc rest

end Posting

/-- The first index between two borders whose posting does not lie before a document, or the upper border.
The postings are in the order of their documents. -/
def Posting.lowerBound (postings : Array Posting) (target : DocId) (low high : Nat) (inside : high ≤ postings.size) :
    Nat :=
  if undecided : low < high then
    let middle := (low + high) / 2
    if postings[middle].doc < target then lowerBound postings target (middle + 1) high inside
    else lowerBound postings target low middle (by omega)
  else low
termination_by high - low

structure PostingList where
  postings : Array Posting
  cursor : Option Nat
  doc : DocId
  read : Nat
  deriving DecidableEq

namespace PostingList

def fresh (postings : List Posting) : PostingList := ⟨postings.toArray, none, unpositioned, 0⟩

def ofPostings (postings : List Posting) : Except Failure PostingList :=
  match Posting.firstRefusal unpositioned postings with
  | some why => .error (.invalidConfiguration why)
  | none => .ok (fresh postings)

def ofDocs (docs : List DocId) : Except Failure PostingList := ofPostings (docs.map Posting.ofDoc)

def ofPositions (docs : List (DocId × List Int)) : Except Failure PostingList :=
  ofPostings (docs.map fun (doc, positions) => Posting.ofPositions doc positions)

def size (list : PostingList) : Nat := list.postings.size

def nextIndex (list : PostingList) : Nat :=
  match list.cursor with
  | some index => index + 1
  | none => 0

def current (list : PostingList) : Except Failure Posting :=
  match list.cursor.bind (list.postings[·]?) with
  | some posting => .ok posting
  | none => .error (.posting .notOnDocument)

def moveTo (list : PostingList) (index : Nat) : Step PostingList DocId :=
  let doc := match list.postings[index]? with
    | some posting => posting.doc
    | none => noMoreDocs
  (.ok doc, { list with cursor := some index, doc, read := 0 })

def advance (list : PostingList) (target : DocId) : Step PostingList DocId :=
  let start := min list.nextIndex list.postings.size
  list.moveTo (Posting.lowerBound list.postings target start list.postings.size (Nat.le_refl _))

def freq (list : PostingList) : Except Failure Int := list.current.map Posting.freq

/-- Reads one position of the current document. A failed reading changes nothing. -/
def nextPosition (list : PostingList) : Step PostingList Int :=
  match list.current with
  | .error failure => (.error failure, list)
  | .ok posting =>
    match posting.positions[list.read]? with
    | some position => (.ok position, { list with read := list.read + 1 })
    | none => (.error (.posting (.positionsUsedUp list.doc)), list)

instance : PostingSource PostingList where
  doc := doc
  next list := list.moveTo list.nextIndex
  advance := advance
  cost list := list.size.toUInt64
  freq := freq
  nextPosition := nextPosition

end PostingList

end PostingQuery
