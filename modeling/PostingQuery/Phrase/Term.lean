import PostingQuery.Posting.Source
import PostingQuery.StableSort

/-!
The terms that a phrase is made of.
-/

namespace PostingQuery

/-- A term of a phrase: its postings, its place within the phrase and, if it is known, its text. The
text tells which terms of a phrase are the same. -/
structure PhraseTerm (P : Type) where
  postings : P
  position : Int
  text : Option String

namespace PhraseTerm

variable {P : Type}

def refusal (terms : List (PhraseTerm P)) : Option Misconfiguration :=
  if terms.length < 2 then some (.phraseTooShort terms.length)
  else
    match terms.find? (·.position < 0) with
    | some term => some (.negativePhrasePosition term.position)
    | none => none

variable [Cursor P]

def mayLead (a b : PhraseTerm P) : Bool :=
  let costA := Cursor.cost a.postings
  let costB := Cursor.cost b.postings
  decide (costA < costB) || (costA == costB && decide (a.position ≤ b.position))

def arrange (terms : List (PhraseTerm P)) : List (PhraseTerm P) := StableSort.sort mayLead terms

end PhraseTerm

end PostingQuery
