import PostingQuery.Failure

/-!
Cursors: forward walks over increasing document ids. Every node of a query is one.
-/

namespace PostingQuery

/-- What a step answers, together with the state it leaves. A step that fails leaves a state too, for
the walk may go on. -/
abbrev Step (σ α : Type) := Except Failure α × σ

namespace Step

variable {σ τ α β : Type}

def within (step : Step σ α) (rebuild : σ → τ) : Step τ α := (step.1, rebuild step.2)

def map (step : Step σ α) (change : α → β) : Step σ β := (step.1.map change, step.2)

def each (step : σ → Step σ α) : List σ → Step (List σ) (List α)
  | [] => (.ok [], [])
  | state :: rest =>
    match step state with
    | (.error failure, state) => (.error failure, state :: rest)
    | (.ok answer, state) =>
      match each step rest with
      | (.error failure, rest) => (.error failure, state :: rest)
      | (.ok answers, rest) => (.ok (answer :: answers), state :: rest)

end Step

/-- A walk over increasing document ids. It starts on `unpositioned`, or wherever it was left, and ends
on `noMoreDocs`. -/
class Cursor (σ : Type) where
  doc : σ → DocId
  /-- Moves to the next document. It is not asked for once the documents are used up. -/
  next : σ → Step σ DocId
  /-- Moves to the first document from a target on. The target lies beyond the current document. -/
  advance : σ → DocId → Step σ DocId
  /-- An estimate of the number of documents. It only orders the parts of a query. -/
  cost : σ → UInt64

namespace Cursor

variable {σ : Type} [Cursor σ]

def isExhausted (cursor : σ) : Bool := doc cursor == noMoreDocs

def collectWithin : Nat → σ → List DocId → Step σ (List DocId)
  | 0, cursor, _ => (.error (.other .stalled), cursor)
  | moves + 1, cursor, docs =>
    match next cursor with
    | (.error failure, cursor) => (.error failure, cursor)
    | (.ok doc, cursor) =>
      if doc = noMoreDocs then (.ok docs.reverse, cursor)
      else collectWithin moves cursor (doc :: docs)

def collect (cursor : σ) : Step σ (List DocId) := collectWithin moveLimit cursor []

def reach (cursor : σ) (target : DocId) : Step σ DocId :=
  if doc cursor < target then advance cursor target else (.ok (doc cursor), cursor)

/-- Reaches a target that has not been passed yet. A cursor beyond its target cannot go back. -/
def seek (cursor : σ) (target : DocId) : Step σ DocId :=
  let current := doc cursor
  if target < current then (.error (.other (.behindCursor target current)), cursor)
  else reach cursor target

end Cursor

structure EmptyCursor where
  exhausted : Bool := false

namespace EmptyCursor

instance : Cursor EmptyCursor where
  doc cursor := if cursor.exhausted then noMoreDocs else unpositioned
  next _ := (.ok noMoreDocs, ⟨true⟩)
  advance _ _ := (.ok noMoreDocs, ⟨true⟩)
  cost _ := 0

end EmptyCursor

end PostingQuery
