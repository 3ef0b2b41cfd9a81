import PostingQuery.Scorer.Basic
import PostingQuery.StableSort

/-!
Conjunctions: the documents that all parts have in common. The cheapest part leads. Every other part
only ever advances to the candidate of the lead, and where one overshoots, the lead catches up.
-/

namespace PostingQuery

structure Placed (σ : Type) where
  doc : DocId
  scorer : σ

namespace Placed

variable {S σ α : Type}

def ofScorer [Cursor σ] (scorer : σ) : Placed σ := ⟨Cursor.doc scorer, scorer⟩

/-- Moves the part. A failed move leaves the document that was noted before. -/
def move (place : Placed σ) (move : σ → Step σ DocId) : Step (Placed σ) DocId :=
  match move place.scorer with
  | (.error failure, scorer) => (.error failure, ⟨place.doc, scorer⟩)
  | (.ok doc, scorer) => (.ok doc, ⟨doc, scorer⟩)

/-- Brings parts that lag behind up to a candidate, in order. Answers the first document that one of
them overshoots to. -/
def align [Cursor σ] (candidate : DocId) : List (Placed σ) → Step (List (Placed σ)) (Option DocId)
  | [] => (.ok none, [])
  | place :: rest =>
    if place.doc < candidate then
      match place.move (Cursor.advance · candidate) with
      | (.error failure, place) => (.error failure, place :: rest)
      | (.ok reached, place) =>
        if candidate < reached then (.ok (some reached), place :: rest)
        else (align candidate rest).within (place :: ·)
    else (align candidate rest).within (place :: ·)

end Placed

structure Conjunction (S σ : Type) where
  lead : Placed σ
  followers : List (Placed σ)
  doc : DocId
  factor : S
  /-- Whether every part counts as a matching clause. -/
  counting : Bool

namespace Conjunction

variable {S σ : Type} [Score S]

/-- A conjunction of at least one part. Of parts with equal costs the earlier one stands first. -/
def ofList [Cursor σ] (scorers : List σ) (factor : S) : Except Failure (Conjunction S σ) :=
  let cheaper (a b : Placed σ) := decide (Cursor.cost a.scorer ≤ Cursor.cost b.scorer)
  match StableSort.sort cheaper (scorers.map Placed.ofScorer) with
  | [] => .error (.invalidConfiguration .emptyConjunction)
  | lead :: followers => .ok ⟨lead, followers, unpositioned, factor, false⟩

def counted (conjunction : Conjunction S σ) : Conjunction S σ := { conjunction with counting := true }

def parts (conjunction : Conjunction S σ) : List (Placed σ) :=
  conjunction.lead :: conjunction.followers

def size (conjunction : Conjunction S σ) : Nat := conjunction.parts.length

section Walk

variable [Cursor σ]

def settle : Nat → Conjunction S σ → DocId → Step (Conjunction S σ) DocId
  | 0, conjunction, _ => (.error (.other .stalled), conjunction)
  | moves + 1, conjunction, candidate =>
    if candidate = noMoreDocs then (.ok noMoreDocs, { conjunction with doc := noMoreDocs })
    else
      match Placed.align candidate conjunction.followers with
      | (.error failure, followers) => (.error failure, { conjunction with followers })
      | (.ok none, followers) => (.ok candidate, { conjunction with followers, doc := candidate })
      | (.ok (some beyond), followers) =>
        match conjunction.lead.move (Cursor.advance · beyond) with
        | (.error failure, lead) => (.error failure, { conjunction with lead, followers })
        | (.ok reached, lead) => settle moves { conjunction with lead, followers } reached

def moveLead (conjunction : Conjunction S σ) (move : σ → Step σ DocId) :
    Step (Conjunction S σ) DocId :=
  match conjunction.lead.move move with
  | (.error failure, lead) => (.error failure, { conjunction with lead })
  | (.ok reached, lead) => settle moveLimit { conjunction with lead } reached

def next (conjunction : Conjunction S σ) : Step (Conjunction S σ) DocId :=
  conjunction.moveLead Cursor.next

def advance (conjunction : Conjunction S σ) (target : DocId) : Step (Conjunction S σ) DocId :=
  if conjunction.lead.doc < target then conjunction.moveLead (Cursor.advance · target)
  else settle moveLimit conjunction conjunction.lead.doc

instance : Cursor (Conjunction S σ) where
  doc := doc
  next := next
  advance := advance
  cost conjunction := Cursor.cost conjunction.lead.scorer

end Walk

variable [Scorer S σ]

def scoreCounting (conjunction : Conjunction S σ) : Step (Conjunction S σ) (S × Nat) :=
  let scorePart (place : Placed σ) :=
    (Scorer.scoreCounting place.scorer).within (Placed.mk place.doc)
  match scorePart conjunction.lead with
  | (.error failure, lead) => (.error failure, { conjunction with lead })
  | (.ok (first, count), lead) =>
    match Step.each scorePart conjunction.followers with
    | (.error failure, followers) => (.error failure, { conjunction with lead, followers })
    | (.ok scores, followers) =>
      let value := Score.round (Score.total (first :: scores.map (·.1))) * conjunction.factor
      let counts := count + scores.foldr (fun score counts => score.2 + counts) 0
      let own := if conjunction.counting then conjunction.size else 0
      (.ok (value, counts + own), { conjunction with lead, followers })

def score (conjunction : Conjunction S σ) : Step (Conjunction S σ) S :=
  conjunction.scoreCounting.map (·.1)

instance : Scorer S (Conjunction S σ) where
  score := score
  matchCount := size
  scoreCounting := scoreCounting
  explain := Scorer.explainScore score

end Conjunction

end PostingQuery
