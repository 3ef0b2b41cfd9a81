import PostingQuery.Scorer.Basic

/-!
Bonuses: the documents of a required scorer, with a higher score where an optional scorer matches
too. The walk follows the required scorer alone. The optional one lags behind and is brought up when
a document is scored.
-/

namespace PostingQuery

structure Bonus (ρ ο : Type) where
  required : ρ
  optional : Option ο

namespace Bonus

variable {S ρ ο : Type} [Score S]

def ofParts (required : ρ) (optional : ο) : Bonus ρ ο := ⟨required, some optional⟩

instance [Cursor ρ] : Cursor (Bonus ρ ο) where
  doc bonus := Cursor.doc bonus.required
  next bonus := (Cursor.next bonus.required).within fun required => { bonus with required }
  advance bonus target :=
    (Cursor.advance bonus.required target).within fun required => { bonus with required }
  cost bonus := Cursor.cost bonus.required

variable [Scorer S ρ] [Scorer S ο]

/-- Brings the optional scorer up to the current document. Answers it if it matches there, and drops
it if that move has used up its documents. -/
def poll (bonus : Bonus ρ ο) : Step (Bonus ρ ο) (Option ο) :=
  match bonus.optional with
  | none => (.ok none, bonus)
  | some optional =>
    let doc := Cursor.doc bonus.required
    let lagging := decide (Cursor.doc optional < doc)
    match Cursor.reach optional doc with
    | (.error failure, optional) => (.error failure, { bonus with optional := some optional })
    | (.ok reached, optional) =>
      if lagging && reached == noMoreDocs then (.ok none, { bonus with optional := none })
      else (.ok (if reached = doc then some optional else none), { bonus with optional := some optional })

def scoreCounting (bonus : Bonus ρ ο) : Step (Bonus ρ ο) (S × Nat) :=
  match Scorer.scoreCounting bonus.required with
  | (.error failure, required) => (.error failure, { bonus with required })
  | (.ok (value, count), required) =>
    match poll { bonus with required } with
    | (.error failure, bonus) => (.error failure, bonus)
    | (.ok none, bonus) => (.ok (value, count), bonus)
    | (.ok (some optional), bonus) =>
      match Scorer.scoreCounting optional with
      | (.error failure, optional) => (.error failure, { bonus with optional })
      | (.ok (more, moreCount), optional) =>
        (.ok (value + more, count + moreCount), { bonus with optional })

def score (bonus : Bonus ρ ο) : Step (Bonus ρ ο) S := bonus.scoreCounting.map (·.1)

def matchCount (bonus : Bonus ρ ο) : Nat :=
  let optional := match bonus.optional with
    | some optional =>
      if Cursor.doc optional = Cursor.doc bonus.required then Scorer.matchCount optional else 0
    | none => 0
  Scorer.matchCount bonus.required + optional

instance : Scorer S (Bonus ρ ο) where
  score := score
  matchCount := matchCount
  scoreCounting := scoreCounting
  explain := Scorer.explainScore score

end Bonus

end PostingQuery
