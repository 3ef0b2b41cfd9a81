import PostingQuery.Posting.List
import PostingQuery.Relevance
import PostingQuery.Scorer.Basic

/-!
The scorer of one term: the documents of a posting source, scored by a relevance function.
-/

namespace PostingQuery

structure TermScorer (P S : Type) where
  postings : P
  relevance : Relevance S

namespace TermScorer

variable {P S : Type} [PostingSource P] [Score S]

instance : Cursor (TermScorer P S) where
  doc term := Cursor.doc term.postings
  next term := (Cursor.next term.postings).within fun postings => { term with postings }
  advance term target :=
    (Cursor.advance term.postings target).within fun postings => { term with postings }
  cost term := Cursor.cost term.postings

def freq (term : TermScorer P S) : Except Failure Int := PostingSource.freq term.postings

def score (term : TermScorer P S) : Step (TermScorer P S) S :=
  (term.freq.map fun freq => term.relevance.score (Cursor.doc term) (Score.ofInt freq), term)

def explain (term : TermScorer P S) (doc : DocId) : Step (TermScorer P S) (Explanation S) :=
  match Cursor.seek term doc with
  | (.error failure, term) => (.error failure, term)
  | (.ok current, term) =>
    if current = doc then
      let explained := term.freq.map fun freq =>
        .matching (term.relevance.score doc (Score.ofInt freq))
          s!"{term.relevance.name} score(doc={doc}), computed from:"
          [.matching (Score.ofInt freq) s!"termFreq={freq}" []]
      (explained, term)
    else (.ok (.noMatch s!"no matching term in doc {doc}" []), term)

instance : Scorer S (TermScorer P S) where
  score := score
  explain := explain

def inspect (term : TermScorer P S) : String :=
  let doc := Cursor.doc term
  let cost := Cursor.cost term
  let name := term.relevance.name
  s!"TermScorer \x7b doc: {doc}, cost: {cost}, doc_scorer: \"{name}\" \x7d"

end TermScorer

end PostingQuery
