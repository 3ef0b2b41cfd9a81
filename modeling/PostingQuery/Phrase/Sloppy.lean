import PostingQuery.Journal
import PostingQuery.Phrase.Term
import PostingQuery.Relevance
import PostingQuery.Scorer.Basic

/-!
Sloppy phrases: the documents in which the terms of a phrase come close enough to their places. Each
position is shifted by the term's place, so that an exact occurrence has all terms on one shifted
position. The term with the smallest shifted position always moves on, and each time it passes the
next smallest one the shortest span met so far is judged against the slop.

Terms with the same text but different places form a repeat group. Its members must not share a
position of the document: whenever two do, the lesser one moves on.
-/

namespace PostingQuery

structure SloppyTerm (P : Type) where
  postings : P
  offset : Int
  unread : Nat
  /-- The position in the document less the offset. -/
  shifted : Int

namespace SloppyTerm

variable {P : Type}

def position (term : SloppyTerm P) : Int := term.shifted + term.offset

variable [PostingSource P]

def read (term : SloppyTerm P) : Step (SloppyTerm P) Bool :=
  match term.unread with
  | 0 => (.ok false, term)
  | unread + 1 =>
    match PostingSource.nextPosition term.postings with
    | (.error failure, postings) => (.error failure, { term with postings, unread })
    | (.ok position, postings) =>
      if position < 0 then
        (.error (.posting (.negativePosition position (Cursor.doc postings))),
          { term with postings, unread })
      else (.ok true, { term with postings, unread, shifted := position - term.offset })

/-- Reads the first position of the current document. A term without one stays where it was. -/
def begin (term : SloppyTerm P) : Step (SloppyTerm P) Unit :=
  match PostingSource.freq term.postings with
  | .error failure => (.error failure, term)
  | .ok freq => { term with unread := freq.toNat }.read.map fun _ => ()

end SloppyTerm

structure QueuedTerm (n : Nat) where
  shifted : Int
  offset : Int
  index : Fin n

namespace QueuedTerm

variable {n : Nat}

def before (a b : QueuedTerm n) : Bool :=
  decide (a.shifted < b.shifted) ||
    (a.shifted == b.shifted &&
      (decide (a.offset < b.offset) || (a.offset == b.offset && decide (a.index ≤ b.index))))

end QueuedTerm

/-- The walk over the positions of one document: the terms, the largest shifted position, the terms
that wait for their turn, and the matches so far with the frequency that they add up to. -/
structure SloppyWalk (P S : Type) (n : Nat) where
  terms : Vector (SloppyTerm P) n
  largest : Int
  queue : List (QueuedTerm n)
  freq : S
  occurrences : Nat

namespace SloppyWalk

variable {P S : Type} {n : Nat}

def enqueue (terms : Vector (SloppyTerm P) n) (queue : List (QueuedTerm n)) (i : Fin n) :
    List (QueuedTerm n) :=
  StableSort.insert QueuedTerm.before ⟨terms[i].shifted, terms[i].offset, i⟩ queue

def collision (groups : List (List (Fin n))) (terms : Vector (SloppyTerm P) n) (i : Fin n) :
    Option (Fin n) :=
  match groups.find? (·.contains i) with
  | none => none
  | some group => group.find? fun other => other ≠ i && terms[other].position == terms[i].position

def lesser (terms : Vector (SloppyTerm P) n) (a b : Fin n) : Fin n :=
  if terms[a].shifted < terms[b].shifted then a
  else if terms[a].shifted = terms[b].shifted ∧ terms[a].offset < terms[b].offset then a
  else b

def nextShifted (queue : List (QueuedTerm n)) : Int :=
  match queue with
  | [] => 2147483647
  | first :: _ => first.shifted

section Read

variable [PostingSource P]

def readTerm (terms : Vector (SloppyTerm P) n) (i : Fin n) : Step (Vector (SloppyTerm P) n) Bool :=
  terms[i].read.within fun term => terms.set i term

def beginTerms : List (Fin n) → Vector (SloppyTerm P) n → Step (Vector (SloppyTerm P) n) Unit
  | [], terms => (.ok (), terms)
  | i :: rest, terms =>
    match terms[i].begin.within fun term => terms.set i term with
    | (.error failure, terms) => (.error failure, terms)
    | (.ok (), terms) => beginTerms rest terms

def skip (i : Fin n) : Nat → Vector (SloppyTerm P) n → Step (Vector (SloppyTerm P) n) Bool
  | 0, terms => (.ok true, terms)
  | count + 1, terms =>
    match readTerm terms i with
    | (.ok true, terms) => skip i count terms
    | stopped => stopped

/-- Spreads a repeat group over distinct positions: the member at each place of the group skips as
many positions as there are members before it. Answers whether there were enough. -/
def spread : List (Fin n × Nat) → Vector (SloppyTerm P) n → Step (Vector (SloppyTerm P) n) Bool
  | [], terms => (.ok true, terms)
  | (i, count) :: rest, terms =>
    match skip i count terms with
    | (.ok true, terms) => spread rest terms
    | stopped => stopped

def start [Score S] (groups : List (List (Fin n))) (terms : Vector (SloppyTerm P) n) :
    Step (Vector (SloppyTerm P) n) (Option (SloppyWalk P S n)) :=
  match beginTerms (List.finRange n) terms with
  | (.error failure, terms) => (.error failure, terms)
  | (.ok (), terms) =>
    match spread (groups.flatMap List.zipIdx) terms with
    | (.error failure, terms) => (.error failure, terms)
    | (.ok false, terms) => (.ok none, terms)
    | (.ok true, terms) =>
      let shifted := terms.toList.map (·.shifted)
      let largest := shifted.foldl max (shifted.headD 0)
      let queue := (List.finRange n).foldl (enqueue terms) []
      (.ok (some ⟨terms, largest, queue, Score.zero, 0⟩), terms)

def move (walk : SloppyWalk P S n) (i : Fin n) : Step (SloppyWalk P S n) Bool :=
  match readTerm walk.terms i with
  | (.ok true, terms) => (.ok true, { walk with terms, largest := max walk.largest terms[i].shifted })
  | (outcome, terms) => (outcome, { walk with terms })

def requeue (walk : SloppyWalk P S n) : SloppyWalk P S n :=
  { walk with queue := (walk.queue.map (·.index)).foldl (enqueue walk.terms) [] }

/-- As long as a term collides, the lesser of the two moves on and is looked at next. `first` is the
term that was moved before; the queue is put in order again once another one has moved. Answers
whether there were enough positions. -/
def separate (groups : List (List (Fin n))) (first : Fin n) :
    Nat → SloppyWalk P S n → Fin n → Bool → Step (SloppyWalk P S n) Bool
  | 0, walk, _, _ => (.error (.other .stalled), walk)
  | reads + 1, walk, current, disturbed =>
    match collision groups walk.terms current with
    | none => (.ok true, if disturbed then walk.requeue else walk)
    | some other =>
      let current := lesser walk.terms current other
      match walk.move current with
      | (.ok true, walk) => separate groups first reads walk current (disturbed || current != first)
      | stopped => stopped

def readBound (walk : SloppyWalk P S n) : Nat :=
  walk.terms.toList.foldr (fun term readings => term.unread + readings) 1

def judge [Add S] (walk : SloppyWalk P S n) (relevance : Relevance S) (slop span : Int) :
    SloppyWalk P S n :=
  if span ≤ slop then
    { walk with freq := walk.freq + relevance.slopFactor span, occurrences := walk.occurrences + 1 }
  else walk

variable [Score S]

/-- Moves the current term, which has the smallest shifted position, on and on. `span` is the shortest
span since the last one was judged, and `next` the position that the term has to pass. -/
def run (groups : List (List (Fin n))) (relevance : Relevance S) (slop : Int) :
    Nat → SloppyWalk P S n → Fin n → Int → Int → Step (SloppyWalk P S n) Unit
  | 0, walk, _, _, _ => (.error (.other .stalled), walk)
  | reads + 1, walk, current, span, next =>
    match walk.move current with
    | (.error failure, walk) => (.error failure, walk)
    | (.ok false, walk) => (.ok (), walk.judge relevance slop span)
    | (.ok true, walk) =>
      match separate groups current walk.readBound walk current false with
      | (.error failure, walk) => (.error failure, walk)
      | (.ok false, walk) => (.ok (), walk.judge relevance slop span)
      | (.ok true, walk) =>
        let shifted := walk.terms[current].shifted
        if next < shifted then
          let walk := walk.judge relevance slop span
          match enqueue walk.terms walk.queue current with
          | [] => (.ok (), walk.judge relevance slop span)
          | first :: queue =>
            let span := walk.largest - walk.terms[first.index].shifted
            run groups relevance slop reads { walk with queue } first.index span (nextShifted queue)
        else run groups relevance slop reads walk current (min span (walk.largest - shifted)) next

def complete (walk : SloppyWalk P S n) (groups : List (List (Fin n))) (relevance : Relevance S)
    (slop : Int) : Step (SloppyWalk P S n) Unit :=
  match walk.queue with
  | [] => (.ok (), walk)
  | first :: queue =>
    let span := walk.largest - walk.terms[first.index].shifted
    run groups relevance slop walk.readBound { walk with queue } first.index span (nextShifted queue)

end Read

end SloppyWalk

structure SloppyPhrase (P S : Type) where
  last : Nat
  terms : Vector (SloppyTerm P) (last + 1)
  /-- The members of each repeat group in the order of their places. -/
  groups : List (List (Fin (last + 1)))
  relevance : Relevance S
  slop : Int
  doc : DocId
  freq : S
  occurrences : Nat

namespace SloppyPhrase

variable {P S : Type}

/-- The terms with a text form a group if they do not all have the same place: the first of them and
all that have another place than it. -/
def groupOf {n : Nat} (terms : Vector (PhraseTerm P) n) (text : String) : Option (List (Fin n)) :=
  match (List.finRange n).filter fun i => terms[i].text == some text with
  | [] => none
  | first :: rest =>
    match rest.filter fun i => terms[i].position != terms[first].position with
    | [] => none
    | others =>
      let earlier (a b : Fin n) := decide (terms[a].position ≤ terms[b].position)
      some (StableSort.sort earlier (first :: others))

def repeatGroups {n : Nat} (terms : Vector (PhraseTerm P) n) : List (List (Fin n)) :=
  let texts := (terms.toList.filterMap (·.text)).eraseDups
  (StableSort.sort (fun a b => decide (a ≤ b)) texts).filterMap (groupOf terms)

section Build

variable [PostingSource P] [Score S]

def ofTerms (terms : List (PhraseTerm P)) (slop : Int) (relevance : Relevance S) :
    Logged (SloppyPhrase P S) :=
  match PhraseTerm.refusal terms with
  | some why => .silent (.error (.invalidConfiguration why))
  | none =>
    if slop < 0 then .silent (.error (.invalidConfiguration (.negativeSlop slop)))
    else
      match PhraseTerm.arrange terms with
      | [] => .silent (.error (.invalidConfiguration (.phraseTooShort 0)))
      | lead :: followers => do
        let terms : Vector (PhraseTerm P) (followers.length + 1) :=
          ⟨(lead :: followers).toArray, by simp⟩
        let groups := repeatGroups terms
        if !groups.isEmpty then
          Logged.report (.repeatGroups groups.length (followers.length + 1))
        return {
          last := followers.length, terms := terms.map fun term => ⟨term.postings, term.position, 0, 0⟩
          groups, relevance, slop, doc := unpositioned, freq := Score.zero, occurrences := 0 }

end Build

variable [PostingSource P]

def align {n : Nat} (candidate : DocId) :
    List (Fin n) → Vector (SloppyTerm P) n → Step (Vector (SloppyTerm P) n) (Option DocId)
  | [], terms => (.ok none, terms)
  | i :: rest, terms =>
    let term := terms[i]
    let moved := Cursor.reach term.postings candidate
    match moved.within fun postings => terms.set i { term with postings } with
    | (.error failure, terms) => (.error failure, terms)
    | (.ok reached, terms) =>
      if candidate < reached then (.ok (some reached), terms) else align candidate rest terms

def moveLead (phrase : SloppyPhrase P S) (move : P → Step P DocId) :
    Step (SloppyPhrase P S) DocId :=
  let lead := phrase.terms[0]
  (move lead.postings).within fun postings =>
    { phrase with terms := phrase.terms.set 0 { lead with postings } }

variable [Score S]

def measure (phrase : SloppyPhrase P S) : Step (SloppyPhrase P S) S :=
  let phrase := { phrase with occurrences := 0 }
  match SloppyWalk.start (S := S) phrase.groups phrase.terms with
  | (.error failure, terms) => (.error failure, { phrase with terms })
  | (.ok none, terms) => (.ok Score.zero, { phrase with terms })
  | (.ok (some walk), _) =>
    let (outcome, walk) := walk.complete phrase.groups phrase.relevance phrase.slop
    (outcome.map fun _ => walk.freq, { phrase with terms := walk.terms, occurrences := walk.occurrences })

def settle : Nat → SloppyPhrase P S → DocId → Step (SloppyPhrase P S) DocId
  | 0, phrase, _ => (.error (.other .stalled), phrase)
  | moves + 1, phrase, candidate =>
    if candidate = noMoreDocs then
      (.ok noMoreDocs, { phrase with doc := noMoreDocs, freq := Score.zero, occurrences := 0 })
    else
      match align candidate ((List.finRange phrase.last).map Fin.succ) phrase.terms with
      | (.error failure, terms) => (.error failure, { phrase with terms })
      | (.ok (some beyond), terms) =>
        match { phrase with terms }.moveLead (Cursor.advance · beyond) with
        | (.error failure, phrase) => (.error failure, phrase)
        | (.ok reached, phrase) => settle moves phrase reached
      | (.ok none, terms) =>
        match { phrase with terms, doc := candidate }.measure with
        | (.error failure, phrase) => (.error failure, phrase)
        | (.ok freq, phrase) =>
          let phrase := { phrase with freq }
          if Score.isPositive freq then (.ok candidate, phrase)
          else
            match phrase.moveLead Cursor.next with
            | (.error failure, phrase) => (.error failure, phrase)
            | (.ok reached, phrase) => settle moves phrase reached

def moveAndSettle (phrase : SloppyPhrase P S) (move : P → Step P DocId) :
    Step (SloppyPhrase P S) DocId :=
  match phrase.moveLead move with
  | (.error failure, phrase) => (.error failure, phrase)
  | (.ok reached, phrase) => settle moveLimit phrase reached

instance : Cursor (SloppyPhrase P S) where
  doc := doc
  next phrase := phrase.moveAndSettle Cursor.next
  advance phrase target := phrase.moveAndSettle (Cursor.advance · target)
  cost phrase := Cursor.cost phrase.terms[0].postings

def score (phrase : SloppyPhrase P S) : S := phrase.relevance.score phrase.doc phrase.freq

def explain (phrase : SloppyPhrase P S) (doc : DocId) : Step (SloppyPhrase P S) (Explanation S) :=
  match Cursor.seek phrase doc with
  | (.error failure, phrase) => (.error failure, phrase)
  | (.ok current, phrase) =>
    if current = doc then
      let freq := Score.text phrase.freq
      let name := phrase.relevance.name
      (.ok (.matching phrase.score s!"{name} score(doc={doc}), computed from:"
        [.matching phrase.freq s!"phraseFreq={freq}" []]), phrase)
    else
      let slop := phrase.slop
      (.ok (.noMatch s!"no phrase within slop {slop} in doc {doc}" []), phrase)

instance : Scorer S (SloppyPhrase P S) where
  score phrase := (.ok phrase.score, phrase)
  explain := explain

def inspect (phrase : SloppyPhrase P S) : String :=
  let terms := phrase.last + 1
  let slop := phrase.slop
  let groups := phrase.groups.length
  let doc := phrase.doc
  let freq := Score.inspected phrase.freq
  let name := phrase.relevance.name
  s!"SloppyPhraseScorer \x7b terms: {terms}, slop: {slop}, repeat_groups: {groups}, doc: {doc}, " ++
    s!"sloppy_freq: {freq}, doc_scorer: \"{name}\" \x7d"

end SloppyPhrase

end PostingQuery
