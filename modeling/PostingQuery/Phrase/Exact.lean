import PostingQuery.Phrase.Chains
import PostingQuery.Phrase.Term
import PostingQuery.Relevance
import PostingQuery.Scorer.Basic
import PostingQuery.Settings.Basic

/-!
Exact phrases: the documents in which every term stands at its place within the phrase. Each position
is shifted by the term's place, so that the terms of one occurrence meet in one start position. The
starts are counted chunk by chunk: the lead starts chains, later terms extend those that have come as far
as they are, and the last term counts the ones it completes.
-/

namespace PostingQuery

structure ExactTerm (P : Type) where
  postings : P
  /-- Added to a position to get the start of the phrase. -/
  offset : Int
  /-- Whether the term is moved by jumps only. -/
  jumps : Bool
  start : Int
  unread : Nat
  /-- The largest start looked at. Later ones count only if they are larger. -/
  seen : Int

namespace ExactTerm

variable {P : Type} [PostingSource P]

def read (term : ExactTerm P) : Step (ExactTerm P) Unit :=
  match PostingSource.nextPosition term.postings with
  | (.error failure, postings) => (.error failure, { term with postings })
  | (.ok position, postings) =>
    if position < 0 then
      (.error (.posting (.negativePosition position (Cursor.doc postings))), { term with postings })
    else (.ok (), { term with postings, start := term.offset + position })

def begin (term : ExactTerm P) : Step (ExactTerm P) Unit :=
  match PostingSource.freq term.postings with
  | .error failure => (.error failure, term)
  | .ok freq => { term with unread := (freq - 1).toNat, seen := -1 }.read

variable {α : Type} {size : Nat}

def slot? (size : Nat) (low start : Int) : Option (Fin size) :=
  if inside : low ≤ start ∧ start < low + size then some ⟨(start - low).toNat, by omega⟩ else none

/-- Takes up the slot of the current start, unless the start is before the chunk or has been looked at. -/
def look (low : Int) (take : Fin size → α → α) (term : ExactTerm P) (taken : α) : ExactTerm P × α :=
  if term.seen < term.start then
    match slot? size low term.start with
    | some slot => ({ term with seen := term.start }, take slot taken)
    | none => ({ term with seen := term.start }, taken)
  else (term, taken)

/-- Reads on to the first start behind the chunk and takes up the slots on the way. Answers whether there
was none to read on. -/
def visitWithin (low : Int) (take : Fin size → α → α) :
    Nat → ExactTerm P → α → Step (ExactTerm P × α) Bool
  | unread, term, taken =>
    if term.start < low + size then
      let (term, taken) := term.look low take taken
      match unread with
      | 0 => (.ok true, term, taken)
      | unread + 1 =>
        match { term with unread }.read with
        | (.error failure, term) => (.error failure, term, taken)
        | (.ok (), term) => visitWithin low take unread term taken
    else (.ok false, term, taken)

def visit (low : Int) (take : Fin size → α → α) (term : ExactTerm P) (taken : α) :
    Step (ExactTerm P × α) Bool :=
  visitWithin low take term.unread term taken

def follow (candidate : DocId) : Nat → P → Step P DocId
  | steps, postings =>
    if Cursor.doc postings < candidate then
      match steps with
      | 0 => Cursor.advance postings candidate
      | steps + 1 =>
        match Cursor.next postings with
        | (.error failure, postings) => (.error failure, postings)
        | (.ok _, postings) => follow candidate steps postings
    else (.ok (Cursor.doc postings), postings)

end ExactTerm

structure ExactPhrase (P S : Type) where
  lead : ExactTerm P
  followers : List (ExactTerm P)
  relevance : Relevance S
  chunkSize : Nat
  chains : Chains chunkSize
  /-- How many single steps a follower makes before it jumps. -/
  steps : Nat
  doc : DocId
  freq : Nat
  lacksTerm : Bool

namespace ExactPhrase

variable {P S : Type}

def exhaust (phrase : ExactPhrase P S) : Step (ExactPhrase P S) DocId :=
  (.ok noMoreDocs, { phrase with doc := noMoreDocs, freq := 0 })

def size (phrase : ExactPhrase P S) : Nat := phrase.followers.length + 1

variable [PostingSource P]

def place : List (ExactTerm P) → Except Failure (List (ExactTerm P) × Bool)
  | [] => .ok ([], false)
  | term :: rest =>
    match Cursor.next term.postings with
    | (.error failure, _) => .error failure
    | (.ok doc, postings) =>
      if doc = noMoreDocs then .ok ({ term with postings } :: rest, true)
      else (place rest).map fun (rest, lacking) => ({ term with postings } :: rest, lacking)

/-- The product of two costs, or the largest cost if it is larger than all costs. -/
def boundedProduct (a b : UInt64) : UInt64 :=
  if a.toNat * b.toNat < UInt64.size then a * b else 18446744073709551615

def ofTerms (terms : List (PhraseTerm P)) (relevance : Relevance S) (settings : Settings) :
    Except Failure (ExactPhrase P S) := do
  settings.validate
  match PhraseTerm.refusal terms with
  | some why => .error (.invalidConfiguration why)
  | none =>
    match PhraseTerm.arrange terms with
    | [] => .error (.invalidConfiguration (.phraseTooShort 0))
    | lead :: followers =>
      let first := followers.foldl (fun least term => min least term.position) lead.position
      let bound := boundedProduct (Cursor.cost lead.postings) settings.phraseAdvanceRatio
      let prepare (term : PhraseTerm P) : ExactTerm P :=
        ⟨term.postings, first - term.position, bound < Cursor.cost term.postings, 0, 0, -1⟩
      let (followers, lacksTerm) ← place (followers.map prepare)
      .ok {
        lead := prepare lead, followers, relevance, chunkSize := settings.phraseChunkSize.toNat, chains := .empty
        steps := settings.phraseMaxNextCalls.toNat - 1, doc := unpositioned, freq := 0, lacksTerm }

/-- Brings the followers up to a candidate, in order. Answers the first document that one of them
overshoots to. -/
def align (candidate : DocId) (steps : Nat) :
    List (ExactTerm P) → Step (List (ExactTerm P)) (Option DocId)
  | [] => (.ok none, [])
  | term :: rest =>
    match ExactTerm.follow candidate (if term.jumps then 0 else steps) term.postings with
    | (.error failure, postings) => (.error failure, { term with postings } :: rest)
    | (.ok reached, postings) =>
      let term := { term with postings }
      if candidate < reached then (.ok (some reached), term :: rest)
      else (align candidate steps rest).within (term :: ·)

/-- Takes the chains of a chunk through the followers, the first of which extends those of a given length.
The last one completes chains instead of extending them. A follower is not read where no chain is left before it.
Answers the number of completed chains and whether some term was read to its end. -/
def chain {size : Nat} (low : Int) :
    Nat → List (ExactTerm P) → Chains size → Bool → Step (List (ExactTerm P) × Chains size) (Nat × Bool)
  | _, [], chains, ended => (.ok (0, ended), [], chains)
  | length, [term], chains, ended =>
    let complete (slot : Fin size) (count : Nat) : Nat :=
      if chains.length? slot = some length then count + 1 else count
    match term.visit low complete 0 with
    | (.error failure, term, _) => (.error failure, [term], chains)
    | (.ok atEnd, term, count) => (.ok (count, ended || atEnd), [term], chains)
  | length, term :: rest, chains, ended =>
    match term.visit low (Chains.extend length) (chains, false) with
    | (.error failure, term, chains, _) => (.error failure, term :: rest, chains)
    | (.ok atEnd, term, chains, false) => (.ok (0, ended || atEnd), term :: rest, chains)
    | (.ok atEnd, term, chains, true) =>
      (chain low (length + 1) rest chains (ended || atEnd)).within fun (rest, chains) => (term :: rest, chains)

def countFrom : Nat → ExactPhrase P S → Int → Nat → Step (ExactPhrase P S) Nat
  | 0, phrase, _, _ => (.error (.other .stalled), phrase)
  | chunks + 1, phrase, low, count =>
    match phrase.lead.visit low Chains.start phrase.chains.renew with
    | (.error failure, lead, chains) => (.error failure, { phrase with lead, chains })
    | (.ok atEnd, lead, chains) =>
      match chain low 1 phrase.followers chains atEnd with
      | (.error failure, followers, chains) => (.error failure, { phrase with lead, followers, chains })
      | (.ok (completed, ended), followers, chains) =>
        let phrase := { phrase with lead, followers, chains }
        let count := count + completed
        if ended then (.ok count, phrase)
        else countFrom chunks phrase (low + phrase.chunkSize) count

def count (phrase : ExactPhrase P S) : Step (ExactPhrase P S) Nat :=
  match phrase.lead.begin with
  | (.error failure, lead) => (.error failure, { phrase with lead })
  | (.ok (), lead) =>
    match Step.each ExactTerm.begin phrase.followers with
    | (.error failure, followers) => (.error failure, { phrase with lead, followers })
    | (.ok _, followers) => countFrom moveLimit { phrase with lead, followers } 0 0

def moveLead (phrase : ExactPhrase P S) (move : P → Step P DocId) : Step (ExactPhrase P S) DocId :=
  (move phrase.lead.postings).within fun postings =>
    { phrase with lead := { phrase.lead with postings } }

def settle : Nat → ExactPhrase P S → DocId → Step (ExactPhrase P S) DocId
  | 0, phrase, _ => (.error (.other .stalled), phrase)
  | moves + 1, phrase, candidate =>
    if candidate = noMoreDocs then phrase.exhaust
    else
      match align candidate phrase.steps phrase.followers with
      | (.error failure, followers) => (.error failure, { phrase with followers })
      | (.ok (some beyond), followers) =>
        let phrase := { phrase with followers }
        if beyond = noMoreDocs then phrase.exhaust
        else
          match phrase.moveLead (Cursor.advance · beyond) with
          | (.error failure, phrase) => (.error failure, phrase)
          | (.ok reached, phrase) => settle moves phrase reached
      | (.ok none, followers) =>
        match { phrase with followers, doc := candidate }.count with
        | (.error failure, phrase) => (.error failure, phrase)
        | (.ok freq, phrase) =>
          let phrase := { phrase with freq }
          if 0 < freq then (.ok candidate, phrase)
          else
            match phrase.moveLead Cursor.next with
            | (.error failure, phrase) => (.error failure, phrase)
            | (.ok reached, phrase) => settle moves phrase reached

/-- Moves the lead, then settles on a document. A phrase that lacks a term has none. -/
def moveAndSettle (phrase : ExactPhrase P S) (move : P → Step P DocId) :
    Step (ExactPhrase P S) DocId :=
  if phrase.lacksTerm then phrase.exhaust
  else
    match phrase.moveLead move with
    | (.error failure, phrase) => (.error failure, phrase)
    | (.ok reached, phrase) => settle moveLimit phrase reached

instance : Cursor (ExactPhrase P S) where
  doc := doc
  next phrase := phrase.moveAndSettle Cursor.next
  advance phrase target := phrase.moveAndSettle (Cursor.advance · target)
  cost phrase := Cursor.cost phrase.lead.postings

variable [Score S]

def score (phrase : ExactPhrase P S) : S :=
  phrase.relevance.score phrase.doc (Score.ofNat phrase.freq)

def explain (phrase : ExactPhrase P S) (doc : DocId) : Step (ExactPhrase P S) (Explanation S) :=
  match Cursor.seek phrase doc with
  | (.error failure, phrase) => (.error failure, phrase)
  | (.ok current, phrase) =>
    if current = doc then
      let freq := phrase.freq
      let name := phrase.relevance.name
      (.ok (.matching phrase.score s!"{name} score(doc={doc}), computed from:"
        [.matching (Score.ofNat freq) s!"phraseFreq={freq}" []]), phrase)
    else (.ok (.noMatch s!"no matching phrase in doc {doc}" []), phrase)

instance : Scorer S (ExactPhrase P S) where
  score phrase := (.ok phrase.score, phrase)
  explain := explain

def inspect (phrase : ExactPhrase P S) : String :=
  let terms := phrase.size
  let doc := phrase.doc
  let freq := phrase.freq
  let chunk := phrase.chunkSize
  let name := phrase.relevance.name
  s!"ExactPhraseScorer \x7b terms: {terms}, doc: {doc}, freq: {freq}, chunk: {chunk}, doc_scorer: \"{name}\" \x7d"

end ExactPhrase

end PostingQuery
