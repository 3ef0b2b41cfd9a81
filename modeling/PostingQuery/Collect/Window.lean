import PostingQuery.Collect.InOrder
import PostingQuery.Coordination
import PostingQuery.Journal
import PostingQuery.Settings.Basic

/-!
Searching window by window: every clause drops its documents of one window into a table of buckets,
one bucket for each document of the window. The buckets in use are linked into a list, which is then
walked and emitted. Hits of one window arrive in the order of that list.

The table is never cleared. A bucket that holds another document is out of date and starts anew.
-/

namespace PostingQuery

namespace ClauseMask

def prohibitedBit : UInt32 := 1

def ofClause (prohibited : Bool) : UInt32 := if prohibited then prohibitedBit else 0

def prohibits (bits : UInt32) : Bool := bits &&& prohibitedBit != 0

end ClauseMask

/-- What the clauses have told about one document, in a table whose last bucket is `last`. -/
structure Bucket (S : Type) [Score S] (last : Nat) where
  doc : DocId
  total : Score.Total S
  bits : UInt32
  count : Nat
  next : Option (Fin (last + 1))

def Bucket.prohibited {S : Type} [Score S] {last : Nat} (bucket : Bucket S last) : Bool :=
  ClauseMask.prohibits bucket.bits

structure BucketTable (S : Type) [Score S] (last : Nat) where
  buckets : Vector (Bucket S last) (last + 1)
  first : Option (Fin (last + 1))

namespace BucketTable

variable {S : Type} [Score S] {last : Nat}

def empty (last : Nat) : BucketTable S last :=
  ⟨.replicate (last + 1) ⟨unpositioned, Score.nothing, 0, 0, none⟩, none⟩

/-- The bucket of a document: documents of one window never share one. -/
def slot (last : Nat) (doc : DocId) : Fin (last + 1) :=
  Fin.ofNat (last + 1) (doc % (last + 1)).toNat

/-- Adds what the clause with a mask tells about a document. A bucket that starts anew becomes the head of
the list. -/
def add (table : BucketTable S last) (doc : DocId) (score : S) (mask : UInt32) :
    BucketTable S last :=
  let slot := slot last doc
  let bucket := table.buckets[slot]
  if bucket.doc = doc then
    let bucket := { bucket with
      total := Score.accumulate bucket.total score
      bits := bucket.bits ||| mask
      count := bucket.count + 1 }
    { table with buckets := table.buckets.set slot bucket }
  else
    let bucket := ⟨doc, Score.widen score, mask, 1, table.first⟩
    ⟨table.buckets.set slot bucket, some slot⟩

def setAside (table : BucketTable S last) (slot : Fin (last + 1)) : BucketTable S last :=
  ⟨table.buckets.set slot { table.buckets[slot] with next := table.first }, some slot⟩

end BucketTable

structure BucketSink (S : Type) [Score S] (last : Nat) where
  table : BucketTable S last
  prohibited : Bool
  collected : Nat

namespace BucketSink

variable {S : Type} [Score S] {last : Nat}

instance : Collector S (BucketSink S last) where
  collect sink doc score :=
    let table := sink.table.add doc score (ClauseMask.ofClause sink.prohibited)
    (.ok (), { sink with table, collected := sink.collected + 1 })
  acceptsAnyOrder _ := true

end BucketSink

structure WindowedClause (σ : Type) where
  scorer : σ
  prohibited : Bool
  /-- Whether documents may be left beyond the last window. -/
  more : Bool

structure Drained (β κ α : Type) where
  outcome : Except Failure α
  rest : β
  sink : κ
  events : List Event

structure WindowedSearch (S σ : Type) [Score S] where
  /-- The last bucket of the table. -/
  last : Nat
  table : BucketTable S last
  clauses : List (WindowedClause σ)
  minimum : Nat
  coordination : CoordinationTable S
  /-- The first document beyond the last window filled. -/
  windowEnd : DocId
  /-- The bucket to go on with before the next window is filled. -/
  pending : Option (Fin (last + 1))

namespace WindowedSearch

variable {S σ κ : Type} [Score S]

def ofClauses (optional prohibited : List σ) (minimum : Nat) (coordination : CoordinationTable S)
    (settings : Settings) : Except Failure (WindowedSearch S σ) := do
  settings.validate
  let count := optional.length
  if count = 0 then .error (.invalidConfiguration .noOptionalClause)
  else if count < minimum then
    .error (.invalidConfiguration (.minimumExceedsClauses minimum count))
  else if coordination.largest < count then
    .error (.invalidConfiguration (.coordinationTooSmall coordination.largest count))
  else
    let last := settings.bucketTableSize.toNat - 1
    let clauses := optional.map (⟨·, false, true⟩) ++ prohibited.map (⟨·, true, true⟩)
    return {
      last, table := .empty last, clauses, minimum, coordination, windowEnd := 0, pending := none }

/-- Walks the list from the pending bucket on. Buckets with a prohibited or too rare document are
passed over, those from `bound` on are set aside, and the others are emitted. A bucket is left before
it is emitted, so a refused hit is not offered again. -/
def emit [Collector S κ] (bound : DocId) :
    Nat → WindowedSearch S σ → κ → Step (WindowedSearch S σ × κ) Unit
  | 0, search, sink => (.error (.other .stalled), (search, sink))
  | visits + 1, search, sink =>
    match search.pending with
    | none => (.ok (), (search, sink))
    | some slot =>
      let bucket := search.table.buckets[slot]
      let search := { search with pending := bucket.next }
      if bucket.prohibited then emit bound visits search sink
      else if bound ≤ bucket.doc then
        emit bound visits { search with table := search.table.setAside slot } sink
      else if search.minimum ≤ bucket.count then
        let score := Score.scaled bucket.total (search.coordination.factor bucket.count)
        match Collector.collect sink bucket.doc score with
        | (.error failure, sink) => (.error failure, (search, sink))
        | (.ok (), sink) => emit bound visits search sink
      else emit bound visits search sink

variable [Scorer S σ]

/-- Lets the clauses with documents left drop those before `bound` into the table, in order. Answers
how many there were and whether some clause has more. -/
def fillFrom {last : Nat} (bound : DocId) :
    List (WindowedClause σ) → BucketTable S last → Nat → Bool →
      Step (List (WindowedClause σ) × BucketTable S last) (Nat × Bool)
  | [], table, hits, more => (.ok (hits, more), ([], table))
  | clause :: rest, table, hits, more =>
    if clause.more then
      let sink : BucketSink S last := ⟨table, clause.prohibited, 0⟩
      match InOrder.drain clause.scorer sink bound with
      | (.error failure, (scorer, sink)) =>
        (.error failure, ({ clause with scorer } :: rest, sink.table))
      | (.ok left, (scorer, sink)) =>
        (fillFrom bound rest sink.table (hits + sink.collected) (more || left)).within
          fun (rest, table) => ({ clause with scorer, more := left } :: rest, table)
    else
      (fillFrom bound rest table hits more).within fun (rest, table) => (clause :: rest, table)

def fill (search : WindowedSearch S σ) : Step (WindowedSearch S σ) (Nat × Bool) :=
  let windowEnd := min (search.windowEnd + (search.last + 1)) noMoreDocs
  (fillFrom windowEnd search.clauses search.table 0 false).within fun (clauses, table) =>
    { search with windowEnd, clauses, table }

/-- Emits what is pending, then fills and emits windows until a document from `bound` on has been set
aside or none is left. `events` holds the events so far, the last one first. -/
def drainWithin [Collector S κ] (bound : DocId) :
    Nat → WindowedSearch S σ → κ → List Event → Drained (WindowedSearch S σ) κ Bool
  | 0, search, sink, events => ⟨.error (.other .stalled), search, sink, events.reverse⟩
  | windows + 1, search, sink, events =>
    let fresh := { search with table := { search.table with first := none } }
    match emit bound moveLimit fresh sink with
    | (.error failure, (search, sink)) => ⟨.error failure, search, sink, events.reverse⟩
    | (.ok (), (search, sink)) =>
      match search.table.first with
      | some first =>
        let search := { search with
          table := { search.table with first := none }
          pending := some first }
        ⟨.ok true, search, sink, events.reverse⟩
      | none =>
        match search.fill with
        | (.error failure, search) => ⟨.error failure, search, sink, events.reverse⟩
        | (.ok (hits, more), search) =>
          let events := .windowFilled search.windowEnd hits more :: events
          let search := { search with pending := search.table.first }
          if search.pending.isNone && !more then ⟨.ok false, search, sink, events.reverse⟩
          else drainWithin bound windows search sink events

def drain [Collector S κ] (search : WindowedSearch S σ) (sink : κ) (bound : DocId) :
    Drained (WindowedSearch S σ) κ Bool :=
  drainWithin bound moveLimit search sink []

end WindowedSearch

end PostingQuery
