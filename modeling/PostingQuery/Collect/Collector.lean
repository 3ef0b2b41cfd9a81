import PostingQuery.Cursor
import PostingQuery.StableSort

/-!
Collectors: where the hits of a search go. A collector also tells whether hits may arrive in any
document order, for then they can be found in a cheaper way.
-/

namespace PostingQuery

structure Hit (S : Type) where
  doc : DocId
  score : S
  deriving DecidableEq

/-- A place for hits. A collector that fails with `Failure.terminated` wants no more of them. -/
class Collector (S : outParam Type) (κ : Type) where
  collect : κ → DocId → S → Step κ Unit
  acceptsAnyOrder : κ → Bool

structure HitList (S : Type) where
  hits : Array (Hit S) := #[]
  anyOrder : Bool := false

namespace HitList

variable {S : Type}

instance : Collector S (HitList S) where
  collect list doc score := (.ok (), { list with hits := list.hits.push ⟨doc, score⟩ })
  acceptsAnyOrder := anyOrder

/-- The hits in document order. Hits of one document keep their order of arrival. -/
def byDoc (list : HitList S) : List (Hit S) :=
  StableSort.sort (fun a b => decide (a.doc ≤ b.doc)) list.hits.toList

end HitList

structure HitCount (S : Type) where
  count : Nat := 0

namespace HitCount

variable {S : Type}

instance : Collector S (HitCount S) where
  collect counter _ _ := (.ok (), ⟨counter.count + 1⟩)
  acceptsAnyOrder _ := true

end HitCount

structure Limited (κ : Type) where
  inner : κ
  limit : Nat
  collected : Nat := 0

namespace Limited

variable {S κ : Type}

instance [Collector S κ] : Collector S (Limited κ) where
  collect sink doc score :=
    if sink.limit ≤ sink.collected then (.error .terminated, sink)
    else
      (Collector.collect sink.inner doc score).within fun inner =>
        { sink with inner, collected := sink.collected + 1 }
  acceptsAnyOrder sink := Collector.acceptsAnyOrder sink.inner

end Limited

end PostingQuery
