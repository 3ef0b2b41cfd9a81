import Mathlib
import PostingQuery.Collect.InOrder
import PostingQuery.Proofs.Walk

/-!
Draining in document order. A scorer that is drained up to a bound delivers exactly its documents before
the bound, each once and with its score, and stands ready for the next bound.
-/

namespace PostingQuery

variable {S σ κ : Type} [Collector S κ]

namespace Collector

def Willing (S κ : Type) [Collector S κ] : Prop :=
  ∀ (sink : κ) (doc : DocId) (score : S), (collect sink doc score).1 = .ok ()

def deliver (sink : κ) (hits : List (Hit S)) : κ :=
  hits.foldl (fun sink hit => (collect sink hit.doc hit.score).2) sink

@[simp]
theorem deliver_cons (sink : κ) (hit : Hit S) (hits : List (Hit S)) :
    deliver sink (hit :: hits) = deliver (collect sink hit.doc hit.score).2 hits := rfl

theorem deliver_append (sink : κ) (hits more : List (Hit S)) :
    deliver sink (hits ++ more) = deliver (deliver sink hits) more :=
  List.foldl_append

theorem Willing.collect_eq (willing : Willing S κ) (sink : κ) (doc : DocId) (score : S) :
    ∃ after, collect sink doc score = (.ok (), after) :=
  ⟨_, Prod.ext (willing sink doc score) rfl⟩

end Collector

/-- A scorer that is ready to go on from `low`: it has landed there, or it is still before its first
move. -/
structure Waiting [Scorer S σ] (meaning : Meaning S) (low : DocId) (scorer : σ) : Prop where
  refines : Refines scorer meaning
  place : Lands meaning.docs low (Cursor.doc scorer) ∨ Cursor.doc scorer = unpositioned ∧ low = 0

structure Delivers (meaning : Meaning S) (low bound : DocId) (hits : List (Hit S)) : Prop where
  inOrder : (hits.map (·.doc)).Pairwise (· < ·)
  mem_docs : ∀ doc, doc ∈ hits.map (·.doc) ↔ doc ∈ meaning.docs ∧ low ≤ doc ∧ doc < bound
  scored : ∀ hit ∈ hits, meaning.scores hit.doc hit.score

theorem delivers_nil {meaning : Meaning S} {low bound : DocId} (none : ∀ doc ∈ meaning.docs, doc < low) :
    Delivers meaning low bound [] where
  inOrder := .nil
  mem_docs doc := by
    simp only [List.map_nil, List.not_mem_nil, false_iff]
    rintro ⟨member, from_low, -⟩
    exact absurd (none doc member) (not_lt.mpr from_low)
  scored hit listed := absurd listed List.not_mem_nil

theorem Delivers.cons {meaning : Meaning S} {low bound doc : DocId} {value : S} {hits : List (Hit S)}
    (rest : Delivers meaning (doc + 1) bound hits) (lands : Lands meaning.docs low doc)
    (member : doc ∈ meaning.docs) (before : doc < bound) (scored : meaning.scores doc value) :
    Delivers meaning low bound (⟨doc, value⟩ :: hits) where
  inOrder := by
    rw [List.map_cons, List.pairwise_cons]
    refine ⟨fun later listed => ?_, rest.inOrder⟩
    have beyond := ((rest.mem_docs later).mp listed).2.1
    lia
  mem_docs other := by
    rw [List.map_cons, List.mem_cons, rest.mem_docs]
    have reached := lands.reached
    constructor
    · rintro (rfl | ⟨has, from_low, inside⟩)
      · exact ⟨member, reached, before⟩
      · exact ⟨has, by lia, inside⟩
    · rintro ⟨has, from_low, inside⟩
      have first := lands.first other has from_low
      by_cases same : other = doc
      · exact .inl same
      · exact .inr ⟨has, by lia, inside⟩
  scored hit listed := by
    rcases List.mem_cons.mp listed with same | later
    · rw [same]
      exact scored
    · exact rest.scored hit later

namespace InOrder

variable [Scorer S σ] {meaning : Meaning S} {low bound : DocId}

theorem feed_yields (willing : Collector.Willing S κ) (inside : bound ≤ noMoreDocs) (moves : Nat)
    (scorer : σ) (sink : κ) (doc : DocId) (here : Cursor.doc scorer = doc)
    (refines : Refines scorer meaning) (lands : Lands meaning.docs low doc) (le : low ≤ bound)
    (enough : (noMoreDocs - doc).toNat < moves) :
    ∃ hits, Delivers meaning low bound hits ∧
      (feed bound moves scorer sink doc).Yields fun left after =>
        after.2 = Collector.deliver sink hits ∧ Waiting meaning bound after.1 ∧
          (left = false ↔ ∀ doc ∈ meaning.docs, doc < bound) := by
  -- Each move raises the current document, so there are enough moves for all documents that there can be.
  induction moves generalizing scorer sink doc low with
  | zero => omega
  | succ moves ih =>
    rw [feed]
    by_cases before : doc < bound
    · rw [if_pos before]
      have member : doc ∈ meaning.docs := by
        rcases lands.place with listed | ended
        · exact listed
        · lia
      rw [← here] at member
      obtain ⟨value, scoredState, same, ⟨scored, stays⟩, refinesScored⟩ := refines.score member
      rw [here] at member scored stays
      have live : Cursor.doc scoredState ≠ noMoreDocs := by lia
      obtain ⟨landing, after, sameNext, arrival, refinesAfter⟩ := refinesScored.next live
      rw [stays] at arrival
      have reached := arrival.2.reached
      obtain ⟨sinkAfter, collected⟩ := willing.collect_eq sink doc value
      obtain ⟨hits, delivers, left, ended, sameRest, rest⟩ := ih after sinkAfter landing arrival.1
        refinesAfter arrival.2 (by lia) (by lia)
      refine ⟨⟨doc, value⟩ :: hits, delivers.cons lands member before scored, left, ended, ?_, ?_⟩
      · simp only [same, collected, sameNext, sameRest]
      · rw [Collector.deliver_cons, collected]
        exact rest
    · rw [if_neg before]
      have there : bound ≤ doc := not_lt.mp before
      refine ⟨[], ⟨.nil, fun other => ?_, fun hit listed => absurd listed List.not_mem_nil⟩,
        doc != noMoreDocs, (scorer, sink), rfl, rfl, ⟨refines, .inl ?_⟩, ?_⟩
      · simp only [List.map_nil, List.not_mem_nil, false_iff]
        rintro ⟨has, from_low, inRange⟩
        have first := lands.first other has from_low
        lia
      · rw [here]
        exact ⟨lands.place, there, fun other has from_bound => lands.first other has (le.trans from_bound)⟩
      · rw [bne_eq_false_iff_eq]
        constructor
        · intro ended other has
          have first := lands.first other has
          have real := (meaning.real other has).2
          lia
        · exact fun none => lands.place.resolve_left fun has => absurd (none doc has) (not_lt.mpr there)

theorem drain_yields (willing : Collector.Willing S κ) {scorer : σ} (waiting : Waiting meaning low scorer)
    (sink : κ) (nonneg : 0 ≤ low) (le : low ≤ bound) (inside : bound ≤ noMoreDocs) :
    ∃ hits, Delivers meaning low bound hits ∧
      (drain scorer sink bound).Yields fun left after =>
        after.2 = Collector.deliver sink hits ∧ Waiting meaning bound after.1 ∧
          (left = false ↔ ∀ doc ∈ meaning.docs, doc < bound) := by
  have fuel : ∀ doc : DocId, 0 ≤ doc → (noMoreDocs - doc).toNat < moveLimit := by
    unfold noMoreDocs moveLimit
    lia
  unfold drain
  generalize moveLimit = moves at fuel ⊢
  rcases waiting.place with lands | ⟨fresh, rfl⟩
  · have reached := nonneg.trans lands.reached
    simp only [if_neg (not_lt.mpr reached)]
    exact feed_yields willing inside moves scorer sink _ rfl waiting.refines lands le (fuel _ reached)
  · obtain ⟨landing, after, same, arrival, refines⟩ := waiting.refines.next (by rw [fresh]; decide)
    rw [fresh] at arrival
    have before : Cursor.doc scorer < 0 := by
      rw [fresh]
      decide
    simp only [if_pos before, same]
    exact feed_yields willing inside moves after sink landing arrival.1 refines arrival.2 le
      (fuel _ arrival.2.reached)

end InOrder

theorem Denotes.waiting [Scorer S σ] {meaning : Meaning S} {scorer : σ} (denotes : Denotes scorer meaning) :
    Waiting meaning 0 scorer :=
  ⟨denotes.refines, .inr ⟨denotes.fresh, rfl⟩⟩

end PostingQuery
