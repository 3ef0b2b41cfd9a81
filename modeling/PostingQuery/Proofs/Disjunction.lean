import Mathlib
import PostingQuery.Proofs.CostSum
import PostingQuery.Proofs.Pool
import PostingQuery.Scorer.Disjunction

/-!
A disjunction visits the documents of any of its parts. The invariant of its walk: the heap is a pool of
the parts that are not used up, and its root stands on the current document.
-/

namespace PostingQuery

namespace Meaning

variable {S : Type} [Score S]

def combined (aggregation : Aggregation S) (coordination : Option (CoordinationTable S))
    (values : List S) : S :=
  match coordination with
  | some table => aggregation.combine values * table.factor values.length
  | none => aggregation.combine values

def anyScore (parts : List (Meaning S)) (aggregation : Aggregation S)
    (coordination : Option (CoordinationTable S)) (doc : DocId) (value : S) : Prop :=
  ∃ values : List S, Gathers (fun part : Meaning S => part.scores doc) (matching parts doc) values ∧
    value = combined aggregation coordination values

noncomputable def any (parts : List (Meaning S)) (aggregation : Aggregation S)
    (coordination : Option (CoordinationTable S)) (counting : Bool) : Meaning S where
  docs := allDocs.filter fun doc => ∃ part ∈ parts, doc ∈ part.docs
  real _ member := mem_allDocs.mp (Finset.mem_filter.mp member).1
  scores := anyScore parts aggregation coordination
  tallies doc answer := anyScore parts aggregation coordination doc answer.1 ∧
    answer.2 = if counting then (matching parts doc).length else 0
  counts doc count := count = (matching parts doc).length

theorem mem_any {parts : List (Meaning S)} {aggregation : Aggregation S}
    {coordination : Option (CoordinationTable S)} {counting : Bool} {doc : DocId} :
    doc ∈ (any parts aggregation coordination counting).docs ↔ ∃ part ∈ parts, doc ∈ part.docs := by
  simp only [any, Finset.mem_filter, mem_allDocs, and_iff_right_iff_imp]
  rintro ⟨part, -, member⟩
  exact part.real doc member

end Meaning

namespace Disjunction

variable {S σ : Type} [Score S] [Scorer S σ]

@[simp]
theorem cursor_doc (disjunction : Disjunction S σ) :
    Cursor.doc disjunction = disjunction.doc := rfl

structure Landed (meanings : List (Meaning S)) (disjunction : Disjunction S σ) : Prop where
  real : IsReal disjunction.doc
  scored : ∃ values : List S,
    Gathers (fun part : Meaning S => part.scores disjunction.doc)
      (Meaning.matching meanings disjunction.doc) values ∧
    disjunction.matchers = values.length ∧ disjunction.value = disjunction.aggregation.combine values

structure Walking (meanings : List (Meaning S)) (disjunction : Disjunction S σ) : Prop where
  ordered : CursorHeap.Ordered disjunction.heap.entries
  pool : Pool meanings disjunction.doc disjunction.heap.entries.toList
  nonempty : disjunction.heap.entries.toList ≠ []
  onTop : disjunction.heap.topDoc = disjunction.doc
  landed : disjunction.doc ≠ unpositioned → Landed meanings disjunction

structure Sound (meanings : List (Meaning S)) (aggregation : Aggregation S)
    (coordination : Option (CoordinationTable S)) (counting : Bool) (disjunction : Disjunction S σ) :
    Prop where
  walks : disjunction.doc ≠ noMoreDocs → Walking meanings disjunction
  aggregation : disjunction.aggregation = aggregation
  coordination : disjunction.coordination = coordination
  counting : disjunction.counting = counting

variable {meanings : List (Meaning S)} {aggregation : Aggregation S}
  {coordination : Option (CoordinationTable S)} {counting : Bool}

theorem land_yields {low : DocId} (disjunction : Disjunction S σ)
    (ordered : CursorHeap.Ordered disjunction.heap.entries)
    (pool : Pool meanings low disjunction.heap.entries.toList)
    (nonempty : disjunction.heap.entries.toList ≠ []) (reached : low ≤ disjunction.heap.topDoc)
    (nonneg : 0 ≤ low) (aggregationSame : disjunction.aggregation = aggregation)
    (coordinationSame : disjunction.coordination = coordination)
    (countingSame : disjunction.counting = counting) :
    disjunction.land.Yields fun landing after =>
      (after.doc = landing ∧
        Lands (Meaning.any meanings aggregation coordination counting).docs low landing) ∧
      Sound meanings aggregation coordination counting after := by
  obtain ⟨root, rootMember, rootDoc⟩ := CursorHeap.exists_topDoc nonempty
  have live := pool.live root rootMember
  have inside : root.doc ≤ noMoreDocs := (pool.refines root rootMember).doc_le
  have real : IsReal disjunction.heap.topDoc := by
    rw [← rootDoc] at reached ⊢
    exact ⟨nonneg.trans reached, lt_of_le_of_ne inside live⟩
  have poolThere := pool.mono reached
  obtain ⟨values, after, same, orderedAfter, poolAfter, topAfter, sizeAfter, gathers⟩ :=
    CursorHeap.scoreMatches_pool [] ordered real (by simpa using poolThere)
  have matched := gathers.perm poolThere.matching_perm
  refine ⟨disjunction.heap.topDoc, { disjunction with
      heap := after, doc := disjunction.heap.topDoc, matchers := values.length
      value := disjunction.aggregation.combine values }, ?_, ⟨rfl, ?_⟩,
    ⟨fun _ => ⟨orderedAfter, by simpa using poolAfter, ?_, topAfter, fun _ => ?_⟩, aggregationSame,
      coordinationSame, countingSame⟩⟩
  · simp only [land, same]
  · refine Covers.lands (fun doc member from_low => ?_) reached (.inl ?_)
    · -- A part with an earlier document would stand on or before it.
      obtain ⟨part, listed, has⟩ := Meaning.mem_any.mp member
      obtain ⟨entry, entryMember, -, notPassed⟩ := pool.exists_part listed has from_low
      exact (CursorHeap.topDoc_le ordered entryMember).trans notPassed
    · have has := (poolThere.on_iff real rootMember rootDoc.ge).mp rootDoc
      exact Meaning.mem_any.mpr ⟨_, Meaning.ofRank_mem (pool.inside root rootMember), has⟩
  · apply List.ne_nil_of_length_pos
    rw [sizeAfter]
    exact List.length_pos_of_ne_nil nonempty
  · exact ⟨real, values, matched, rfl, rfl⟩

theorem moveUntil_yields {current low : DocId} {move : σ → Step σ DocId} {arrived : DocId → Bool}
    (brings : Brings S move current low) (arrives : ∀ doc, current ≤ doc → (arrived doc ↔ low ≤ doc))
    (le : current ≤ low) (nonneg : 0 ≤ low) (inside : low ≤ noMoreDocs) (moves : Nat)
    (disjunction : Disjunction S σ) (ordered : CursorHeap.Ordered disjunction.heap.entries)
    (pool : Pool meanings low disjunction.heap.entries.toList)
    (nonempty : disjunction.heap.entries.toList ≠ [])
    (reached : ∀ entry ∈ disjunction.heap.entries.toList, current ≤ entry.doc)
    (lags : disjunction.heap.topDoc < low) (enough : disjunction.heap.behind low ≤ moves)
    (aggregationSame : disjunction.aggregation = aggregation)
    (coordinationSame : disjunction.coordination = coordination)
    (countingSame : disjunction.counting = counting) :
    (moveUntil move arrived moves disjunction).Yields fun landing after =>
      (after.doc = landing ∧
        Lands (Meaning.any meanings aggregation coordination counting).docs low landing) ∧
      Sound meanings aggregation coordination counting after := by
  -- Each move leaves one entry fewer behind `low`, so there are enough of them.
  induction moves generalizing disjunction with
  | zero =>
    have some := CursorHeap.behind_pos nonempty lags
    omega
  | succ moves ih =>
    obtain ⟨stays, heap, same, orderedAfter, poolAfter, reachedAfter, fewer, size⟩ :=
      CursorHeap.moveTop_yields [] brings ordered (by simpa using pool) reached le nonempty lags
    rw [List.append_nil] at poolAfter
    simp only [moveUntil, same]
    by_cases emptied : heap.entries.toList = []
    · have used : (!stays && heap.size == 0) = true := by
        have nonemptyBefore := List.length_pos_of_ne_nil nonempty
        have sizeAfter : heap.size = 0 := by simpa [CursorHeap.size] using emptied
        cases stays with
        | true =>
          rw [emptied] at size
          simp only [List.length_nil, ↓reduceIte] at size
          omega
        | false => simp [sizeAfter]
      rw [if_pos used]
      refine ⟨noMoreDocs, _, rfl, ⟨rfl, ?_⟩,
        ⟨fun live => absurd rfl live, aggregationSame, coordinationSame, countingSame⟩⟩
      refine ⟨.inr rfl, inside, fun doc member from_low => ?_⟩
      obtain ⟨part, listed, has⟩ := Meaning.mem_any.mp member
      obtain ⟨entry, entryMember, -⟩ := poolAfter.exists_part listed has from_low
      rw [emptied] at entryMember
      cases entryMember
    · have goesOn : (!stays && heap.size == 0) = false := by
        have sizeAfter : heap.size ≠ 0 := by simpa [CursorHeap.size] using emptied
        simp [sizeAfter]
      rw [if_neg (by simp [goesOn])]
      obtain ⟨root, rootMember, rootDoc⟩ := CursorHeap.exists_topDoc emptied
      have arrivesTop := arrives heap.topDoc (rootDoc ▸ reachedAfter root rootMember)
      split
      next there =>
        exact land_yields { disjunction with heap := heap } orderedAfter poolAfter emptied
          (arrivesTop.mp there) nonneg aggregationSame coordinationSame countingSame
      next notThere =>
        have fewerLeft : heap.behind low ≤ moves := by omega
        exact ih { disjunction with heap := heap } orderedAfter poolAfter emptied reachedAfter
          (not_le.mp fun above => notThere (arrivesTop.mpr above)) fewerLeft aggregationSame
          coordinationSame countingSame

theorem Sound.move {current low : DocId} {move : σ → Step σ DocId} {arrived : DocId → Bool}
    {disjunction : Disjunction S σ}
    (sound : Sound meanings aggregation coordination counting disjunction)
    (here : disjunction.doc = current) (beyond : current < low) (nonneg : 0 ≤ low)
    (inside : low ≤ noMoreDocs) (brings : Brings S move current low)
    (arrives : ∀ doc, current ≤ doc → (arrived doc ↔ low ≤ doc)) :
    (moveUntil move arrived disjunction.heap.moveBound disjunction).Yields fun landing after =>
      (after.doc = landing ∧
        Lands (Meaning.any meanings aggregation coordination counting).docs low landing) ∧
      Sound meanings aggregation coordination counting after := by
  have walking := sound.walks (by lia)
  have pool := walking.pool.mono (show disjunction.doc ≤ low from here ▸ beyond.le)
  have onTop := walking.onTop
  refine moveUntil_yields brings arrives beyond.le nonneg inside _ disjunction walking.ordered pool
    walking.nonempty (fun entry member => ?_) (by lia) (disjunction.heap.behind_lt_moveBound low).le
    sound.aggregation sound.coordination sound.counting
  rw [← here, ← onTop]
  exact CursorHeap.topDoc_le walking.ordered member

theorem Walking.le_doc {disjunction : Disjunction S σ} (walking : Walking meanings disjunction) :
    unpositioned ≤ disjunction.doc := by
  obtain ⟨root, member, here⟩ := CursorHeap.exists_topDoc walking.nonempty
  rw [← walking.onTop, ← here]
  exact (walking.pool.refines root member).le_doc

theorem Walking.lt_noMoreDocs {disjunction : Disjunction S σ} (walking : Walking meanings disjunction) :
    disjunction.doc < noMoreDocs := by
  obtain ⟨root, member, here⟩ := CursorHeap.exists_topDoc walking.nonempty
  rw [← walking.onTop, ← here]
  exact lt_of_le_of_ne (walking.pool.refines root member).doc_le (walking.pool.live root member)

theorem Sound.landed {disjunction : Disjunction S σ}
    (sound : Sound meanings aggregation coordination counting disjunction)
    (member : disjunction.doc ∈ (Meaning.any meanings aggregation coordination counting).docs) :
    Landed meanings disjunction := by
  have real := (Meaning.any meanings aggregation coordination counting).real _ member
  refine (sound.walks real.ne_noMoreDocs).landed fun fresh => ?_
  rw [fresh] at real
  exact absurd real (by decide)

theorem Sound.matchers_eq {disjunction : Disjunction S σ}
    (sound : Sound meanings aggregation coordination counting disjunction)
    (member : disjunction.doc ∈ (Meaning.any meanings aggregation coordination counting).docs) :
    disjunction.matchers = (Meaning.matching meanings disjunction.doc).length := by
  obtain ⟨values, gathers, matchers, -⟩ := (sound.landed member).scored
  rw [matchers, gathers.length_eq]

theorem Sound.anyScore {disjunction : Disjunction S σ}
    (sound : Sound meanings aggregation coordination counting disjunction)
    (member : disjunction.doc ∈ (Meaning.any meanings aggregation coordination counting).docs) :
    Meaning.anyScore meanings aggregation coordination disjunction.doc disjunction.score := by
  obtain ⟨values, gathers, matchers, value⟩ := (sound.landed member).scored
  refine ⟨values, gathers, ?_⟩
  rw [score, sound.coordination, value, matchers, sound.aggregation]
  cases coordination with
  | none => rfl
  | some table => rfl

theorem sound_invariant (meanings : List (Meaning S)) (aggregation : Aggregation S)
    (coordination : Option (CoordinationTable S)) (counting : Bool) :
    Invariant (Meaning.any meanings aggregation coordination counting)
      (Sound (σ := σ) meanings aggregation coordination counting) where
  place disjunction sound := by
    by_cases ended : disjunction.doc = noMoreDocs
    · exact .inr (.inr ended)
    · by_cases fresh : disjunction.doc = unpositioned
      · exact .inl fresh
      · have walking := sound.walks ended
        have real := (walking.landed fresh).real
        obtain ⟨root, rootMember, rootDoc⟩ := CursorHeap.exists_topDoc walking.nonempty
        rw [walking.onTop] at rootDoc
        have has := (walking.pool.on_iff real rootMember rootDoc.ge).mp rootDoc
        exact .inr (.inl (Meaning.mem_any.mpr
          ⟨_, Meaning.ofRank_mem (walking.pool.inside root rootMember), has⟩))
  next disjunction sound live := by
    rw [cursor_doc] at live ⊢
    have walking := sound.walks live
    have inside := walking.lt_noMoreDocs
    have beyond : unpositioned < disjunction.doc + 1 := by
      have place := walking.le_doc
      lia
    refine sound.move rfl (lt_add_one disjunction.doc) (nonneg_of_unpositioned_lt beyond) (by lia)
      (brings_next inside) fun doc reached => ?_
    simp only [bne_iff_ne]
    lia
  advance disjunction target sound beyond inside := by
    rw [cursor_doc] at beyond
    have walking := sound.walks (by lia)
    have nonneg := nonneg_of_unpositioned_lt (walking.le_doc.trans_lt beyond)
    exact sound.move rfl beyond nonneg inside (brings_advance inside) fun doc _ => decide_eq_true_iff
  score disjunction sound member := by
    exact ⟨disjunction.score, disjunction, rfl, ⟨sound.anyScore member, rfl⟩, sound⟩
  tally disjunction sound member := by
    have real := (Meaning.any meanings aggregation coordination counting).real _ member
    refine ⟨_, disjunction, rfl, ⟨⟨sound.anyScore member, ?_⟩, rfl⟩, sound⟩
    simp only [cursor_doc, sound.counting, sound.matchers_eq member]
  count disjunction sound member := sound.matchers_eq member

theorem exists_outcome {scorers : List σ} (nonempty : scorers ≠ []) (aggregation : Aggregation S)
    (coordination : Option (CoordinationTable S)) :
    ∃ cost, (ofList scorers aggregation coordination).outcome =
        .ok ⟨.ofList (Ranked.ofList scorers), unpositioned, cost, aggregation, coordination, false, 0, Score.zero⟩ ∧
      cost.toNat = totalCost scorers % 2 ^ 64 := by
  obtain ⟨cost, summed, exact⟩ := CursorHeap.exists_cost scorers
  refine ⟨cost, ?_, exact⟩
  rw [ofList, Logged.outcome_map, summed]
  · rfl
  · exact nonempty

theorem ofList_denotes {meanings : List (Meaning S)} {scorers : List σ}
    (denote : List.Forall₂ (fun meaning scorer => Denotes scorer meaning) meanings scorers)
    (nonempty : scorers ≠ []) (aggregation : Aggregation S)
    (coordination : Option (CoordinationTable S)) :
    ∃ disjunction, (ofList scorers aggregation coordination).outcome = .ok disjunction ∧
      Denotes disjunction (Meaning.any meanings aggregation coordination false) ∧
      Denotes disjunction.counted (Meaning.any meanings aggregation coordination true) := by
  have perm := CursorHeap.ofList_perm (Ranked.ofList scorers)
  have pool := (Pool.ofList denote unpositioned).perm perm.symm
  have length : (CursorHeap.ofList (Ranked.ofList scorers)).entries.toList.length = scorers.length := by
    rw [perm.length_eq, Ranked.ofList, List.length_map, List.length_zipIdx]
  have heapNonempty : (CursorHeap.ofList (Ranked.ofList scorers)).entries.toList ≠ [] := by
    apply List.ne_nil_of_length_pos
    rw [length]
    exact List.length_pos_of_ne_nil nonempty
  obtain ⟨cost, same, -⟩ := exists_outcome nonempty aggregation coordination
  refine ⟨_, same, ?_, ?_⟩
  all_goals
    refine .of_invariant (sound_invariant meanings aggregation coordination _)
      ⟨fun _ => ⟨CursorHeap.ofList_ordered _, pool, heapNonempty, ?_, fun moved => absurd rfl moved⟩,
        rfl, rfl, rfl⟩ rfl
    obtain ⟨root, member, here⟩ := CursorHeap.exists_topDoc heapNonempty
    have fresh := (Ranked.denotes_of_mem_ofList denote (perm.mem_iff.mp member)).2.fresh
    exact here.symm.trans fresh

end Disjunction

end PostingQuery
