import Mathlib
import PostingQuery.Proofs.Resume

/-!
Windowed searches over clauses that may fail at any move and at any score. A call that fails in a clause
has moved the end of the windows already, but the clauses behind the failed one still stand where they
were. If every clause stands at that end or beyond it when the next call begins, no document is offered
twice and the buckets in use stay a list. A clause that is left a window behind breaks both, for it puts
documents of two windows into one table.
-/

namespace PostingQuery

open BucketTable (Holds Linked emission)

variable {S σ κ : Type}

section Forward

variable [Scorer S σ] {holds : σ → Prop}

/-- Scorers that only move forward: a move that succeeds ends further on, and a score that succeeds is one
of the current document. A step that fails may leave the scorer anywhere. -/
structure Forward (holds : σ → Prop) : Prop where
  inside : ∀ scorer, holds scorer → Cursor.doc scorer ≤ noMoreDocs
  next : ∀ scorer, holds scorer → Cursor.doc scorer ≠ noMoreDocs → holds (Cursor.next scorer).2 ∧
    ∀ landing, (Cursor.next scorer).1 = .ok landing →
      Cursor.doc (Cursor.next scorer).2 = landing ∧ Cursor.doc scorer < landing
  score : ∀ scorer, holds scorer → IsReal (Cursor.doc scorer) → holds (Scorer.score scorer).2 ∧
    ∀ value, (Scorer.score scorer).1 = .ok value →
      Cursor.doc (Scorer.score scorer).2 = Cursor.doc scorer

def Scorer.Fails (holds : σ → Prop) (failure : Failure) : Prop :=
  ∃ scorer, holds scorer ∧
    ((Cursor.next scorer).1 = .error failure ∨ (Scorer.score scorer).1 = .error failure)

theorem forward_of_refines : Forward fun scorer : σ => ∃ meaning : Meaning S, Refines scorer meaning where
  inside := fun _ ⟨_, refines⟩ => refines.doc_le
  next := fun scorer ⟨meaning, refines⟩ live => by
    obtain ⟨landing, after, same, arrival, kept⟩ := refines.next live
    rw [same]
    refine ⟨⟨meaning, kept⟩, fun other answered => ?_⟩
    cases answered
    have reached := arrival.2.reached
    exact ⟨arrival.1, by lia⟩
  score := fun scorer ⟨meaning, refines⟩ real => by
    have member := (Refines.invariant meaning).member_of_real refines real
    obtain ⟨value, after, same, ⟨-, stays⟩, kept⟩ := refines.score member
    rw [same]
    exact ⟨⟨meaning, kept⟩, fun _ _ => stays⟩

end Forward

structure Stumble where
  failure : Failure
  moved : Bool

/-- A scorer that fails where a script says so. Each step takes one entry of the script. -/
structure Stumbling (σ : Type) where
  scorer : σ
  script : List (Option Stumble)

namespace Stumbling

def step {α : Type} (run : σ → Step σ α) (stumbling : Stumbling σ) : Step (Stumbling σ) α :=
  match stumbling.script with
  | [] => (run stumbling.scorer).within fun scorer => ⟨scorer, []⟩
  | none :: rest => (run stumbling.scorer).within fun scorer => ⟨scorer, rest⟩
  | some ⟨failure, true⟩ :: rest => (.error failure, ⟨(run stumbling.scorer).2, rest⟩)
  | some ⟨failure, false⟩ :: rest => (.error failure, ⟨stumbling.scorer, rest⟩)

/-- A step that succeeds is one of the scorer. One that fails has taken place or not. -/
theorem step_cases {α : Type} (run : σ → Step σ α) (stumbling : Stumbling σ) :
    (step run stumbling).1 = (run stumbling.scorer).1 ∧
        (step run stumbling).2.scorer = (run stumbling.scorer).2 ∨
      (∃ failure, (step run stumbling).1 = .error failure) ∧
        ((step run stumbling).2.scorer = (run stumbling.scorer).2 ∨
          (step run stumbling).2.scorer = stumbling.scorer) := by
  obtain ⟨scorer, script⟩ := stumbling
  match script with
  | [] => exact .inl ⟨rfl, rfl⟩
  | none :: rest => exact .inl ⟨rfl, rfl⟩
  | some ⟨failure, true⟩ :: rest => exact .inr ⟨⟨failure, rfl⟩, .inl rfl⟩
  | some ⟨failure, false⟩ :: rest => exact .inr ⟨⟨failure, rfl⟩, .inr rfl⟩

variable [Scorer S σ]

instance : Cursor (Stumbling σ) where
  doc stumbling := Cursor.doc stumbling.scorer
  next := step Cursor.next
  advance stumbling target := step (Cursor.advance · target) stumbling
  cost stumbling := Cursor.cost stumbling.scorer

instance : Scorer S (Stumbling σ) where
  score := step Scorer.score
  matchCount stumbling := Scorer.matchCount stumbling.scorer
  scoreCounting := step Scorer.scoreCounting
  explain stumbling doc := step (Scorer.explain · doc) stumbling

end Stumbling

theorem Forward.stumbling [Scorer S σ] {holds : σ → Prop} (forward : Forward holds) :
    Forward fun stumbling : Stumbling σ => holds stumbling.scorer where
  inside stumbling held := forward.inside stumbling.scorer held
  next stumbling held live := by
    obtain ⟨heldAfter, moves⟩ := forward.next stumbling.scorer held live
    rcases Stumbling.step_cases Cursor.next stumbling with ⟨same, after⟩ | ⟨⟨failure, failed⟩, after⟩
    · refine ⟨after ▸ heldAfter, fun landing answered => ?_⟩
      obtain ⟨there, beyond⟩ := moves landing (same.symm.trans answered)
      exact ⟨(congrArg Cursor.doc after).trans there, beyond⟩
    · refine ⟨?_, fun landing answered => absurd (failed.symm.trans answered) (by simp)⟩
      rcases after with moved | stayed
      · exact moved ▸ heldAfter
      · exact stayed ▸ held
  score stumbling held real := by
    obtain ⟨heldAfter, stays⟩ := forward.score stumbling.scorer held real
    rcases Stumbling.step_cases Scorer.score stumbling with ⟨same, after⟩ | ⟨⟨failure, failed⟩, after⟩
    · refine ⟨after ▸ heldAfter, fun value answered => ?_⟩
      exact (congrArg Cursor.doc after).trans (stays value (same.symm.trans answered))
    · refine ⟨?_, fun landing answered => absurd (failed.symm.trans answered) (by simp)⟩
      rcases after with moved | stayed
      · exact moved ▸ heldAfter
      · exact stayed ▸ held

structure Spread (low high : DocId) (hits : List (Hit S)) : Prop where
  distinct : (hits.map (·.doc)).Nodup
  inside : ∀ hit ∈ hits, low ≤ hit.doc ∧ hit.doc < high

theorem spread_nil (low high : DocId) : Spread low high ([] : List (Hit S)) :=
  ⟨.nil, fun _ member => absurd member List.not_mem_nil⟩

theorem Spread.append {low middle high : DocId} {hits more : List (Hit S)} (first : Spread low middle hits)
    (second : Spread middle high more) (le : low ≤ middle) (inside : middle ≤ high) :
    Spread low high (hits ++ more) where
  distinct := by
    rw [List.map_append, List.nodup_append]
    refine ⟨first.distinct, second.distinct, fun doc member other otherMember => ?_⟩
    obtain ⟨hit, listed, rfl⟩ := List.mem_map.mp member
    obtain ⟨later, laterListed, rfl⟩ := List.mem_map.mp otherMember
    exact ((first.inside hit listed).2.trans_le (second.inside later laterListed).1).ne
  inside hit member := by
    rcases List.mem_append.mp member with early | late
    · exact ⟨(first.inside hit early).1, (first.inside hit early).2.trans_le inside⟩
    · exact ⟨le.trans (second.inside hit late).1, (second.inside hit late).2⟩

variable [Score S]

def BucketTable.OfWindow {last : Nat} (table : BucketTable S last) (start stop : DocId) : Prop :=
  ∃ reports slots, Holds table start reports slots ∧ ∀ report ∈ reports, report.doc < stop

theorem BucketTable.OfWindow.add {last : Nat} {table : BucketTable S last} {start stop : DocId}
    (window : table.OfWindow start stop) (width : stop ≤ start + (last + 1)) {doc : DocId}
    (from_start : start ≤ doc) (before : doc < stop) (score : S) (mask : UInt32) :
    (table.add doc score mask).OfWindow start stop := by
  obtain ⟨reports, slots, holds, inside⟩ := window
  obtain ⟨after, added⟩ := holds.add ⟨doc, score, mask⟩ from_start (before.trans_le width)
  refine ⟨_, after, added, fun report member => ?_⟩
  rcases List.mem_append.mp member with earlier | new
  · exact inside report earlier
  · rw [List.mem_singleton.mp new]
    exact before

namespace InOrder

variable [Scorer S σ] {holds : σ → Prop} {last : Nat} {start bound : DocId}

structure Feeds (holds : σ → Prop) (start bound : DocId) (step : Step (σ × BucketSink S last) Bool) :
    Prop where
  window : step.2.2.table.OfWindow start bound
  held : holds step.2.1
  beyond : ∀ left, step.1 = .ok left → bound ≤ Cursor.doc step.2.1 ∧
    (left = true → Cursor.doc step.2.1 ≠ noMoreDocs)
  failed : ∀ failure, step.1 = .error failure → Scorer.Fails holds failure

theorem Feeds.of_failure {scorer : σ} {sink : BucketSink S last} (window : sink.table.OfWindow start bound)
    (held : holds scorer) {failure : Failure} (fails : Scorer.Fails holds failure) :
    Feeds holds start bound (.error failure, (scorer, sink)) where
  window := window
  held := held
  beyond left same := by cases same
  failed other same := by
    cases same
    exact fails

theorem feed_feeds (forward : Forward holds) (nonneg : 0 ≤ start) (inside : bound ≤ noMoreDocs)
    (width : bound ≤ start + (last + 1)) (moves : Nat) (scorer : σ) (sink : BucketSink S last) {doc : DocId}
    (here : Cursor.doc scorer = doc) (held : holds scorer) (from_start : start ≤ doc)
    (window : sink.table.OfWindow start bound) (enough : (noMoreDocs - doc).toNat < moves) :
    Feeds holds start bound (feed bound moves scorer sink doc) := by
  -- Each move that succeeds raises the current document, so there are enough moves for a window.
  induction moves generalizing scorer sink doc with
  | zero => omega
  | succ moves ih =>
    rw [feed]
    by_cases before : doc < bound
    · rw [if_pos before]
      have real : IsReal (Cursor.doc scorer) := by
        rw [here]
        exact ⟨nonneg.trans from_start, before.trans_le inside⟩
      obtain ⟨heldScored, stays⟩ := forward.score scorer held real
      rcases scored : Scorer.score scorer with ⟨failure | value, after⟩
      · rw [scored] at heldScored
        exact .of_failure window heldScored ⟨scorer, held, .inr (congrArg Prod.fst scored)⟩
      · rw [scored] at heldScored stays
        have stayed : Cursor.doc after = doc := (stays value rfl).trans here
        have added := window.add width from_start before value (ClauseMask.ofClause sink.prohibited)
        have collected : Collector.collect sink doc value =
          (.ok (), ⟨sink.table.add doc value (ClauseMask.ofClause sink.prohibited), sink.prohibited,
            sink.collected + 1⟩) := rfl
        obtain ⟨heldMoved, moved⟩ := forward.next after heldScored (by lia)
        simp only [collected]
        rcases next : Cursor.next after with ⟨failure | landing, later⟩
        · rw [next] at heldMoved
          exact .of_failure added heldMoved ⟨after, heldScored, .inl (congrArg Prod.fst next)⟩
        · rw [next] at heldMoved moved
          obtain ⟨there, further⟩ := moved landing rfl
          exact ih later _ there heldMoved (by lia) added (by lia)
    · rw [if_neg before]
      refine ⟨window, held, fun left same => ?_, fun failure same => by cases same⟩
      cases same
      change bound ≤ Cursor.doc scorer ∧ ((doc != noMoreDocs) = true → Cursor.doc scorer ≠ noMoreDocs)
      rw [here]
      exact ⟨not_lt.mp before, by simp⟩

theorem drain_feeds (forward : Forward holds) (nonneg : 0 ≤ start) (inside : bound ≤ noMoreDocs)
    (width : bound ≤ start + (last + 1)) {scorer : σ} (sink : BucketSink S last) (held : holds scorer)
    (place : start ≤ Cursor.doc scorer ∨ Cursor.doc scorer = unpositioned ∧ start = 0)
    (window : sink.table.OfWindow start bound) : Feeds holds start bound (drain scorer sink bound) := by
  have fuel : ∀ doc : DocId, 0 ≤ doc → (noMoreDocs - doc).toNat < moveLimit := by
    unfold noMoreDocs moveLimit
    lia
  unfold drain
  generalize moveLimit = moves at fuel ⊢
  rcases place with there | ⟨fresh, rfl⟩
  · have reached := nonneg.trans there
    simp only [if_neg (not_lt.mpr reached)]
    exact feed_feeds forward nonneg inside width moves scorer sink rfl held there window (fuel _ reached)
  · have before : Cursor.doc scorer < 0 := by
      rw [fresh]
      decide
    obtain ⟨heldMoved, moved⟩ := forward.next scorer held (by rw [fresh]; decide)
    simp only [if_pos before]
    rcases next : Cursor.next scorer with ⟨failure | landing, after⟩
    · rw [next] at heldMoved
      exact .of_failure window heldMoved ⟨scorer, held, .inl (congrArg Prod.fst next)⟩
    · rw [next] at heldMoved moved
      obtain ⟨there, further⟩ := moved landing rfl
      rw [fresh] at further
      have reached := nonneg_of_unpositioned_lt further
      exact feed_feeds forward nonneg inside width moves after sink there heldMoved reached window
        (fuel _ reached)

end InOrder

theorem BucketTable.Holds.spread {last : Nat} {table : BucketTable S last} {start stop : DocId}
    {reports : List (Report S)} {slots : List (Fin (last + 1))} (holds : Holds table start reports slots)
    (before : ∀ report ∈ reports, report.doc < stop) (minimum : Nat) (coordination : CoordinationTable S) :
    Spread start stop (slots.filterMap fun slot => emission minimum coordination (table.buckets.get slot)) where
  distinct := holds.emitted_nodup
  inside hit emitted := by
    obtain ⟨report, member, same⟩ := Report.about_ne_nil.mp ((holds.mem_emitted hit).mp emitted).some
    rw [← same]
    exact ⟨(holds.inside report member).1, before report member⟩

namespace WindowedSearch

variable [Scorer S σ] {holds : σ → Prop}

/-- Every clause with documents left stands where the next window begins or beyond it, or before its first
move if that is the first window. -/
def Abreast (low : DocId) (clauses : List (WindowedClause σ)) : Prop :=
  ∀ clause ∈ clauses, clause.more = true →
    low ≤ Cursor.doc clause.scorer ∨ Cursor.doc clause.scorer = unpositioned ∧ low = 0

instance (low : DocId) (clauses : List (WindowedClause σ)) : Decidable (Abreast low clauses) :=
  inferInstanceAs (Decidable (∀ clause ∈ clauses, _ → _))

def AllHold (holds : σ → Prop) (clauses : List (WindowedClause σ)) : Prop :=
  ∀ clause ∈ clauses, holds clause.scorer

structure Fills {last : Nat} (holds : σ → Prop) (start stop : DocId) (more : Bool)
    (step : Step (List (WindowedClause σ) × BucketTable S last) (Nat × Bool)) : Prop where
  window : step.2.2.OfWindow start stop
  held : AllHold holds step.2.1
  abreast : ∀ answer, step.1 = .ok answer → Abreast stop step.2.1
  goesOn : ∀ answer, step.1 = .ok answer → answer.2 = true → more = true ∨ stop < noMoreDocs
  failed : ∀ failure, step.1 = .error failure → Scorer.Fails holds failure

theorem Fills.of_failure {last : Nat} {start stop : DocId} {clauses : List (WindowedClause σ)}
    {table : BucketTable S last} (window : table.OfWindow start stop) (held : AllHold holds clauses)
    {failure : Failure} (fails : Scorer.Fails holds failure) (more : Bool) :
    Fills holds start stop more (.error failure, (clauses, table)) where
  window := window
  held := held
  abreast answer same := by cases same
  goesOn answer same := by cases same
  failed other same := by
    cases same
    exact fails

theorem fillFrom_fills (forward : Forward holds) {last : Nat} {start stop : DocId} (nonneg : 0 ≤ start)
    (inside : stop ≤ noMoreDocs) (width : stop ≤ start + (last + 1)) (clauses : List (WindowedClause σ))
    (held : AllHold holds clauses) (abreast : Abreast start clauses) (table : BucketTable S last)
    (window : table.OfWindow start stop) (hits : Nat) (more : Bool) :
    Fills holds start stop more (fillFrom stop clauses table hits more) := by
  induction clauses generalizing table hits more with
  | nil =>
    exact ⟨window, held, fun _ _ clause member => absurd member List.not_mem_nil,
      fun answer same => by cases same; exact .inl, nofun⟩
  | cons clause clauses ih =>
    obtain ⟨heldFirst, heldRest⟩ := List.forall_mem_cons.mp held
    obtain ⟨place, abreastRest⟩ := List.forall_mem_cons.mp abreast
    rw [fillFrom]
    by_cases hasMore : clause.more
    · simp only [if_pos hasMore]
      have feeds := InOrder.drain_feeds forward nonneg inside width ⟨table, clause.prohibited, 0⟩ heldFirst
        (place hasMore) window
      rcases drained : InOrder.drain clause.scorer (⟨table, clause.prohibited, 0⟩ : BucketSink S last) stop with
        ⟨failure | left, scorer, sink⟩
      · rw [drained] at feeds
        exact .of_failure feeds.window (List.forall_mem_cons.mpr ⟨feeds.held, heldRest⟩)
          (feeds.failed failure rfl) more
      · rw [drained] at feeds
        obtain ⟨beyond, live⟩ := feeds.beyond left rfl
        have rest := ih heldRest abreastRest sink.table feeds.window (hits + sink.collected) (more || left)
        refine ⟨rest.window, List.forall_mem_cons.mpr ⟨feeds.held, rest.held⟩, fun answer same => ?_,
          fun answer same some => ?_, rest.failed⟩
        · exact List.forall_mem_cons.mpr ⟨fun _ => .inl beyond, rest.abreast answer same⟩
        · rcases rest.goesOn answer same some with either | before
          · cases left with
            | false => exact .inl (by simpa using either)
            | true =>
              have upper := forward.inside scorer feeds.held
              exact .inr (lt_of_le_of_lt beyond (lt_of_le_of_ne upper (live rfl)))
          · exact .inr before
    · rw [if_neg hasMore]
      have rest := ih heldRest abreastRest table window hits more
      refine ⟨rest.window, List.forall_mem_cons.mpr ⟨heldFirst, rest.held⟩, fun answer same => ?_, rest.goesOn,
        rest.failed⟩
      exact List.forall_mem_cons.mpr ⟨fun some => absurd some hasMore, rest.abreast answer same⟩

def InStep (holds : σ → Prop) (low : DocId) (clauses : List (WindowedClause σ)) : Prop :=
  AllHold holds clauses ∧ Abreast low clauses

variable {search : WindowedSearch S σ} {owed : List (Hit S)}

omit [Scorer S σ] in
theorem Owes.mono {ready weaker : DocId → List (WindowedClause σ) → Prop} (owes : Owes ready search owed)
    (implied : weaker search.windowEnd search.clauses) : Owes weaker search owed where
  nonneg := owes.nonneg
  inside := owes.inside
  small := owes.small
  ready := implied
  stale := owes.stale
  pending := owes.pending

/-- Filling the next window. A window that is filled owes its hits, and is empty only where no document is
left. Where a clause fails, all buckets are out of date and nothing is pending. -/
theorem fill_fills (forward : Forward holds) (owes : Owes (InStep holds) search [])
    (unused : search.table.first = none) (idle : search.pending = none) :
    search.windowEnd ≤ search.fill.2.windowEnd ∧
      (∀ answer, search.fill.1 = .ok answer → ∃ window,
        Owes (InStep holds) { search.fill.2 with pending := search.fill.2.table.first } window ∧
        Spread search.windowEnd search.fill.2.windowEnd window ∧
        (answer.2 = true ∨ search.fill.2.table.first ≠ none → search.windowEnd < search.fill.2.windowEnd)) ∧
      ∀ failure, search.fill.1 = .error failure →
        Owes (fun _ => AllHold holds) search.fill.2 [] ∧ Scorer.Fails holds failure := by
  obtain ⟨nonneg, inside, small, ⟨held, abreast⟩, stale, -⟩ := owes
  let stop : DocId := min (search.windowEnd + (search.last + 1)) noMoreDocs
  have le : search.windowEnd ≤ stop := le_min (by lia) inside
  have window : search.table.OfWindow search.windowEnd stop :=
    ⟨[], [], BucketTable.holds_nil stale unused, fun report member => absurd member List.not_mem_nil⟩
  have fills := fillFrom_fills forward nonneg (min_le_right _ _) (min_le_left _ _) search.clauses held abreast
    search.table window 0 false
  obtain ⟨reports, slots, listed, before⟩ := fills.window
  have staleAfter := listed.doc_lt le before
  refine ⟨le, fun answer same => ?_, fun failure same => ?_⟩
  · refine ⟨_, ⟨nonneg.trans le, min_le_right _ _, small, ⟨fills.held, fills.abreast answer same⟩, staleAfter,
      slots, listed.linked, listed.distinct, rfl⟩, listed.spread before _ _, fun some => ?_⟩
    change search.windowEnd < stop
    rcases some with more | used
    · have short := (fills.goesOn answer same more).resolve_left (by decide)
      lia
    · obtain ⟨report, member⟩ := List.exists_mem_of_ne_nil reports fun none =>
        used (listed.first_eq_none_iff.mpr none)
      exact (listed.inside report member).1.trans_lt (before report member)
  · refine ⟨⟨nonneg.trans le, min_le_right _ _, small, fills.held, staleAfter, [], ?_, .nil, rfl⟩,
      fills.failed failure same⟩
    change Linked _ search.pending []
    rw [idle]
    exact .done

variable [Collector S κ]

structure Ends (holds : σ → Prop) (search : WindowedSearch S σ) (owed : List (Hit S)) (sink : Offered S κ)
    (drained : Drained (WindowedSearch S σ) (Offered S κ) Bool) (news taken kept lost : List (Hit S)) :
    Prop where
  offered : drained.sink.hits = sink.hits ++ taken
  fresh : Spread search.windowEnd drained.rest.windowEnd news
  balance : (taken ++ kept ++ lost).Perm (owed ++ news)
  owes : Owes (fun _ => AllHold holds) drained.rest kept
  le : search.windowEnd ≤ drained.rest.windowEnd
  abreast : Abreast drained.rest.windowEnd drained.rest.clauses ∨
    ∃ failure, drained.outcome = .error failure ∧ Scorer.Fails holds failure
  failed : ∀ failure, drained.outcome = .error failure →
    Collector.Refuses κ failure ∨ Scorer.Fails holds failure

theorem drainWithin_ends (forward : Forward holds) (bound : DocId) (windows : Nat)
    (search : WindowedSearch S σ) (sink : Offered S κ) (events : List Event)
    (owes : Owes (InStep holds) search owed) (enough : (noMoreDocs - search.windowEnd).toNat < windows) :
    ∃ news taken kept lost,
      Ends holds search owed sink (drainWithin bound windows search sink events) news taken kept lost := by
  -- Each window that is not the last one ends later than the one before, so there are enough windows.
  induction windows generalizing search sink events owed with
  | zero => omega
  | succ windows ih =>
    cases owes.round bound windows sink events with
    | refused failure table head inner taken kept lost same owesAfter balance _ _ refuses =>
      rw [same]
      refine ⟨[], taken, kept, lost, rfl, spread_nil _ _, (List.append_nil owed).symm ▸ balance,
        owesAfter.mono owesAfter.ready.1, le_rfl, .inl owesAfter.ready.2, fun other failed => ?_⟩
      cases failed
      exact .inl refuses
    | setAside table slot inner taken kept same owesAfter balance _ _ _ =>
      rw [same]
      refine ⟨[], taken, kept, [], rfl, spread_nil _ _, ?_, owesAfter.mono owesAfter.ready.1, le_rfl,
        .inl owesAfter.ready.2, nofun⟩
      rwa [List.append_nil, List.append_nil]
    | offered table inner taken same owesNothing unused all _ =>
      obtain ⟨le, filled, broken⟩ := fill_fills forward owesNothing unused rfl
      rcases fill : (search.relinked table none).fill with ⟨failure | ⟨count, more⟩, next⟩
      · rw [fill] at same le broken
        obtain ⟨owesAfter, fails⟩ := broken failure rfl
        rw [same]
        exact ⟨[], taken, [], [], rfl, ⟨.nil, fun _ member => absurd member List.not_mem_nil⟩,
          by simpa using all, owesAfter, le, .inr ⟨failure, rfl, fails⟩, fun other failed => by
            cases failed
            exact .inr fails⟩
      · rw [fill] at same le filled
        obtain ⟨window, owesWindow, spread, goesOn⟩ := filled (count, more) rfl
        simp only at same
        rw [same]
        by_cases finished : (next.table.first.isNone && !more) = true
        · rw [if_pos finished]
          exact ⟨window, taken, window, [], rfl, spread, by simpa using all.append_right window,
            owesWindow.mono owesWindow.ready.1, le, .inl owesWindow.ready.2, nofun⟩
        · rw [if_neg finished]
          have progress : search.windowEnd < next.windowEnd := by
            apply goesOn
            cases more with
            | true => exact .inl rfl
            | false => exact .inr (by simpa using finished)
          have upper : next.windowEnd ≤ noMoreDocs := owesWindow.inside
          have fewer : (noMoreDocs - next.windowEnd).toNat < windows := by
            clear same fill
            lia
          obtain ⟨news, takenLater, kept, lost, ends⟩ := ih { next with pending := next.table.first }
            ⟨inner, sink.hits ++ taken⟩ (.windowFilled next.windowEnd count more :: events) owesWindow fewer
          have stage : (taken ++ window ++ []).Perm (owed ++ window) := by
            rw [List.append_nil]
            exact all.append_right window
          refine ⟨window ++ news, taken ++ takenLater, kept, lost, ?_,
            spread.append ends.fresh le ends.le, balance_trans stage ends.balance, ends.owes, le.trans ends.le,
            ends.abreast, ends.failed⟩
          rw [ends.offered, List.append_assoc]

theorem drain_ends (forward : Forward holds) (bound : DocId) (search : WindowedSearch S σ)
    (sink : Offered S κ) (owes : Owes (InStep holds) search owed) :
    ∃ news taken kept lost, Ends holds search owed sink (search.drain sink bound) news taken kept lost := by
  refine drainWithin_ends forward bound moveLimit search sink [] owes ?_
  have nonneg := owes.nonneg
  unfold noMoreDocs moveLimit
  lia

structure AllEnd (holds : σ → Prop) (search : WindowedSearch S σ) (calls : List (κ × DocId))
    (news kept lost : List (Hit S)) : Prop where
  fresh : Spread search.windowEnd (search.afterCalls calls).windowEnd news
  balance : (offers (search.drains calls) ++ kept ++ lost).Perm news
  owes : Owes (fun _ => AllHold holds) (search.afterCalls calls) kept
  le : search.windowEnd ≤ (search.afterCalls calls).windowEnd
  failed : ∀ answer ∈ search.drains calls, ∀ failure, answer.2.outcome = .error failure →
    Collector.Refuses κ failure ∨ Scorer.Fails holds failure

theorem AllEnd.snoc {news kept lost more taken left missed : List (Hit S)} {calls : List (κ × DocId)}
    {sink : κ} {bound : DocId} (all : AllEnd holds search calls news kept lost)
    (ends : Ends holds (search.afterCalls calls) kept ⟨sink, []⟩
      ((search.afterCalls calls).drain (⟨sink, []⟩ : Offered S κ) bound) more taken left missed) :
    AllEnd holds search (calls ++ [(sink, bound)]) (news ++ more) left (lost ++ missed) := by
  refine ⟨?_, ?_, ?_, ?_, ?_⟩
  · rw [afterCalls_snoc]
    exact all.fresh.append ends.fresh all.le ends.le
  · have start : (offers (search.drains calls) ++ kept ++ lost).Perm ([] ++ news) := all.balance
    rw [offers_snoc, ends.offered]
    exact balance_trans start ends.balance
  · rw [afterCalls_snoc]
    exact ends.owes
  · rw [afterCalls_snoc]
    exact all.le.trans ends.le
  · rw [drains_snoc, List.forall_mem_append, List.forall_mem_singleton]
    exact ⟨all.failed, ends.failed⟩

theorem drains_end (forward : Forward holds) (calls : List (κ × DocId))
    (owes : Owes (InStep holds) search [])
    (abreast : ∀ answer ∈ search.drains calls, ∀ failure, answer.2.outcome = .error failure →
      Scorer.Fails holds failure → Abreast answer.2.rest.windowEnd answer.2.rest.clauses) :
    ∃ news kept lost, AllEnd holds search calls news kept lost ∧
      Abreast (search.afterCalls calls).windowEnd (search.afterCalls calls).clauses := by
  induction calls using List.reverseRecOn with
  | nil =>
    exact ⟨[], [], [], ⟨spread_nil _ _, .nil, owes.mono owes.ready.1, le_rfl,
      fun answer member => absurd member List.not_mem_nil⟩, owes.ready.2⟩
  | append_singleton calls call ih =>
    obtain ⟨sink, bound⟩ := call
    rw [drains_snoc, List.forall_mem_append, List.forall_mem_singleton] at abreast
    obtain ⟨news, kept, lost, all, between⟩ := ih abreast.1
    obtain ⟨more, taken, left, missed, ends⟩ := drain_ends forward bound (search.afterCalls calls) ⟨sink, []⟩
      (all.owes.mono ⟨all.owes.ready, between⟩)
    refine ⟨news ++ more, left, lost ++ missed, all.snoc ends, ?_⟩
    rw [afterCalls_snoc]
    rcases ends.abreast with stands | ⟨failure, failed, fails⟩
    · exact stands
    · exact abreast.2 failure failed fails

omit [Collector S κ] in
theorem ofClauses_owes {clauses excluded : List σ}
    (fresh : ∀ scorer ∈ clauses ++ excluded, holds scorer ∧ Cursor.doc scorer = unpositioned) {minimum : Nat}
    {coordination : CoordinationTable S} {settings : Settings}
    (made : ofClauses clauses excluded minimum coordination settings = .ok search) :
    Owes (InStep holds) search [] ∧ search.windowEnd = 0 := by
  rw [ofClauses] at made
  cases valid : settings.validate with
  | error failure =>
    rw [valid] at made
    cases made
  | ok accepted =>
    obtain ⟨positive, small⟩ := settings.tableSize_le valid
    rw [valid] at made
    change (if clauses.length = 0 then _ else _) = _ at made
    split at made
    · cases made
    split at made
    · cases made
    split at made
    · cases made
    cases made
    have starts : ∀ clause : WindowedClause σ,
        clause ∈ clauses.map (⟨·, false, true⟩) ++ excluded.map (⟨·, true, true⟩) →
        holds clause.scorer ∧ Cursor.doc clause.scorer = unpositioned := by
      intro clause member
      rcases List.mem_append.mp member with optional | prohibited
      · obtain ⟨scorer, listed, rfl⟩ := List.mem_map.mp optional
        exact fresh scorer (List.mem_append_left _ listed)
      · obtain ⟨scorer, listed, rfl⟩ := List.mem_map.mp prohibited
        exact fresh scorer (List.mem_append_right _ listed)
    have inStep : InStep holds 0
        (clauses.map (⟨·, false, true⟩) ++ excluded.map (⟨·, true, true⟩) : List (WindowedClause σ)) :=
      ⟨fun clause member => (starts clause member).1,
        fun clause member _ => .inr ⟨(starts clause member).2, rfl⟩⟩
    refine ⟨⟨le_rfl, show (0 : DocId) ≤ noMoreDocs by decide, ?_, inStep, fun slot => ?_, [], .done, .nil,
      rfl⟩, rfl⟩
    · change ((settings.bucketTableSize.toNat - 1 : Nat) : Int) + 1 ≤ noMoreDocs
      omega
    · simp [BucketTable.empty, unpositioned]

/-- Calls with any bounds and collectors, over clauses that may fail at any move and at any score. Where each
call that fails in a clause leaves the clauses abreast, no document is offered twice, calls fail only where
a hit is refused or a clause fails, and what is pending is a list of different buckets. -/
theorem calls_offer_once_while_abreast (forward : Forward holds) {clauses excluded : List σ}
    (fresh : ∀ scorer ∈ clauses ++ excluded, holds scorer ∧ Cursor.doc scorer = unpositioned) {minimum : Nat}
    {coordination : CoordinationTable S} {settings : Settings}
    (made : ofClauses clauses excluded minimum coordination settings = .ok search)
    (calls : List (κ × DocId)) (sink : κ) (bound : DocId)
    (abreast : ∀ answer ∈ search.drains calls, ∀ failure, answer.2.outcome = .error failure →
      Scorer.Fails holds failure → Abreast answer.2.rest.windowEnd answer.2.rest.clauses) :
    ((offers (search.drains (calls ++ [(sink, bound)]))).map (·.doc)).Nodup ∧
      (∀ hit ∈ offers (search.drains (calls ++ [(sink, bound)])), IsReal hit.doc) ∧
      (∀ answer ∈ search.drains (calls ++ [(sink, bound)]), ∀ failure, answer.2.outcome = .error failure →
        Collector.Refuses κ failure ∨ Scorer.Fails holds failure) ∧
      ∃ slots, Linked (search.afterCalls (calls ++ [(sink, bound)])).table.buckets
        (search.afterCalls (calls ++ [(sink, bound)])).pending slots ∧ slots.Nodup := by
  obtain ⟨owes, start⟩ := ofClauses_owes fresh made
  obtain ⟨news, kept, lost, all, between⟩ := drains_end forward calls owes abreast
  obtain ⟨more, taken, left, missed, ends⟩ := drain_ends forward bound (search.afterCalls calls) ⟨sink, []⟩
    (all.owes.mono ⟨all.owes.ready, between⟩)
  have whole := all.snoc ends
  have distinct := (whole.balance.map (·.doc)).nodup_iff.mpr whole.fresh.distinct
  rw [List.append_assoc, List.map_append] at distinct
  obtain ⟨slots, linked, different, -⟩ := whole.owes.pending
  refine ⟨(List.nodup_append.mp distinct).1, fun hit member => ?_, whole.failed, slots, linked, different⟩
  obtain ⟨low, high⟩ := whole.fresh.inside hit
    (whole.balance.subset (List.mem_append_left _ (List.mem_append_left _ member)))
  rw [start] at low
  exact ⟨low, high.trans_le whole.owes.inside⟩

def stumblesTo9 : Stumbling (TermScorer PostingList ℚ) :=
  ⟨⟨.fresh [.ofDoc 1, .ofDoc 9], .constant 1 1⟩,
    [none, none, some ⟨.posting .notOnDocument, true⟩]⟩

/-- A move that fails behind the first window has left this window, so the next call goes on with the second
one. -/
theorem second_window_after_failed_move :
    ∃ search : WindowedSearch ℚ (Stumbling (TermScorer PostingList ℚ)),
      ofClauses [stumblesTo9] [] 0 (.disabled 1) { Settings.standard with bucketTableSize := 8 } = .ok search ∧
      ((offers (search.drains [((⟨#[], true⟩ : HitList ℚ), noMoreDocs), (⟨#[], true⟩, noMoreDocs)])).map
        (·.doc)).Nodup ∧
      (search.drains [((⟨#[], true⟩ : HitList ℚ), noMoreDocs), (⟨#[], true⟩, noMoreDocs)]).map
          (fun answer => answer.2.outcome) = [.error (.posting .notOnDocument), .ok false] ∧
      (offers (search.drains [((⟨#[], true⟩ : HitList ℚ), noMoreDocs), (⟨#[], true⟩, noMoreDocs)])).map
        (·.doc) = [9] := by
  have accepted : Posting.Accepted [.ofDoc 1, .ofDoc 9] := ⟨rfl, by decide⟩
  have denotes := TermScorer.denotes_of_ofPostings (S := ℚ) rfl accepted (.constant 1 1)
  have forward : Forward fun stumbling : Stumbling (TermScorer PostingList ℚ) =>
    ∃ meaning : Meaning ℚ, Refines stumbling.scorer meaning := forward_of_refines.stumbling
  have fresh : ∀ scorer ∈ [stumblesTo9] ++ [], (∃ meaning : Meaning ℚ, Refines scorer.scorer meaning) ∧
      Cursor.doc scorer = unpositioned := by
    intro scorer member
    cases List.mem_singleton.mp member
    exact ⟨⟨_, denotes.refines⟩, denotes.fresh⟩
  have made : ofClauses [stumblesTo9] [] 0 (.disabled 1 : CoordinationTable ℚ)
    { Settings.standard with bucketTableSize := 8 } = .ok _ := rfl
  refine ⟨_, made, (calls_offer_once_while_abreast forward fresh made
    [((⟨#[], true⟩ : HitList ℚ), noMoreDocs)] ⟨#[], true⟩ noMoreDocs ?_).1, by decide +kernel,
    by decide +kernel⟩
  intro answer member _ _ _
  cases List.mem_singleton.mp member
  decide +kernel

/-- A clause that is left a window behind. The first clause fails before its first move, and the others
still stand before the first window when the second window is filled. The document 2 then takes the bucket
of the document 0, which leads to itself from then on, and is offered until the collector refuses it. -/
theorem bucket_of_clause_left_behind_leads_to_itself :
    ∃ search : WindowedSearch ℚ (Stumbling (TermScorer PostingList ℚ)),
      ofClauses [⟨⟨.fresh [.ofDoc 100], .constant 1 1⟩, [some ⟨.posting .notOnDocument, false⟩]⟩,
          ⟨⟨.fresh [.ofDoc 0, .ofDoc 2], .constant 1 1⟩, []⟩,
          ⟨⟨.fresh [.ofDoc 2], .constant 1 1⟩, []⟩] [] 2 (.disabled 3)
        { Settings.standard with bucketTableSize := 2 } = .ok search ∧
      (offers (search.drains [((⟨{}, 2, 0⟩ : Limited (HitList ℚ)), noMoreDocs),
        (⟨{}, 2, 0⟩, noMoreDocs)])).map (·.doc) = [2, 2, 2] ∧
      (let after := search.afterCalls [((⟨{}, 2, 0⟩ : Limited (HitList ℚ)), noMoreDocs),
        (⟨{}, 2, 0⟩, noMoreDocs)]
      ∃ slot, after.pending = some slot ∧ (after.table.buckets.get slot).next = some slot) :=
  ⟨_, rfl, by decide +kernel, by decide +kernel⟩

end WindowedSearch

end PostingQuery
