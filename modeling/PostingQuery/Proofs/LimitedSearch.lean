import Mathlib
import PostingQuery.Proofs.Search

/-!
Searches for a limited number of hits. A collector with a limit gets the hits that a search without one finds, in the
same order and as many as it has room for. The first hit beyond the limit ends the search, wherever it turns up: in
the middle of a window, or behind any document of a walk.
-/

namespace PostingQuery

open Collector (Willing deliver)

variable {S σ ρ κ α : Type}

theorem HitList.deliver_hits (list : HitList S) (hits : List (Hit S)) :
    (deliver list hits).hits.toList = list.hits.toList ++ hits := by
  induction hits generalizing list with
  | nil => exact (List.append_nil _).symm
  | cons hit hits ih =>
    rw [Collector.deliver_cons, ih, List.append_cons, ← Array.toList_push]
    rfl

namespace Limited

def room (sink : Limited κ) : Nat := sink.limit - sink.collected

variable [Collector S κ]

def take (sink : Limited κ) (hits : List (Hit S)) : Limited κ :=
  ⟨deliver sink.inner (hits.take sink.room), sink.limit, sink.collected + min sink.room hits.length⟩

@[simp]
theorem take_nil (sink : Limited κ) : sink.take ([] : List (Hit S)) = sink := by simp [take, deliver]

theorem take_of_full {sink : Limited κ} (full : sink.room = 0) (hits : List (Hit S)) : sink.take hits = sink := by
  simp [take, deliver, full]

@[simp]
theorem room_take (sink : Limited κ) (hits : List (Hit S)) : (sink.take hits).room = sink.room - hits.length := by
  simp only [take, room]
  lia

theorem take_append (sink : Limited κ) (hits more : List (Hit S)) :
    sink.take (hits ++ more) = (sink.take hits).take more := by
  have shared : min sink.room (hits ++ more).length =
      min sink.room hits.length + min (sink.room - hits.length) more.length := by
    rw [List.length_append]
    lia
  rw [take, List.take_append, Collector.deliver_append, shared, ← Nat.add_assoc, ← room_take]
  rfl

theorem collect_of_room (willing : Willing S κ) {sink : Limited κ} (some : 0 < sink.room) (hit : Hit S) :
    Collector.collect sink hit.doc hit.score = (.ok (), sink.take [hit]) := by
  obtain ⟨inner, collected⟩ := willing.collect_eq sink.inner hit.doc hit.score
  have notFull : ¬sink.limit ≤ sink.collected := by
    unfold room at some
    lia
  have one : min sink.room [hit].length = 1 := by
    rw [List.length_singleton]
    lia
  rw [take, one, List.take_of_length_le (show [hit].length ≤ sink.room from some)]
  simp only [Collector.collect, if_neg notFull, collected, deliver, List.foldl, Step.within]

theorem collect_of_full {sink : Limited κ} (full : sink.room = 0) (hit : Hit S) :
    Collector.collect sink hit.doc hit.score = (.error .terminated, sink) :=
  if_pos (Nat.sub_eq_zero_iff_le.mp full)

end Limited

/-- One step with a collector that keeps every hit, beside the same step with limited collectors. All find the same
hits. A collector with room for them ends like the first one, the others end the step with the hits that they take. -/
structure Rations [Collector S κ] (before : HitList S) (free : Step (ρ × HitList S) α)
    (limited : Limited κ → Step (ρ × Limited κ) α) (hits : List (Hit S)) : Prop where
  kept : free.2.2 = deliver before hits
  fits : ∀ sink, hits.length ≤ sink.room → limited sink = (free.1, (free.2.1, sink.take hits))
  exceeds : ∀ sink, sink.room < hits.length → ∃ left, limited sink = (.error .terminated, (left, sink.take hits))

def Drained.step {β : Type} (drained : Drained β κ α) : Step ((β × List Event) × κ) α :=
  (drained.outcome, ((drained.rest, drained.events), drained.sink))

namespace Rations

variable [Collector S κ] {before : HitList S} {free : Step (ρ × HitList S) α}
  {limited after : Limited κ → Step (ρ × Limited κ) α}

theorem idle (before : HitList S) (answer : Except Failure α) (rest : ρ) :
    Rations before (answer, (rest, before)) (fun sink : Limited κ => (answer, (rest, sink))) [] where
  kept := rfl
  fits sink _ := by rw [Limited.take_nil]
  exceeds sink few := absurd few (Nat.not_lt_zero _)

theorem behind {hits more : List (Hit S)} (rest : Rations (deliver before hits) free after more)
    (fits : ∀ sink, hits.length ≤ sink.room → limited sink = after (sink.take hits))
    (exceeds : ∀ sink, sink.room < hits.length →
      ∃ left, limited sink = (.error .terminated, (left, sink.take hits))) :
    Rations before free limited (hits ++ more) where
  kept := by rw [rest.kept, Collector.deliver_append]
  fits sink fit := by
    rw [List.length_append] at fit
    rw [fits sink (by lia), Limited.take_append]
    exact rest.fits _ (by rw [Limited.room_take]; lia)
  exceeds sink few := by
    rw [List.length_append] at few
    rw [Limited.take_append]
    by_cases fit : hits.length ≤ sink.room
    · rw [fits sink fit]
      exact rest.exceeds _ (by rw [Limited.room_take]; lia)
    · rw [Limited.take_of_full (by rw [Limited.room_take]; lia)]
      exact exceeds sink (not_le.mp fit)

theorem offer {doc : DocId} {value : S} {hits : List (Hit S)}
    (rest : Rations (Collector.collect before doc value).2 free after hits) (willing : Willing S κ)
    (accepts : ∀ sink next, Collector.collect sink doc value = (.ok (), next) → limited sink = after next)
    (refuses : ∀ sink failure next, Collector.collect sink doc value = (.error failure, next) →
      ∃ left, limited sink = (.error failure, (left, next))) :
    Rations before free limited (⟨doc, value⟩ :: hits) := by
  let hit : Hit S := ⟨doc, value⟩
  refine @behind S ρ κ α _ before free limited after [hit] hits rest (fun sink fit => ?_) fun sink few => ?_
  · exact accepts sink _ (Limited.collect_of_room willing fit hit)
  · have full : sink.room = 0 := Nat.lt_one_iff.mp few
    rw [Limited.take_of_full full]
    exact refuses sink _ _ (Limited.collect_of_full full hit)

theorem change {τ β : Type} {hits : List (Hit S)} (rations : Rations before free limited hits) (rebuild : ρ → τ)
    (answer : α → β) :
    Rations before (free.1.map answer, (rebuild free.2.1, free.2.2))
      (fun sink => ((limited sink).1.map answer, (rebuild (limited sink).2.1, (limited sink).2.2))) hits where
  kept := rations.kept
  fits sink fit := by rw [rations.fits sink fit]
  exceeds sink few := by
    obtain ⟨left, same⟩ := rations.exceeds sink few
    rw [same]
    exact ⟨rebuild left, rfl⟩

end Rations

namespace InOrder

variable [Scorer S ρ] [Collector S κ]

def feedOn {κ : Type} [Collector S κ] (bound : DocId) (moves : Nat) (scorer : ρ) (sink : κ) : Step (ρ × κ) Bool :=
  match Cursor.next scorer with
  | (.error failure, scorer) => (.error failure, (scorer, sink))
  | (.ok doc, scorer) => feed bound moves scorer sink doc

theorem feed_rations (willing : Willing S κ) (bound : DocId) (moves : Nat) (scorer : ρ) (before : HitList S)
    (doc : DocId) :
    ∃ hits, Rations before (feed bound moves scorer before doc)
      (fun sink : Limited κ => feed bound moves scorer sink doc) hits := by
  -- The induction is on the moves that may still be made, with a hit before each of them.
  induction moves generalizing scorer before doc with
  | zero => exact ⟨[], .idle ..⟩
  | succ moves ih =>
    simp only [feed]
    split
    next inside =>
      rcases Scorer.score scorer with ⟨failure | value, scored⟩
      · exact ⟨[], .idle ..⟩
      · have goesOn : ∃ hits, Rations (Collector.collect before doc value).2
            (feedOn bound moves scored (Collector.collect before doc value).2)
            (fun sink : Limited κ => feedOn bound moves scored sink) hits := by
          simp only [feedOn]
          rcases Cursor.next scored with ⟨failure | landing, moved⟩
          · exact ⟨[], .idle ..⟩
          · exact ih moved _ landing
        obtain ⟨hits, rest⟩ := goesOn
        refine ⟨⟨doc, value⟩ :: hits, rest.offer willing (fun sink next same => ?_)
          fun sink failure next same => ?_⟩
        · simp only [same]
          rfl
        · simp only [same]
          exact ⟨scored, rfl⟩
    next => exact ⟨[], .idle ..⟩

theorem drain_rations (willing : Willing S κ) (scorer : ρ) (before : HitList S) (bound : DocId) :
    ∃ hits, Rations before (drain scorer before bound) (fun sink : Limited κ => drain scorer sink bound) hits := by
  simp only [drain]
  split
  next => exact ⟨[], .idle ..⟩
  next doc placed _ => exact feed_rations willing bound moveLimit placed before doc

end InOrder

namespace WindowedSearch

variable [Score S] [Collector S κ]

theorem emit_rations (willing : Willing S κ) (bound : DocId) (visits : Nat) (search : WindowedSearch S σ)
    (before : HitList S) :
    ∃ hits, Rations before (emit bound visits search before)
      (fun sink : Limited κ => emit bound visits search sink) hits := by
  -- The induction is on the buckets that may still be visited. Those that are passed over or set aside offer
  -- nothing.
  induction visits generalizing search before with
  | zero => exact ⟨[], .idle ..⟩
  | succ visits ih =>
    simp only [emit]
    split
    next => exact ⟨[], .idle ..⟩
    next slot _ =>
      split
      next => exact ih _ before
      next =>
        split
        next => exact ih _ before
        next =>
          split
          next =>
            obtain ⟨hits, rest⟩ := ih _ _
            refine ⟨_, rest.offer willing (fun sink next same => ?_) fun sink failure next same => ?_⟩
            · simp only [same]
            · simp only [same]
              exact ⟨_, rfl⟩
          next => exact ih _ before

variable [Scorer S σ]

def drainOn {κ : Type} [Collector S κ] (bound : DocId) (windows : Nat) (events : List Event) :
    Step (WindowedSearch S σ × κ) Unit → Drained (WindowedSearch S σ) κ Bool
  | (.error failure, (search, sink)) => ⟨.error failure, search, sink, events.reverse⟩
  | (.ok (), (search, sink)) =>
    match search.table.first with
    | some first =>
      ⟨.ok true, { search with table := { search.table with first := none }, pending := some first }, sink,
        events.reverse⟩
    | none =>
      match search.fill with
      | (.error failure, search) => ⟨.error failure, search, sink, events.reverse⟩
      | (.ok (hits, more), search) =>
        let events := .windowFilled search.windowEnd hits more :: events
        let search := { search with pending := search.table.first }
        if search.pending.isNone && !more then ⟨.ok false, search, sink, events.reverse⟩
        else drainWithin bound windows search sink events

theorem drainWithin_eq_drainOn {κ : Type} [Collector S κ] (bound : DocId) (windows : Nat)
    (search : WindowedSearch S σ) (sink : κ) (events : List Event) :
    drainWithin bound (windows + 1) search sink events =
      drainOn bound windows events
        (emit bound moveLimit { search with table := { search.table with first := none } } sink) := by
  rw [drainWithin_succ]
  rcases emit bound moveLimit { search with table := { search.table with first := none } } sink with
    ⟨failure | ⟨⟩, emptied, list⟩
  · rfl
  · rfl

theorem drainWithin_rations (willing : Willing S κ) (bound : DocId) (windows : Nat) (search : WindowedSearch S σ)
    (before : HitList S) (events : List Event) :
    ∃ hits, Rations before (drainWithin bound windows search before events).step
      (fun sink : Limited κ => (drainWithin bound windows search sink events).step) hits := by
  -- The induction is on the windows that may still be filled. A window is filled without the collector, and what
  -- is pending is emitted before it.
  induction windows generalizing search before events with
  | zero => exact ⟨[], .idle ..⟩
  | succ windows ih =>
    have goesOn : ∀ answer (emptied : WindowedSearch S σ) (list : HitList S), ∃ hits,
        Rations list (drainOn bound windows events (answer, (emptied, list))).step
          (fun sink : Limited κ => (drainOn bound windows events (answer, (emptied, sink))).step) hits := by
      rintro (failure | ⟨⟩) emptied list
      · exact ⟨[], .idle ..⟩
      · simp only [drainOn]
        split
        next => exact ⟨[], .idle ..⟩
        next =>
          split
          next => exact ⟨[], .idle ..⟩
          next =>
            split
            next => exact ⟨[], .idle ..⟩
            next => exact ih _ list _
    simp only [drainWithin_eq_drainOn]
    obtain ⟨hits, emitted⟩ :=
      emit_rations willing bound moveLimit { search with table := { search.table with first := none } } before
    rcases same : emit bound moveLimit { search with table := { search.table with first := none } } before with
      ⟨answer, emptied, list⟩
    rw [same] at emitted
    obtain rfl : list = deliver before hits := emitted.kept
    obtain ⟨more, rest⟩ := goesOn answer emptied (deliver before hits)
    refine ⟨hits ++ more, rest.behind (fun sink fit => ?_) fun sink few => ?_⟩
    · rw [emitted.fits sink fit]
    · obtain ⟨left, refused⟩ := emitted.exceeds sink few
      rw [refused]
      exact ⟨(left, events.reverse), rfl⟩

end WindowedSearch

namespace BulkSearch

variable [Score S] [Scorer S σ] [Scorer S ρ] [Collector S κ]

theorem drainAll_rations (willing : Willing S κ) (search : BulkSearch S σ ρ) (before : HitList S) :
    ∃ hits, Rations before (search.drainAll before).step
      (fun sink : Limited κ => (search.drainAll sink).step) hits := by
  cases search with
  | windowed search =>
    obtain ⟨hits, rations⟩ := WindowedSearch.drainWithin_rations willing noMoreDocs moveLimit search before []
    exact ⟨hits, rations.change (fun left => (windowed left.1, left.2)) fun _ => ()⟩
  | inOrder scorer =>
    obtain ⟨hits, rations⟩ := InOrder.drain_rations willing scorer before noMoreDocs
    exact ⟨hits, rations.change (fun scorer => (inOrder scorer, [])) fun _ => ()⟩

theorem run_limited (willing : Willing S κ) {search : BulkSearch S σ ρ} {hits : List (Hit S)}
    (drained : (search.drainAll ({} : HitList S)).outcome = .ok ())
    (delivered : (search.drainAll ({} : HitList S)).sink = deliver {} hits) (inner : κ) (limit : Nat) :
    (search.run (⟨inner, limit, 0⟩ : Limited κ)).outcome =
        .ok (if limit < hits.length then .terminated else .completed) ∧
      (search.run (⟨inner, limit, 0⟩ : Limited κ)).sink =
        ⟨deliver inner (hits.take limit), limit, (hits.take limit).length⟩ := by
  obtain ⟨found, kept, fits, exceeds⟩ := drainAll_rations willing search ({} : HitList S)
  have same : found = hits := by
    have lists := congrArg (·.hits.toList) (kept.symm.trans delivered)
    simpa only [HitList.deliver_hits, List.nil_append] using lists
  subst same
  let sink : Limited κ := ⟨inner, limit, 0⟩
  have taken : sink.take found = ⟨deliver inner (found.take limit), limit, (found.take limit).length⟩ := by
    rw [Limited.take, List.length_take, Nat.zero_add]
    rfl
  change _ ∧ _ = (⟨deliver inner (found.take limit), limit, (found.take limit).length⟩ : Limited κ)
  rw [← taken]
  by_cases few : limit < found.length
  · obtain ⟨left, terminated⟩ := exceeds sink few
    have outcome : (search.drainAll sink).outcome = .error .terminated := congrArg (·.1) terminated
    have after : (search.drainAll sink).sink = sink.take found := congrArg (·.2.2) terminated
    rw [if_pos few, run, outcome]
    exact ⟨rfl, after⟩
  · have completed := fits sink (not_lt.mp few)
    have outcome : (search.drainAll sink).outcome = .ok () := (congrArg (·.1) completed).trans drained
    have after : (search.drainAll sink).sink = sink.take found := congrArg (·.2.2) completed
    rw [if_neg few, run, outcome]
    exact ⟨rfl, after⟩

end BulkSearch

namespace BooleanQuery

variable [Score S] [Scorer S σ] [Collector S κ] {required optional prohibited : List (Meaning S)}

omit [Collector S κ] in
theorem buildSearch_inOrder {query : BooleanQuery S σ} {anyOrder : Bool} (walked : query.isWindowed anyOrder = false)
    {scorer : BooleanScorer S σ} (built : query.build.outcome = .ok scorer) :
    (query.buildSearch anyOrder).outcome = .ok (.inOrder scorer) := by
  have unfolded : query.buildSearch anyOrder =
      if query.isWindowed anyOrder then
        Logged.andThen (.report (.windowed query.optional.length query.prohibited.length)) fun _ =>
          Logged.andThen (.silent (WindowedSearch.ofClauses query.optional query.prohibited query.minimum
            query.table query.settings)) fun search => .silent (.ok (BulkSearch.windowed search))
      else Logged.andThen query.build fun scorer => .silent (.ok (BulkSearch.inOrder scorer)) := rfl
  rw [unfolded, walked, if_neg Bool.false_ne_true, Logged.andThen, built]
  rfl

theorem buildSearch_finds_selected {query : BooleanQuery S σ} (must : AllDenote required query.required)
    (should : AllDenote optional query.optional) (mustNot : AllDenote prohibited query.prohibited)
    (valid : query.settings.validate = .ok ()) (anyOrder : Bool) :
    ∃ (search : BulkSearch S σ (BooleanScorer S σ)) (hits : List (Hit S)),
      (query.buildSearch anyOrder).outcome = .ok search ∧
      (search.drainAll ({} : HitList S)).outcome = .ok () ∧
      (search.drainAll ({} : HitList S)).sink = deliver {} hits ∧
      (hits.map (·.doc)).Nodup ∧
      (∀ doc, doc ∈ hits.map (·.doc) ↔
        doc ∈ Meaning.selected required optional prohibited query.minimum) ∧
      (query.isWindowed anyOrder = false → (hits.map (·.doc)).Pairwise (· < ·)) := by
  obtain ⟨scorer, built, denotes⟩ := build_denotes must should mustNot valid
  have keepsAll : Willing S (HitList S) := fun _ _ _ => rfl
  cases windowed : query.isWindowed anyOrder with
  | false =>
    obtain ⟨hits, delivers, drained, delivered⟩ := BulkSearch.drainAll_inOrder σ keepsAll denotes {}
    refine ⟨.inOrder scorer, hits, buildSearch_inOrder windowed built, drained, delivered,
      delivers.inOrder.imp LT.lt.ne, fun doc => ?_, fun _ => delivers.inOrder⟩
    rw [delivers.mem_docs, ← ofPlan_docs query must.length_eq should.length_eq mustNot.length_eq,
      and_iff_left_iff_imp]
    exact fun member => Meaning.real _ doc member
  | true =>
    rw [isWindowed, Bool.and_eq_true, Bool.and_eq_true, Bool.and_eq_true, List.isEmpty_iff, Bool.not_eq_true',
      List.isEmpty_eq_false_iff, decide_eq_true_iff] at windowed
    obtain ⟨⟨⟨rfl, noneRequired⟩, some⟩, few⟩ := windowed
    have positive : 0 < query.optional.length := List.length_pos_of_ne_nil some
    have covered : query.optional.length ≤ query.table.largest := by
      rw [table_largest]
      exact Nat.le_add_left _ _
    obtain ⟨search, made, drains⟩ := WindowedSearch.ofClauses_results keepsAll should mustNot valid some
      (few.trans positive) covered
    obtain ⟨hits, results, drained, delivered⟩ := drains {}
    have none : required = [] := by
      rw [noneRequired] at must
      exact List.forall₂_nil_right_iff.mp must
    refine ⟨.windowed search, hits, (query.buildSearch_eq noneRequired some few built made).1,
      congrArg (Except.map fun _ => ()) drained, delivered, results.distinct, fun doc => ?_,
      fun inOrder => by cases inOrder⟩
    rw [none]
    exact results.mem_selected doc

/-- A search for a limited number of hits passes on as many of them as there are documents that match, but no more
than its limit: each a document that matches, none of them twice. It is terminated if there are more documents, and
completed if there are not, also where the limit is just reached. A search that is not windowed passes on the first of
the documents, in increasing order. -/
theorem limited_search_passes_on_first_hits (willing : Willing S κ) {query : BooleanQuery S σ}
    (must : AllDenote required query.required) (should : AllDenote optional query.optional)
    (mustNot : AllDenote prohibited query.prohibited) (valid : query.settings.validate = .ok ()) (anyOrder : Bool) :
    ∃ search : BulkSearch S σ (BooleanScorer S σ), (query.buildSearch anyOrder).outcome = .ok search ∧
      ∀ (inner : κ) (limit : Nat), ∃ hits : List (Hit S),
        let matching := Meaning.selected required optional prohibited query.minimum
        let run := search.run (⟨inner, limit, 0⟩ : Limited κ)
        run.outcome = .ok (if limit < matching.card then .terminated else .completed) ∧
        run.sink = ⟨deliver inner hits, limit, hits.length⟩ ∧
        hits.length = min limit matching.card ∧
        (hits.map (·.doc)).Nodup ∧
        (∀ hit ∈ hits, hit.doc ∈ matching) ∧
        (query.isWindowed anyOrder = false → hits.map (·.doc) = matching.sort.take limit) := by
  obtain ⟨search, hits, built, drained, delivered, distinct, visited, ordered⟩ :=
    buildSearch_finds_selected must should mustNot valid anyOrder
  have all : (hits.map (·.doc)).toFinset = Meaning.selected required optional prohibited query.minimum := by
    ext doc
    rw [List.mem_toFinset, visited]
  have count : (Meaning.selected required optional prohibited query.minimum).card = hits.length := by
    rw [← all, List.toFinset_card_of_nodup distinct, List.length_map]
  refine ⟨search, built, fun inner limit => ⟨hits.take limit, ?_⟩⟩
  obtain ⟨outcome, sink⟩ := BulkSearch.run_limited willing drained delivered inner limit
  dsimp only
  rw [count]
  refine ⟨outcome, sink, List.length_take, ?_, fun hit member => ?_, fun walked => ?_⟩
  · rw [List.map_take]
    exact distinct.sublist (List.take_sublist _ _)
  · exact (visited hit.doc).mp (List.mem_map_of_mem (List.mem_of_mem_take member))
  · have sorted : (hits.map (·.doc)).Pairwise (· ≤ ·) := (ordered walked).imp le_of_lt
    rw [List.map_take, ← all, (List.toFinset_sort _ distinct).mpr sorted]

/-- Two documents match, each in a window of its own. A limit of one hit terminates the search, and a limit of two is
just enough. -/
theorem limits_of_two_documents :
    ∃ search, (BooleanQuery.buildSearch ⟨[], [⟨.fresh [.ofDoc 1, .ofDoc 5], .constant (1 : ℚ) 1⟩], [], 1,
        CoordinationPolicy.share, { Settings.standard with bucketTableSize := 2 }⟩ true).outcome =
        .ok (search : BulkSearch ℚ (TermScorer PostingList ℚ) (BooleanScorer ℚ (TermScorer PostingList ℚ))) ∧
      (search.run (⟨{}, 1, 0⟩ : Limited (HitList ℚ))).outcome = .ok .terminated ∧
      (search.run (⟨{}, 1, 0⟩ : Limited (HitList ℚ))).sink.collected = 1 ∧
      (search.run (⟨{}, 2, 0⟩ : Limited (HitList ℚ))).outcome = .ok .completed ∧
      (search.run (⟨{}, 2, 0⟩ : Limited (HitList ℚ))).sink.collected = 2 := by
  have listed : Posting.Accepted [.ofDoc 1, .ofDoc 5] := ⟨rfl, by decide⟩
  have denotes := TermScorer.denotes_of_ofPostings (S := ℚ) rfl listed (.constant 1 1)
  have docs : ∀ doc, doc ∈ (TermScorer.meaning listed (.constant (1 : ℚ) 1)).docs ↔ doc = 1 ∨ doc = 5 :=
    fun doc => by simp [TermScorer.meaning, Meaning.leaf, Posting.docs, Posting.ofDoc]
  have two : (Meaning.selected [] [TermScorer.meaning listed (.constant (1 : ℚ) 1)] [] 1).card = 2 := by
    have both : Meaning.selected [] [TermScorer.meaning listed (.constant (1 : ℚ) 1)] [] 1 = {1, 5} := by
      ext doc
      rw [Meaning.mem_selected, Finset.mem_insert, Finset.mem_singleton]
      by_cases member : doc = 1 ∨ doc = 5
      · have real : IsReal doc := by rcases member with rfl | rfl <;> decide
        simp [Meaning.matching, docs, member, real]
      · simp [Meaning.matching, docs, member]
    rw [both]
    rfl
  obtain ⟨search, built, limited⟩ := @limited_search_passes_on_first_hits ℚ _ (HitList ℚ) _ _ _ [] _ _
    (fun _ _ _ => rfl) ⟨[], _, _, 1, CoordinationPolicy.share, { Settings.standard with bucketTableSize := 2 }⟩
    .nil (.cons denotes .nil) .nil rfl true
  obtain ⟨first, terminated, firstSink, firstLength, -⟩ := limited {} 1
  obtain ⟨both, completed, bothSink, bothLength, -⟩ := limited {} 2
  dsimp only at terminated firstSink firstLength completed bothSink bothLength
  rw [two] at terminated firstLength completed bothLength
  refine ⟨search, built, terminated, ?_, completed, ?_⟩
  · rw [firstSink, firstLength]
    rfl
  · rw [bothSink, bothLength]
    rfl

end BooleanQuery

end PostingQuery
