import Mathlib
import PostingQuery.Proofs.Resume

/-!
Bulk searches that are drained in several calls with any bounds, with collectors that take every hit. The
calls share out the documents of one search: a call delivers what lies before its bound and has not been
delivered yet, and nothing else. A bound may lie before an earlier one, or before all documents.
-/

namespace PostingQuery

open BucketTable (gathered)

variable {S σ ρ κ : Type}

section Offered

variable [Collector S κ]

theorem Collector.Willing.offered (willing : Willing S κ) : Willing S (Offered S κ) :=
  fun sink doc score => willing sink.inner doc score

theorem Offered.deliver_hits (sink : Offered S κ) (hits : List (Hit S)) :
    (Collector.deliver sink hits).hits = sink.hits ++ hits := by
  induction hits generalizing sink with
  | nil => exact (List.append_nil _).symm
  | cons hit hits ih =>
    rw [Collector.deliver_cons, ih]
    exact List.append_assoc _ [hit] hits

end Offered

theorem delivers_self (meaning : Meaning S) (low : DocId) : Delivers meaning low low [] :=
  ⟨.nil, fun doc => by simp, nofun⟩

theorem Delivers.append {meaning : Meaning S} {low middle bound : DocId} {hits more : List (Hit S)}
    (first : Delivers meaning low middle hits) (second : Delivers meaning middle bound more)
    (le : low ≤ middle) (inside : middle ≤ bound) : Delivers meaning low bound (hits ++ more) where
  inOrder := by
    rw [List.map_append, List.pairwise_append]
    refine ⟨first.inOrder, second.inOrder, fun doc member other listed => ?_⟩
    exact ((first.mem_docs doc).mp member).2.2.trans_le ((second.mem_docs other).mp listed).2.1
  mem_docs doc := by
    rw [List.map_append, List.mem_append, first.mem_docs, second.mem_docs, ← and_or_left]
    refine and_congr_right fun _ => ?_
    lia
  scored := List.forall_mem_append.mpr ⟨first.scored, second.scored⟩

namespace InOrder

variable [Collector S κ] [Scorer S σ] {meaning : Meaning S} {scorer : σ} {low bound : DocId}

theorem feed_of_le {doc : DocId} (le : bound ≤ doc) (scorer : σ) (sink : κ) :
    feed bound moveLimit scorer sink doc = (.ok (doc != noMoreDocs), (scorer, sink)) := by
  obtain ⟨moves, same⟩ : ∃ moves, moveLimit = moves + 1 := ⟨moveLimit - 1, rfl⟩
  rw [same, feed, if_neg (not_lt.mpr le)]

/-- A bound that is not beyond the place where a scorer waits is as good as this place. -/
theorem drain_eq_of_le (waiting : Waiting meaning low scorer) (nonneg : 0 ≤ low) (le : bound ≤ low)
    (sink : κ) : drain scorer sink bound = drain scorer sink low := by
  unfold drain
  -- Whether or not a first move is made, the document to begin with lies beyond both bounds.
  rcases waiting.place with lands | ⟨fresh, rfl⟩
  · simp only [if_neg (not_lt.mpr (nonneg.trans lands.reached))]
    rw [feed_of_le (le.trans lands.reached), feed_of_le lands.reached]
  · have before : Cursor.doc scorer < 0 := by
      rw [fresh]
      decide
    obtain ⟨landing, after, same, arrival, -⟩ := waiting.refines.next (by rw [fresh]; decide)
    rw [fresh] at arrival
    have reached : 0 ≤ landing := arrival.2.reached
    simp only [if_pos before, same]
    rw [feed_of_le (le.trans reached), feed_of_le reached]

theorem drain_resumes (willing : Collector.Willing S κ) (waiting : Waiting meaning low scorer) (sink : κ)
    (nonneg : 0 ≤ low) (reach : low ≤ noMoreDocs) (inside : bound ≤ noMoreDocs) :
    ∃ hits, Delivers meaning low (max low bound) hits ∧
      (drain scorer sink bound).Yields fun left after =>
        after.2 = Collector.deliver sink hits ∧ Waiting meaning (max low bound) after.1 ∧
          (left = false ↔ ∀ doc ∈ meaning.docs, doc < max low bound) := by
  rcases le_total low bound with le | le
  · rw [max_eq_right le]
    exact drain_yields willing waiting sink nonneg le inside
  · rw [max_eq_left le, drain_eq_of_le waiting nonneg le]
    exact drain_yields willing waiting sink nonneg le_rfl reach

end InOrder

noncomputable def Meaning.windowed [Score S] (optional prohibited : List (Meaning S)) (minimum : Nat)
    (coordination : CoordinationTable S) : Meaning S where
  docs := selected [] optional prohibited minimum
  real _ member := (mem_selected.mp member).1
  scores doc score := ∃ scores, List.Forall₂ (fun clause => clause.scores doc) (matching optional doc) scores ∧
    score = Score.scaled (gathered scores) (coordination.factor scores.length)
  tallies _ _ := True
  counts _ _ := True

theorem Results.perm [Score S] {labels : List (LabeledMeaning S)} {minimum : Nat}
    {coordination : CoordinationTable S} {low bound : DocId} {hits others : List (Hit S)}
    (results : Results labels minimum coordination low bound hits) (perm : others.Perm hits) :
    Results labels minimum coordination low bound others where
  distinct := (perm.map (·.doc)).nodup_iff.mpr results.distinct
  mem_docs doc := (perm.map (·.doc)).mem_iff.trans (results.mem_docs doc)
  scored hit member := results.scored hit (perm.subset member)

theorem Results.mem_windowed [Score S] {optional prohibited : List (Meaning S)} {minimum : Nat}
    {coordination : CoordinationTable S} {bound : DocId} {hits : List (Hit S)}
    (results : Results (labeled optional prohibited) minimum coordination 0 bound hits)
    (inside : bound ≤ noMoreDocs) {hit : Hit S} (member : hit ∈ hits) :
    hit.doc ∈ (Meaning.windowed optional prohibited minimum coordination).docs ∧
      (Meaning.windowed optional prohibited minimum coordination).scores hit.doc hit.score := by
  obtain ⟨range, wanted⟩ := (results.mem_docs hit.doc).mp (List.mem_map_of_mem member)
  obtain ⟨none, -, -⟩ := wanted_iff.mp wanted
  obtain ⟨scores, each, scored⟩ := results.scored hit member
  rw [matched_labeled, none, labeled, List.map_nil, List.append_nil, List.forall₂_map_left_iff] at each
  exact ⟨mem_selected_iff_wanted.mpr ⟨⟨range.1, range.2.trans_le inside⟩, wanted⟩, scores, each, scored⟩

namespace WindowedSearch

def AllUsed (clauses : List (WindowedClause σ)) : Prop := ∀ clause ∈ clauses, clause.more = false

structure Spent [Score S] (search : WindowedSearch S σ) : Prop where
  pending : search.pending = none
  used : AllUsed search.clauses

variable [Score S] [Scorer S σ]

theorem fillFrom_of_allUsed {last : Nat} {clauses : List (WindowedClause σ)} (used : AllUsed clauses)
    (bound : DocId) (table : BucketTable S last) (hits : Nat) (more : Bool) :
    fillFrom bound clauses table hits more = (.ok (hits, more), (clauses, table)) := by
  induction clauses with
  | nil => rfl
  | cons clause clauses ih =>
    obtain ⟨first, rest⟩ := List.forall_mem_cons.mp used
    rw [fillFrom, first, if_neg Bool.false_ne_true, ih rest]
    rfl

theorem allUsed_of_fillFrom {last : Nat} {clauses after : List (WindowedClause σ)} {bound : DocId}
    {table filled : BucketTable S last} {hits count : Nat} {more : Bool}
    (same : fillFrom bound clauses table hits more = (.ok (count, false), (after, filled))) :
    more = false ∧ AllUsed after := by
  induction clauses generalizing table hits more after with
  | nil =>
    cases same
    exact ⟨rfl, nofun⟩
  | cons clause clauses ih =>
    rw [fillFrom] at same
    split at same
    · rcases drained : InOrder.drain clause.scorer (⟨table, clause.prohibited, 0⟩ : BucketSink S last) bound
        with ⟨failure | left, scorer, sink⟩
      · simp only [drained] at same
        cases same
      · simp only [drained] at same
        rcases rest : fillFrom bound clauses sink.table (hits + sink.collected) (more || left) with
          ⟨answer, others, table⟩
        rw [rest] at same
        cases same
        obtain ⟨neither, used⟩ := ih rest
        rw [Bool.or_eq_false_iff] at neither
        exact ⟨neither.1, List.forall_mem_cons.mpr ⟨neither.2, used⟩⟩
    · next usedUp =>
      rcases rest : fillFrom bound clauses table hits more with ⟨answer, others, table⟩
      rw [rest] at same
      cases same
      obtain ⟨none, used⟩ := ih rest
      exact ⟨none, List.forall_mem_cons.mpr ⟨Bool.not_eq_true _ ▸ usedUp, used⟩⟩

theorem fill_of_allUsed {search : WindowedSearch S σ} (used : AllUsed search.clauses) :
    search.fill = (.ok (0, false),
      { search with windowEnd := min (search.windowEnd + (search.last + 1)) noMoreDocs }) := by
  rw [fill, fillFrom_of_allUsed used]
  rfl

theorem allUsed_of_fill {search next : WindowedSearch S σ} {count : Nat}
    (filled : search.fill = (.ok (count, false), next)) : AllUsed next.clauses := by
  rw [fill] at filled
  rcases same : fillFrom (min (search.windowEnd + (search.last + 1)) noMoreDocs) search.clauses search.table 0
    false with ⟨answer, clauses, table⟩
  rw [same] at filled
  cases filled
  exact (allUsed_of_fillFrom same).2

variable [Collector S κ]

theorem drainWithin_spent (bound : DocId) (windows : Nat) (search : WindowedSearch S σ) (sink : κ)
    (events : List Event) (ended : (drainWithin bound windows search sink events).outcome = .ok false) :
    Spent (drainWithin bound windows search sink events).rest := by
  induction windows generalizing search sink events with
  | zero => cases ended
  | succ windows ih =>
    rw [drainWithin_succ] at ended ⊢
    rcases walked : emit bound moveLimit { search with table := { search.table with first := none } } sink with
      ⟨failure | done, after, sink⟩
    · rw [walked] at ended
      cases ended
    · cases first : after.table.first with
      | some slot =>
        simp only [walked, first] at ended
        cases ended
      | none =>
        simp only [walked, first] at ended ⊢
        rcases filled : after.fill with ⟨failure | ⟨count, more⟩, next⟩
        · rw [filled] at ended
          cases ended
        · simp only [filled] at ended ⊢
          by_cases finished : (next.table.first.isNone && !more) = true
          · rw [if_pos finished]
            rw [Bool.and_eq_true, Option.isNone_iff_eq_none, Bool.not_eq_true'] at finished
            rw [finished.2] at filled
            have used := allUsed_of_fill filled
            exact ⟨finished.1, used⟩
          · rw [if_neg finished] at ended ⊢
            exact ih _ _ _ ended

theorem Spent.drain {search : WindowedSearch S σ} (spent : Spent search) (sink : κ) (bound : DocId) :
    (search.drain sink bound).outcome = .ok false ∧ (search.drain sink bound).sink = sink := by
  obtain ⟨rounds, same⟩ : ∃ rounds, moveLimit = rounds + 1 := ⟨moveLimit - 1, rfl⟩
  have nothing : emit bound moveLimit { search with table := { search.table with first := none } } sink =
      (.ok (), ({ search with table := { search.table with first := none } }, sink)) := by
    rw [same, emit, spent.pending]
  have filled : fill { search with table := { search.table with first := none } } = _ :=
    fill_of_allUsed spent.used
  have drained : search.drain sink bound = drainWithin bound (rounds + 1) search sink [] :=
    congrArg (drainWithin bound · search sink []) same
  rw [drained, drainWithin_succ, nothing]
  simp only [filled]
  exact ⟨rfl, rfl⟩

/-- A call behind others, with a collector that takes every hit. What the windows up to now hold has been
offered or is kept for later calls. -/
structure Serves (labels : List (LabeledMeaning S)) (search : WindowedSearch S σ) (calls : List (κ × DocId))
    (sink : κ) (bound : DocId) (answer : Bool) (kept : List (Hit S)) : Prop where
  answered : ((search.afterCalls calls).drain (⟨sink, []⟩ : Offered S κ) bound).outcome = .ok answer
  results : Results labels search.minimum search.coordination search.windowEnd
    (search.afterCalls (calls ++ [(sink, bound)])).windowEnd
    (offers (search.drains (calls ++ [(sink, bound)])) ++ kept)
  early : ∀ hit ∈ ((search.afterCalls calls).drain (⟨sink, []⟩ : Offered S κ) bound).sink.hits, hit.doc < bound
  late : ∀ hit ∈ kept, bound ≤ hit.doc
  finished : answer = false → kept = [] ∧
    ∀ label ∈ labels, ∀ doc ∈ label.1.docs, doc < (search.afterCalls (calls ++ [(sink, bound)])).windowEnd
  reached : answer = true → bound < (search.afterCalls (calls ++ [(sink, bound)])).windowEnd
  inside : (search.afterCalls (calls ++ [(sink, bound)])).windowEnd ≤ noMoreDocs
  byWindow : ∀ size, OneWindow size search [] →
    ByWindow size (offers (search.drains (calls ++ [(sink, bound)])))

theorem serves (willing : Collector.Willing S κ) {labels : List (LabeledMeaning S)}
    {search : WindowedSearch S σ} (owes : Owes (AllReady labels) search []) (calls : List (κ × DocId))
    (sink : κ) (bound : DocId) : ∃ answer kept, Serves labels search calls sink bound answer kept := by
  obtain ⟨news, held, lost, all⟩ := drains_settle calls search owes
  obtain ⟨more, taken, kept, missed, settles⟩ := drain_settles bound (search.afterCalls calls) ⟨sink, []⟩ all.owes
  have whole := all.snoc owes settles
  have answers : ∀ answer ∈ search.drains (calls ++ [(sink, bound)]), ∃ left, answer.2.outcome = .ok left := by
    intro answer member
    cases outcome : answer.2.outcome with
    | ok left => exact ⟨left, rfl⟩
    | error failure =>
      obtain ⟨after, doc, score, refused⟩ := whole.refused answer member failure outcome
      rw [willing after doc score] at refused
      cases refused
  obtain ⟨answer, answered⟩ := answers _ (by
    rw [drains_snoc]
    exact List.mem_append_right _ (List.mem_singleton_self _))
  have balance := whole.balance
  rw [whole.lossless fun answer member => .inl (answers answer member), List.append_nil, List.nil_append] at balance
  have offered := settles.offered
  rw [List.nil_append] at offered
  refine ⟨answer, kept, answered, whole.results.perm balance, ?_, settles.late ⟨answer, answered⟩, fun none => ?_,
    fun left => ?_, whole.owes.inside, fun size one => (List.pairwise_append.mp (whole.byWindow size one).1).1⟩
  · rw [offered]
    exact settles.early
  · rw [afterCalls_snoc]
    exact settles.finished (none ▸ answered)
  · rw [afterCalls_snoc]
    exact not_le.mp fun before => settles.whole before (left ▸ answered)

theorem Serves.mem_offers {optional prohibited : List (Meaning S)} {search : WindowedSearch S σ}
    {calls : List (κ × DocId)} {sink : κ} {bound doc : DocId} {answer : Bool} {kept : List (Hit S)}
    (serves : Serves (labeled optional prohibited) search calls sink bound answer kept)
    (fresh : search.windowEnd = 0) (member : doc ∈ Meaning.selected [] optional prohibited search.minimum)
    (due : doc < bound ∨ answer = false) :
    doc ∈ (offers (search.drains (calls ++ [(sink, bound)]))).map (·.doc) := by
  obtain ⟨real, wanted⟩ := mem_selected_iff_wanted.mp member
  have inside : doc < (search.afterCalls (calls ++ [(sink, bound)])).windowEnd := by
    cases answer with
    | true => exact (due.resolve_right (by decide)).trans (serves.reached rfl)
    | false =>
      obtain ⟨label, chosen⟩ := List.exists_mem_of_ne_nil _ wanted.some
      obtain ⟨listed, has⟩ := List.mem_filter.mp chosen
      exact (serves.finished rfl).2 label listed doc (of_decide_eq_true has)
  have listed := (serves.results.mem_docs doc).mpr ⟨⟨fresh ▸ real.1, inside⟩, wanted⟩
  rw [List.map_append, List.mem_append] at listed
  refine listed.resolve_right fun held => ?_
  obtain ⟨hit, inKept, rfl⟩ := List.mem_map.mp held
  rcases due with before | none
  · exact absurd (serves.late hit inKept) (not_le.mpr before)
  · rw [(serves.finished none).1] at inKept
    cases inKept

theorem spent_afterCalls (search : WindowedSearch S σ) (calls : List (κ × DocId))
    (ended : ∃ answer ∈ search.drains calls, answer.2.outcome = .ok false) : Spent (search.afterCalls calls) := by
  induction calls using List.reverseRecOn with
  | nil =>
    obtain ⟨answer, member, -⟩ := ended
    exact absurd member List.not_mem_nil
  | append_singleton calls call ih =>
    obtain ⟨answer, member, none⟩ := ended
    rw [drains_snoc, List.mem_append, List.mem_singleton] at member
    rw [afterCalls_snoc]
    refine drainWithin_spent call.2 moveLimit _ _ [] ?_
    rcases member with before | rfl
    · exact ((ih ⟨answer, before, none⟩).drain _ call.2).1
    · exact none

omit [Collector S κ] in
theorem Standing.owes_nothing {labels : List (LabeledMeaning S)} {search : WindowedSearch S σ}
    (standing : Standing labels 0 search) (fresh : search.windowEnd = 0) :
    Owes (AllReady labels) search [] := by
  obtain ⟨owed, owes, results⟩ := standing.owes
  have nothing : owed = [] := by
    refine List.eq_nil_iff_forall_not_mem.mpr fun hit member => ?_
    have range := ((results.mem_docs hit.doc).mp (List.mem_map_of_mem member)).1
    rw [fresh] at range
    exact absurd range.2 (not_lt.mpr range.1)
  exact nothing ▸ owes

omit [Scorer S σ] [Collector S κ] in
theorem last_of_made {clauses excluded : List σ} {minimum : Nat} {coordination : CoordinationTable S}
    {settings : Settings} {search : WindowedSearch S σ}
    (made : ofClauses clauses excluded minimum coordination settings = .ok search) :
    search.last = settings.bucketTableSize.toNat - 1 := by
  rw [ofClauses] at made
  cases valid : settings.validate with
  | error failure =>
    rw [valid] at made
    cases made
  | ok done =>
    rw [valid] at made
    change (if clauses.length = 0 then _ else _) = _ at made
    split at made
    · cases made
    · split at made
      · cases made
      · split at made
        · cases made
        · cases made
          rfl

end WindowedSearch

namespace BulkSearch

variable [Score S] [Scorer S σ] [Scorer S ρ] [Collector S κ]

def drains (search : BulkSearch S σ ρ) :
    List (κ × DocId) → List (Drained (BulkSearch S σ ρ) (Offered S κ) Bool)
  | [] => []
  | (sink, bound) :: calls =>
    let drained := search.drain (⟨sink, []⟩ : Offered S κ) bound
    drained :: drained.rest.drains calls

def afterCalls (search : BulkSearch S σ ρ) : List (κ × DocId) → BulkSearch S σ ρ
  | [] => search
  | (sink, bound) :: calls => (search.drain (⟨sink, []⟩ : Offered S κ) bound).rest.afterCalls calls

def delivered (search : BulkSearch S σ ρ) (calls : List (κ × DocId)) : List (Hit S) :=
  (search.drains calls).flatMap (·.sink.hits)

def callBehind (search : BulkSearch S σ ρ) (calls : List (κ × DocId)) (sink : κ) (bound : DocId) :
    Drained (BulkSearch S σ ρ) (Offered S κ) Bool :=
  (search.afterCalls calls).drain ⟨sink, []⟩ bound

theorem drains_snoc (search : BulkSearch S σ ρ) (calls : List (κ × DocId)) (sink : κ) (bound : DocId) :
    search.drains (calls ++ [(sink, bound)]) =
      search.drains calls ++ [search.callBehind calls sink bound] := by
  induction calls generalizing search with
  | nil => rfl
  | cons call calls ih => exact congrArg (_ :: ·) (ih _)

theorem afterCalls_snoc (search : BulkSearch S σ ρ) (calls : List (κ × DocId)) (sink : κ) (bound : DocId) :
    search.afterCalls (calls ++ [(sink, bound)]) = (search.callBehind calls sink bound).rest := by
  induction calls generalizing search with
  | nil => rfl
  | cons call calls ih => exact ih _

theorem delivered_snoc (search : BulkSearch S σ ρ) (calls : List (κ × DocId)) (sink : κ) (bound : DocId) :
    search.delivered (calls ++ [(sink, bound)]) =
      search.delivered calls ++ (search.callBehind calls sink bound).sink.hits := by
  rw [delivered, drains_snoc, List.flatMap_append, List.flatMap_singleton, delivered]

/-- What one more call does behind others, in a search that is to deliver the documents of a meaning. It
succeeds and delivers only such documents from before its bound. All of these have been delivered after it,
and none twice over all calls. It tells that nothing is left only where everything has been delivered, and a
call behind one that told so delivers nothing and tells the same. -/
structure Continues (meaning : Meaning S) (search : BulkSearch S σ ρ) (calls : List (κ × DocId)) (sink : κ)
    (bound : DocId) : Prop where
  succeeds : ∃ left, (search.callBehind calls sink bound).outcome = .ok left
  sound : ∀ hit ∈ (search.callBehind calls sink bound).sink.hits,
    hit.doc < bound ∧ hit.doc ∈ meaning.docs ∧ meaning.scores hit.doc hit.score
  complete : ∀ doc ∈ meaning.docs, doc < bound →
    doc ∈ (search.delivered (calls ++ [(sink, bound)])).map (·.doc)
  once : ((search.delivered (calls ++ [(sink, bound)])).map (·.doc)).Nodup
  finished : (search.callBehind calls sink bound).outcome = .ok false →
    ∀ doc ∈ meaning.docs, doc ∈ (search.delivered (calls ++ [(sink, bound)])).map (·.doc)
  spent : (∃ earlier ∈ search.drains calls, earlier.outcome = .ok false) →
    (search.callBehind calls sink bound).outcome = .ok false ∧
      (search.callBehind calls sink bound).sink.hits = []

variable {calls : List (κ × DocId)} {bound : DocId}

section InOrder

variable {meaning : Meaning S} {scorer left : ρ} {low : DocId}

/-- A search in document order between two calls. It waits at the largest bound so far. -/
structure Paused (σ : Type) [Scorer S σ] (meaning : Meaning S) (scorer : ρ) (calls : List (κ × DocId))
    (low : DocId) (left : ρ) : Prop where
  rest : (inOrder scorer : BulkSearch S σ ρ).afterCalls calls = inOrder left
  nonneg : 0 ≤ low
  inside : low ≤ noMoreDocs
  waiting : Waiting meaning low left
  delivers : Delivers meaning 0 low ((inOrder scorer : BulkSearch S σ ρ).delivered calls)
  spent : (∃ earlier ∈ (inOrder scorer : BulkSearch S σ ρ).drains calls, earlier.outcome = .ok false) →
    ∀ doc ∈ meaning.docs, doc < low

theorem Paused.snoc (willing : Collector.Willing S κ) (paused : Paused σ meaning scorer calls low left)
    (sink : κ) (inside : bound ≤ noMoreDocs) :
    ∃ answer after sinkAfter,
      (inOrder scorer : BulkSearch S σ ρ).callBehind calls sink bound = ⟨.ok answer, inOrder after, sinkAfter, []⟩ ∧
      (answer = false ↔ ∀ doc ∈ meaning.docs, doc < max low bound) ∧
      Delivers meaning low (max low bound) sinkAfter.hits ∧
      Paused σ meaning scorer (calls ++ [(sink, bound)]) (max low bound) after := by
  obtain ⟨hits, delivers, answer, ⟨after, sinkAfter⟩, same, taken, waiting, ends⟩ := InOrder.drain_resumes
    willing.offered paused.waiting (⟨sink, []⟩ : Offered S κ) paused.nonneg paused.inside inside
  have drained : (inOrder scorer : BulkSearch S σ ρ).callBehind calls sink bound =
      ⟨.ok answer, inOrder after, sinkAfter, []⟩ := by rw [callBehind, paused.rest, drain, same]
  have offered : sinkAfter.hits = hits := by
    change sinkAfter = _ at taken
    rw [taken, Offered.deliver_hits]
    rfl
  subst offered
  refine ⟨answer, after, sinkAfter, drained, ends, delivers, ?_, paused.nonneg.trans (le_max_left _ _),
    max_le paused.inside inside, waiting, ?_, ?_⟩
  · rw [afterCalls_snoc, drained]
  · rw [delivered_snoc, drained]
    exact paused.delivers.append delivers paused.nonneg (le_max_left _ _)
  · rintro ⟨earlier, listed, none⟩
    rw [drains_snoc, drained, List.mem_append, List.mem_singleton] at listed
    rcases listed with before | rfl
    · exact fun doc member => (paused.spent ⟨earlier, before, none⟩ doc member).trans_le (le_max_left _ _)
    · exact ends.mp (Except.ok.inj none)

theorem exists_paused (σ : Type) [Scorer S σ] (willing : Collector.Willing S κ)
    (denotes : Denotes scorer meaning) (calls : List (κ × DocId))
    (inside : ∀ call ∈ calls, call.2 ≤ noMoreDocs) :
    ∃ low left, Paused σ meaning scorer calls low left := by
  induction calls using List.reverseRecOn with
  | nil =>
    refine ⟨0, scorer, rfl, le_rfl, by decide, denotes.waiting, delivers_self meaning 0, ?_⟩
    rintro ⟨earlier, listed, -⟩
    exact absurd listed List.not_mem_nil
  | append_singleton calls call ih =>
    rw [List.forall_mem_append, List.forall_mem_singleton] at inside
    obtain ⟨low, left, paused⟩ := ih inside.1
    obtain ⟨-, after, -, -, -, -, pausedAfter⟩ := paused.snoc willing call.1 inside.2
    exact ⟨_, after, pausedAfter⟩

theorem continues_inOrder (willing : Collector.Willing S κ) (denotes : Denotes scorer meaning)
    (calls : List (κ × DocId)) (sink : κ) (inside : ∀ call ∈ calls, call.2 ≤ noMoreDocs)
    (bounded : bound ≤ noMoreDocs) :
    Continues meaning (inOrder scorer : BulkSearch S σ ρ) calls sink bound ∧
      (((inOrder scorer : BulkSearch S σ ρ).delivered (calls ++ [(sink, bound)])).map (·.doc)).Pairwise (· < ·) ∧
      (((inOrder scorer : BulkSearch S σ ρ).callBehind calls sink bound).outcome = .ok true ↔
        ∃ doc ∈ meaning.docs,
          doc ∉ ((inOrder scorer : BulkSearch S σ ρ).delivered (calls ++ [(sink, bound)])).map (·.doc)) := by
  obtain ⟨low, left, paused⟩ := exists_paused σ willing denotes calls inside
  obtain ⟨answer, after, sinkAfter, drained, ends, delivers, pausedAfter⟩ := paused.snoc willing sink bounded
  have sorted := pausedAfter.delivers.inOrder
  have mem_delivered : ∀ doc ∈ meaning.docs,
      (doc ∈ ((inOrder scorer : BulkSearch S σ ρ).delivered (calls ++ [(sink, bound)])).map (·.doc) ↔
        doc < max low bound) := fun doc member => by
    have real := meaning.real doc member
    rw [pausedAfter.delivers.mem_docs]
    exact ⟨fun ⟨_, _, before⟩ => before, fun before => ⟨member, real.1, before⟩⟩
  refine ⟨⟨?_, ?_, fun doc member before => ?_, sorted.imp LT.lt.ne, ?_, ?_⟩, sorted, ?_⟩
  · exact ⟨answer, by rw [drained]⟩
  · rw [drained]
    intro hit listed
    obtain ⟨member, from_low, before⟩ := (delivers.mem_docs hit.doc).mp (List.mem_map_of_mem listed)
    exact ⟨(lt_max_iff.mp before).resolve_left (not_lt.mpr from_low), member, delivers.scored hit listed⟩
  · exact (mem_delivered doc member).mpr (lt_max_of_lt_right before)
  · rw [drained]
    intro none doc member
    exact (mem_delivered doc member).mpr (ends.mp (Except.ok.inj none) doc member)
  · intro earlier
    have used := paused.spent earlier
    have none : answer = false := ends.mpr fun doc member => lt_max_of_lt_left (used doc member)
    rw [drained, none]
    refine ⟨rfl, List.eq_nil_iff_forall_not_mem.mpr fun hit listed => ?_⟩
    obtain ⟨member, from_low, -⟩ := (delivers.mem_docs hit.doc).mp (List.mem_map_of_mem listed)
    exact absurd (used hit.doc member) (not_lt.mpr from_low)
  · have whole : (∃ doc ∈ meaning.docs, ¬doc < max low bound) ↔ answer = true := by
      rw [← Bool.not_eq_false, ends]
      push Not
      rfl
    rw [drained, Except.ok.injEq, ← whole]
    refine exists_congr fun doc => and_congr_right fun member => not_congr (mem_delivered doc member).symm

end InOrder

section Windowed

variable {search : WindowedSearch S σ}

def ofWindowed (answer : DocId × Drained (WindowedSearch S σ) (Offered S κ) Bool) :
    Drained (BulkSearch S σ ρ) (Offered S κ) Bool :=
  ⟨answer.2.outcome, windowed answer.2.rest, answer.2.sink, answer.2.events⟩

theorem drains_windowed (search : WindowedSearch S σ) (calls : List (κ × DocId)) :
    (windowed search : BulkSearch S σ ρ).drains calls = (search.drains calls).map ofWindowed := by
  induction calls generalizing search with
  | nil => rfl
  | cons call calls ih => exact congrArg (_ :: ·) (ih _)

theorem afterCalls_windowed (search : WindowedSearch S σ) (calls : List (κ × DocId)) :
    (windowed search : BulkSearch S σ ρ).afterCalls calls = windowed (search.afterCalls calls) := by
  induction calls generalizing search with
  | nil => rfl
  | cons call calls ih => exact ih _

theorem callBehind_windowed (search : WindowedSearch S σ) (calls : List (κ × DocId)) (sink : κ)
    (bound : DocId) : (windowed search : BulkSearch S σ ρ).callBehind calls sink bound =
      ofWindowed (bound, (search.afterCalls calls).drain (⟨sink, []⟩ : Offered S κ) bound) := by
  rw [callBehind, afterCalls_windowed]
  rfl

theorem delivered_windowed (search : WindowedSearch S σ) (calls : List (κ × DocId)) :
    (windowed search : BulkSearch S σ ρ).delivered calls = WindowedSearch.offers (search.drains calls) := by
  rw [delivered, drains_windowed, List.flatMap_map]
  rfl

variable {optional prohibited : List (Meaning S)}

theorem continues_windowed (ρ : Type) [Scorer S ρ] (willing : Collector.Willing S κ) {clauses excluded : List σ}
    (should : AllDenote optional clauses) (mustNot : AllDenote prohibited excluded) {minimum : Nat}
    {coordination : CoordinationTable S} {settings : Settings} (valid : settings.validate = .ok ())
    (some : clauses ≠ []) (few : minimum ≤ clauses.length) (covered : clauses.length ≤ coordination.largest) :
    ∃ search, WindowedSearch.ofClauses clauses excluded minimum coordination settings = .ok search ∧
      ∀ (calls : List (κ × DocId)) (sink : κ) (bound : DocId),
        Continues (.windowed optional prohibited minimum coordination)
          (windowed search : BulkSearch S σ ρ) calls sink bound ∧
        WindowedSearch.ByWindow settings.bucketTableSize.toNat
          ((windowed search : BulkSearch S σ ρ).delivered (calls ++ [(sink, bound)])) := by
  obtain ⟨search, made, standing, fresh, terms⟩ :=
    WindowedSearch.ofClauses_standing should mustNot valid some few covered
  obtain ⟨rfl, rfl⟩ := Prod.mk.inj terms
  have owes := standing.owes_nothing fresh
  have one : WindowedSearch.OneWindow settings.bucketTableSize.toNat search [] := by
    have positive := (settings.tableSize_le valid).1
    refine ⟨?_, .inl (fresh ▸ dvd_zero _), nofun⟩
    rw [WindowedSearch.last_of_made made]
    omega
  refine ⟨search, made, fun calls sink bound => ?_⟩
  obtain ⟨answer, kept, serves⟩ := WindowedSearch.serves willing owes calls sink bound
  have results := serves.results
  rw [fresh] at results
  have call := callBehind_windowed (ρ := ρ) search calls sink bound
  have offered := delivered_windowed (ρ := ρ) search (calls ++ [(sink, bound)])
  refine ⟨⟨?_, ?_, ?_, ?_, ?_, ?_⟩, ?_⟩
  · rw [call]
    exact ⟨answer, serves.answered⟩
  · rw [call]
    intro hit member
    refine ⟨serves.early hit member, results.mem_windowed serves.inside (List.mem_append_left kept ?_)⟩
    rw [WindowedSearch.offers_snoc]
    exact List.mem_append_right _ member
  · rw [offered]
    intro doc member before
    exact serves.mem_offers fresh member (.inl before)
  · have distinct := results.distinct
    rw [List.map_append] at distinct
    rw [offered]
    exact (List.nodup_append.mp distinct).1
  · rw [call, offered]
    intro ended doc member
    exact serves.mem_offers fresh member (.inr (Except.ok.inj (serves.answered.symm.trans ended)))
  · rw [call, drains_windowed]
    rintro ⟨earlier, member, ended⟩
    obtain ⟨same, listed, rfl⟩ := List.mem_map.mp member
    have spent := WindowedSearch.spent_afterCalls search calls ⟨same, listed, ended⟩
    obtain ⟨again, none⟩ := spent.drain (⟨sink, []⟩ : Offered S κ) bound
    exact ⟨again, congrArg Offered.hits none⟩
  · rw [offered]
    exact serves.byWindow _ one

end Windowed

/-- Calls share out the documents of one search, whatever their bounds are, up to `noMoreDocs`. Each one
continues those before it. In document order the documents come strictly in order over all calls, and the
answer tells exactly whether documents are left. In windows no document of an earlier window comes after one
of a later window. -/
theorem calls_share_out_documents (willing : Collector.Willing S κ) :
    (∀ {scorer : ρ} {meaning : Meaning S}, Denotes scorer meaning →
      ∀ (calls : List (κ × DocId)) (sink : κ) (bound : DocId),
        (∀ call ∈ calls, call.2 ≤ noMoreDocs) → bound ≤ noMoreDocs →
        Continues meaning (inOrder scorer : BulkSearch S σ ρ) calls sink bound ∧
        (((inOrder scorer : BulkSearch S σ ρ).delivered (calls ++ [(sink, bound)])).map (·.doc)).Pairwise
          (· < ·) ∧
        (((inOrder scorer : BulkSearch S σ ρ).callBehind calls sink bound).outcome = .ok true ↔
          ∃ doc ∈ meaning.docs,
            doc ∉ ((inOrder scorer : BulkSearch S σ ρ).delivered (calls ++ [(sink, bound)])).map (·.doc))) ∧
    ∀ {optional prohibited : List (Meaning S)} {clauses excluded : List σ}, AllDenote optional clauses →
      AllDenote prohibited excluded →
      ∀ {minimum : Nat} {coordination : CoordinationTable S} {settings : Settings},
        settings.validate = .ok () → clauses ≠ [] → minimum ≤ clauses.length →
        clauses.length ≤ coordination.largest →
        ∃ search, WindowedSearch.ofClauses clauses excluded minimum coordination settings = .ok search ∧
          ∀ (calls : List (κ × DocId)) (sink : κ) (bound : DocId),
            Continues (.windowed optional prohibited minimum coordination)
              (windowed search : BulkSearch S σ ρ) calls sink bound ∧
            WindowedSearch.ByWindow settings.bucketTableSize.toNat
              ((windowed search : BulkSearch S σ ρ).delivered (calls ++ [(sink, bound)])) :=
  ⟨fun denotes calls sink _ inside bounded => continues_inOrder willing denotes calls sink inside bounded,
    fun should mustNot _ _ _ valid some few covered =>
      continues_windowed ρ willing should mustNot valid some few covered⟩

/-- Three calls, the second one with a bound that is reached already. Both searches have delivered document
5 after them, the windowed one from the middle of its second window. -/
theorem third_call_goes_on_behind_first :
    5 ∈ ((inOrder ⟨.fresh [.ofDoc 1, .ofDoc 5, .ofDoc 9], .constant 1 1⟩ :
        BulkSearch ℚ (TermScorer PostingList ℚ) (TermScorer PostingList ℚ)).delivered
          ([((⟨#[], true⟩ : HitList ℚ), 3), (⟨#[], true⟩, 0)] ++ [(⟨#[], true⟩, 6)])).map (·.doc) ∧
      ∃ search, WindowedSearch.ofClauses [⟨.fresh [.ofDoc 1, .ofDoc 5, .ofDoc 9], .constant 1 1⟩] [] 0
          (.disabled 1) { Settings.standard with bucketTableSize := 4 } = .ok search ∧
        5 ∈ ((windowed search : BulkSearch ℚ (TermScorer PostingList ℚ) (TermScorer PostingList ℚ)).delivered
          ([((⟨#[], true⟩ : HitList ℚ), 3), (⟨#[], true⟩, 0)] ++ [(⟨#[], true⟩, 6)])).map (·.doc) := by
  have accepted : Posting.Accepted [.ofDoc 1, .ofDoc 5, .ofDoc 9] := ⟨rfl, by decide⟩
  have denotes := TermScorer.denotes_of_ofPostings (S := ℚ) rfl accepted (.constant 1 1)
  have has : (5 : DocId) ∈ (TermScorer.meaning accepted (.constant (1 : ℚ) 1)).docs := by
    simp [TermScorer.meaning, Meaning.leaf, Posting.docs, Posting.ofDoc]
  obtain ⟨inOrderShares, windowedShares⟩ := @calls_share_out_documents ℚ (TermScorer PostingList ℚ)
    (TermScorer PostingList ℚ) (HitList ℚ) _ _ _ _ fun _ _ _ => rfl
  constructor
  · have bounds : ∀ call ∈ [((⟨#[], true⟩ : HitList ℚ), (3 : DocId)), (⟨#[], true⟩, 0)], call.2 ≤ noMoreDocs := by
      simp [noMoreDocs]
    exact (inOrderShares denotes _ _ 6 bounds (by decide)).1.complete 5 has (by decide)
  · obtain ⟨search, made, continues⟩ := @windowedShares _ _ _ _ (.cons denotes .nil) .nil 0 (.disabled 1)
      { Settings.standard with bucketTableSize := 4 } rfl (by simp) (by simp) le_rfl
    refine ⟨search, made, (continues _ _ 6).1.complete 5 ?_ (by decide)⟩
    refine Meaning.mem_selected.mpr ⟨by decide, rfl, rfl, Nat.zero_le _, fun _ => ?_⟩
    simp [Meaning.matching, has]

end BulkSearch

end PostingQuery
