import Mathlib
import PostingQuery.Proofs.Bucket
import PostingQuery.Proofs.Gather

/-!
A windowed search delivers the documents that enough clauses have, and no prohibited one among them. Each
window is filled by all clauses and emitted before the next one, and together the windows cover every
document once.
-/

namespace PostingQuery

open BucketTable (Holds Linked Chosen gathered emission)

variable {S σ κ : Type}

abbrev LabeledMeaning (S : Type) := Meaning S × Bool

namespace LabeledMeaning

def matched (labels : List (LabeledMeaning S)) (doc : DocId) : List (LabeledMeaning S) :=
  labels.filter fun label => decide (doc ∈ label.1.docs)

structure Wanted (labels : List (LabeledMeaning S)) (minimum : Nat) (doc : DocId) : Prop where
  some : matched labels doc ≠ []
  allowed : ∀ label ∈ matched labels doc, label.2 = false
  enough : minimum ≤ (matched labels doc).length

theorem matched_eq_nil {labels : List (LabeledMeaning S)} {doc : DocId}
    (none : ∀ label ∈ labels, doc ∉ label.1.docs) : matched labels doc = [] :=
  List.filter_eq_nil_iff.mpr fun label member => by simpa using none label member

end LabeledMeaning

open LabeledMeaning (matched Wanted matched_eq_nil)

def Reports (doc : DocId) (label : LabeledMeaning S) (report : Report S) : Prop :=
  label.1.scores doc report.score ∧ report.prohibited = label.2

/-- What the clauses report in a window: about each of its documents, one report of each clause that has
it, in the order of the clauses. -/
structure Reported (labels : List (LabeledMeaning S)) (start stop : DocId) (reports : List (Report S)) :
    Prop where
  inside : ∀ report ∈ reports, start ≤ report.doc ∧ report.doc < stop
  about : ∀ doc, start ≤ doc → doc < stop →
    List.Forall₂ (Reports doc) (matched labels doc) (Report.about reports doc)

theorem Report.about_of_nodup {reports : List (Report S)} (distinct : (reports.map (·.doc)).Nodup)
    {report : Report S} (member : report ∈ reports) : about reports report.doc = [report] := by
  induction reports with
  | nil => cases member
  | cons first rest ih =>
    rw [List.map_cons, List.nodup_cons] at distinct
    unfold about
    rcases List.mem_cons.mp member with same | later
    · rw [same, List.filter_cons_of_pos (by simp)]
      refine congrArg (first :: ·) (about_eq_nil fun other listed sameDoc => distinct.1 ?_)
      exact List.mem_map.mpr ⟨other, listed, sameDoc⟩
    · have differs : first.doc ≠ report.doc := fun same =>
        distinct.1 (List.mem_map.mpr ⟨report, later, same.symm⟩)
      rw [List.filter_cons_of_neg (by simpa using differs)]
      exact ih distinct.2 later

theorem reported_nil {start stop : DocId} : Reported ([] : List (LabeledMeaning S)) start stop [] :=
  ⟨fun _ member => absurd member List.not_mem_nil, fun _ _ _ => .nil⟩

theorem Reported.cons {label : LabeledMeaning S} {labels : List (LabeledMeaning S)} {start stop : DocId}
    {reports : List (Report S)} {hits : List (Hit S)} (rest : Reported labels start stop reports)
    (delivers : Delivers label.1 start stop hits) :
    Reported (label :: labels) start stop (hits.map (Report.ofHit label.2) ++ reports) where
  inside report member := by
    rcases List.mem_append.mp member with own | later
    · obtain ⟨hit, listed, rfl⟩ := List.mem_map.mp own
      exact ((delivers.mem_docs hit.doc).mp (List.mem_map.mpr ⟨hit, listed, rfl⟩)).2
    · exact rest.inside report later
  about doc from_start before := by
    rw [Report.about_append, matched]
    by_cases has : doc ∈ label.1.docs
    · obtain ⟨hit, listed, rfl⟩ := List.mem_map.mp ((delivers.mem_docs doc).mpr ⟨has, from_start, before⟩)
      have distinct : ((hits.map (Report.ofHit label.2)).map (·.doc)).Nodup := by
        rw [List.map_map]
        exact delivers.inOrder.imp LT.lt.ne
      have own : Report.about (hits.map (Report.ofHit label.2)) hit.doc = [Report.ofHit label.2 hit] :=
        Report.about_of_nodup distinct (List.mem_map_of_mem listed)
      rw [List.filter_cons_of_pos (by simpa using has), own]
      exact .cons ⟨delivers.scored hit listed, Report.prohibited_ofHit label.2 hit⟩ (rest.about _ from_start before)
    · have none : Report.about (hits.map (Report.ofHit label.2)) doc = [] := by
        refine Report.about_eq_nil fun report member same => has ?_
        obtain ⟨hit, listed, rfl⟩ := List.mem_map.mp member
        exact same ▸ ((delivers.mem_docs hit.doc).mp (List.mem_map.mpr ⟨hit, listed, rfl⟩)).1
      rw [List.filter_cons_of_neg (by simpa using has), none, List.nil_append]
      exact rest.about doc from_start before

/-- What is delivered from a range of documents: each wanted document once, with the total of its
clauses' scores times the factor for their number. -/
structure Results [Score S] (labels : List (LabeledMeaning S)) (minimum : Nat)
    (coordination : CoordinationTable S) (low bound : DocId) (hits : List (Hit S)) : Prop where
  distinct : (hits.map (·.doc)).Nodup
  mem_docs : ∀ doc, doc ∈ hits.map (·.doc) ↔ (low ≤ doc ∧ doc < bound) ∧ Wanted labels minimum doc
  scored : ∀ hit ∈ hits, ∃ scores : List S,
    List.Forall₂ (fun label : LabeledMeaning S => label.1.scores hit.doc) (matched labels hit.doc) scores ∧
      hit.score = Score.scaled (gathered scores) (coordination.factor scores.length)

namespace Results

variable [Score S] {labels : List (LabeledMeaning S)} {minimum : Nat} {coordination : CoordinationTable S}
  {low middle bound : DocId}

theorem append {hits more : List (Hit S)} (first : Results labels minimum coordination low middle hits)
    (second : Results labels minimum coordination middle bound more) (le : low ≤ middle)
    (inside : middle ≤ bound) : Results labels minimum coordination low bound (hits ++ more) where
  distinct := by
    rw [List.map_append, List.nodup_append]
    refine ⟨first.distinct, second.distinct, fun doc member other otherMember same => ?_⟩
    have before := ((first.mem_docs doc).mp member).1.2
    have beyond := ((second.mem_docs other).mp otherMember).1.1
    lia
  mem_docs doc := by
    rw [List.map_append, List.mem_append, first.mem_docs, second.mem_docs, ← or_and_right]
    refine and_congr_left fun _ => ?_
    lia
  scored hit member := by
    rcases List.mem_append.mp member with early | late
    · exact first.scored hit early
    · exact second.scored hit late

theorem extend {hits : List (Hit S)} (results : Results labels minimum coordination low middle hits)
    (inside : middle ≤ bound) (none : ∀ doc, middle ≤ doc → matched labels doc = []) :
    Results labels minimum coordination low bound hits where
  distinct := results.distinct
  mem_docs doc := by
    rw [results.mem_docs]
    refine and_congr_left fun wanted => ?_
    have before : doc < middle := not_le.mp fun beyond => wanted.some (none doc beyond)
    lia
  scored := results.scored

end Results

theorem BucketTable.Holds.results [Score S] {last : Nat} {table : BucketTable S last} {start stop : DocId}
    {reports : List (Report S)} {slots : List (Fin (last + 1))} (holds : Holds table start reports slots)
    {labels : List (LabeledMeaning S)} (reported : Reported labels start stop reports) (minimum : Nat)
    (coordination : CoordinationTable S) :
    Results labels minimum coordination start stop
      (slots.filterMap fun slot => emission minimum coordination (table.buckets.get slot)) := by
  have inRange : ∀ doc, Report.about reports doc ≠ [] → start ≤ doc ∧ doc < stop := by
    intro doc some
    obtain ⟨report, member, rfl⟩ := Report.about_ne_nil.mp some
    exact reported.inside report member
  refine ⟨holds.emitted_nodup, fun doc => ?_, fun hit member => ?_⟩
  · rw [List.mem_map]
    constructor
    · rintro ⟨hit, emitted, rfl⟩
      have chosen := (holds.mem_emitted hit).mp emitted
      have range := inRange _ chosen.some
      have each := reported.about hit.doc range.1 range.2
      refine ⟨range, ⟨fun none => chosen.some ?_, fun label member => ?_, ?_⟩⟩
      · rw [none] at each
        exact List.forall₂_nil_left_iff.mp each
      · obtain ⟨report, listed, -, flag⟩ := exists_partner each member
        rw [← flag]
        exact chosen.allowed report listed
      · rw [each.length_eq]
        exact chosen.enough
    · rintro ⟨⟨from_start, before⟩, wanted⟩
      have each := reported.about doc from_start before
      let score := Score.scaled (gathered ((Report.about reports doc).map (·.score)))
        (coordination.factor (Report.about reports doc).length)
      refine ⟨⟨doc, score⟩, (holds.mem_emitted _).mpr ⟨fun none => wanted.some ?_, fun report member => ?_,
        ?_, rfl⟩, rfl⟩
      · change Report.about reports doc = [] at none
        rw [none] at each
        exact List.forall₂_nil_right_iff.mp each
      · obtain ⟨label, listed, -, flag⟩ := exists_partner each.flip member
        rw [flag]
        exact wanted.allowed label listed
      · rw [← each.length_eq]
        exact wanted.enough
  · have chosen := (holds.mem_emitted hit).mp member
    have range := inRange _ chosen.some
    refine ⟨(Report.about reports hit.doc).map (·.score), ?_, ?_⟩
    · rw [List.forall₂_map_right_iff]
      exact (reported.about hit.doc range.1 range.2).imp fun _ _ reports => reports.1
    · rw [List.length_map]
      exact chosen.score

def Bucket.isLate [Score S] {last : Nat} (bound : DocId) (bucket : Bucket S last) : Bool :=
  !bucket.prohibited && decide (bound ≤ bucket.doc)

theorem Bucket.isLate_eq_false [Score S] {last : Nat} {bound : DocId} {bucket : Bucket S last}
    (before : bucket.doc < bound) : bucket.isLate bound = false := by
  simp [isLate, before]

namespace WindowedSearch

section Emit

variable [Score S] [Collector S κ]

theorem emit_succ (bound : DocId) (visits : Nat) {search : WindowedSearch S σ} (sink : κ)
    {slot : Fin (search.last + 1)} (head : search.pending = some slot) :
    emit bound (visits + 1) search sink =
      if (search.table.buckets.get slot).isLate bound then
        emit bound visits { search with
          table := search.table.setAside slot, pending := (search.table.buckets.get slot).next } sink
      else
        match emission search.minimum search.coordination (search.table.buckets.get slot) with
        | none => emit bound visits { search with pending := (search.table.buckets.get slot).next } sink
        | some hit =>
          match Collector.collect sink hit.doc hit.score with
          | (.error failure, sink) =>
            (.error failure, ({ search with pending := (search.table.buckets.get slot).next }, sink))
          | (.ok (), sink) =>
            emit bound visits { search with pending := (search.table.buckets.get slot).next } sink := by
  have here : search.table.buckets[slot] = search.table.buckets.get slot := rfl
  rw [emit, head]
  simp only [here]
  by_cases prohibited : (search.table.buckets.get slot).prohibited
  · simp [Bucket.isLate, emission, prohibited]
  · by_cases late : bound ≤ (search.table.buckets.get slot).doc
    · simp [Bucket.isLate, prohibited, late]
    · by_cases common : search.minimum ≤ (search.table.buckets.get slot).count
      · simp only [Bucket.isLate, emission, prohibited, late, common, if_true, if_false]
        rfl
      · simp [Bucket.isLate, emission, prohibited, late, common]

theorem emit_eq (willing : Collector.Willing S κ) {bound : DocId} (visits : Nat)
    (search : WindowedSearch S σ) (sink : κ) {slots : List (Fin (search.last + 1))}
    (linked : Linked search.table.buckets search.pending slots)
    (before : ∀ slot ∈ slots, (search.table.buckets.get slot).doc < bound) (enough : slots.length < visits) :
    emit bound visits search sink = (.ok (), ({ search with pending := none },
      Collector.deliver sink (slots.filterMap fun slot =>
        emission search.minimum search.coordination (search.table.buckets.get slot)))) := by
  induction visits generalizing search sink with
  | zero => omega
  | succ visits ih =>
    cases slots with
    | nil =>
      have ended := linked.eq_none
      have same : { search with pending := none } = search := by rw [← ended]
      rw [emit, ended, same]
      rfl
    | cons slot slots =>
      obtain ⟨head, rest⟩ := linked.eq_some
      have early := Bucket.isLate_eq_false (before slot List.mem_cons_self)
      have behind : ∀ other ∈ slots, (search.table.buckets.get other).doc < bound := fun other member =>
        before other (List.mem_cons_of_mem slot member)
      have goOn := fun sink => ih { search with pending := (search.table.buckets.get slot).next } sink rest behind
        (by simpa using enough)
      rw [emit_succ bound visits sink head, early, if_neg Bool.false_ne_true, List.filterMap_cons]
      cases emission search.minimum search.coordination (search.table.buckets.get slot) with
      | none => exact goOn sink
      | some hit =>
        obtain ⟨sinkAfter, collected⟩ := willing.collect_eq sink hit.doc hit.score
        simp only [collected, Collector.deliver_cons]
        exact goOn sinkAfter

end Emit

structure Ready [Scorer S σ] (low : DocId) (label : LabeledMeaning S) (clause : WindowedClause σ) :
    Prop where
  prohibited : clause.prohibited = label.2
  waiting : clause.more = true → Waiting label.1 low clause.scorer
  finished : clause.more = false → ∀ doc ∈ label.1.docs, doc < low

variable [Score S] [Scorer S σ]

theorem fillFrom_yields {last : Nat} {labels : List (LabeledMeaning S)} {clauses : List (WindowedClause σ)}
    {start stop : DocId} (ready : List.Forall₂ (Ready start) labels clauses) (nonneg : 0 ≤ start)
    (le : start ≤ stop) (inside : stop ≤ noMoreDocs) (width : stop ≤ start + (last + 1))
    {table : BucketTable S last} {reports : List (Report S)} {slots : List (Fin (last + 1))}
    (holds : Holds table start reports slots) (hits : Nat) (more : Bool) :
    ∃ news, Reported labels start stop news ∧
      (fillFrom stop clauses table hits more).Yields fun answer after =>
        List.Forall₂ (Ready stop) labels after.1 ∧
        (∃ slots, Holds after.2 start (reports ++ news) slots) ∧
        (answer.2 = false → more = false ∧ ∀ label ∈ labels, ∀ doc ∈ label.1.docs, doc < stop) ∧
        (answer.2 = true → more = true ∨ stop < noMoreDocs) := by
  induction ready generalizing table reports slots hits more with
  | nil =>
    refine ⟨[], reported_nil, (hits, more), ([], table), rfl, .nil, ⟨slots, ?_⟩, ?_, .inl⟩
    · rwa [List.append_nil]
    · exact fun none => ⟨none, fun label member => absurd member List.not_mem_nil⟩
  | @cons label clause labels clauses head _ ih =>
    rw [fillFrom]
    by_cases hasMore : clause.more
    · rw [if_pos hasMore]
      obtain ⟨own, delivers, left, ⟨scorer, sink⟩, same, sinkSame, waiting, ended⟩ := InOrder.drain_yields
        BucketTable.sink_willing (head.waiting hasMore) ⟨table, clause.prohibited, 0⟩ nonneg le inside
      change sink = _ at sinkSame
      change Waiting label.1 stop scorer at waiting
      have inWindow : ∀ hit ∈ own, start ≤ hit.doc ∧ hit.doc < start + (last + 1) := by
        intro hit member
        obtain ⟨-, from_start, before⟩ := (delivers.mem_docs hit.doc).mp (List.mem_map_of_mem member)
        exact ⟨from_start, before.trans_le width⟩
      have tableHolds : Holds (⟨table, clause.prohibited, 0⟩ : BucketSink S last).table start reports slots :=
        holds
      obtain ⟨between, holdsBetween⟩ := tableHolds.deliver inWindow
      rw [← sinkSame] at holdsBetween
      obtain ⟨news, reported, answer, after, sameRest, readyAfter, ⟨listed, holdsAfter⟩, settled, goesOn⟩ :=
        ih holdsBetween (hits + sink.collected) (more || left)
      refine ⟨own.map (Report.ofHit label.2) ++ news, reported.cons delivers, answer,
        ({ clause with scorer, more := left } :: after.1, after.2), ?_, .cons ⟨head.prohibited, fun _ => waiting,
        ended.mp⟩ readyAfter, ⟨listed, ?_⟩, fun none => ?_, fun some => ?_⟩
      · simp only [same, sameRest]
        rfl
      · rw [← List.append_assoc, ← head.prohibited]
        exact holdsAfter
      · obtain ⟨noneBefore, rest⟩ := settled none
        rw [Bool.or_eq_false_iff] at noneBefore
        exact ⟨noneBefore.1, List.forall_mem_cons.mpr ⟨ended.mp noneBefore.2, rest⟩⟩
      · rcases goesOn some with either | before
        · cases left with
          | false => exact .inl (by simpa using either)
          | true =>
            have some : ¬∀ doc ∈ label.1.docs, doc < stop := fun none => absurd (ended.mpr none) (by decide)
            push Not at some
            obtain ⟨doc, member, beyond⟩ := some
            exact .inr (beyond.trans_lt (label.1.real doc member).2)
        · exact .inr before
    · rw [if_neg hasMore]
      have finished := head.finished (Bool.not_eq_true _ ▸ hasMore)
      obtain ⟨news, reported, answer, after, sameRest, readyAfter, holdsAfter, settled, goesOn⟩ :=
        ih holds hits more
      refine ⟨news, reported.cons (delivers_nil finished), answer, (clause :: after.1, after.2), ?_,
        .cons ⟨head.prohibited, fun some => absurd some hasMore, fun _ doc member =>
        (finished doc member).trans_le le⟩ readyAfter, holdsAfter, fun none => ?_, goesOn⟩
      · rw [sameRest]
        rfl
      · obtain ⟨noneBefore, rest⟩ := settled none
        exact ⟨noneBefore, List.forall_mem_cons.mpr
          ⟨fun doc member => (finished doc member).trans_le le, rest⟩⟩

/-- A search between two windows: the window that begins with `start` is filled and pending, and every
clause is ready for the next one. -/
structure Standing (labels : List (LabeledMeaning S)) (start : DocId) (search : WindowedSearch S σ) :
    Prop where
  nonneg : 0 ≤ start
  le : start ≤ search.windowEnd
  inside : search.windowEnd ≤ noMoreDocs
  small : (search.last : Int) + 1 ≤ noMoreDocs
  ready : List.Forall₂ (Ready search.windowEnd) labels search.clauses
  pending : ∃ reports slots, Holds ⟨search.table.buckets, search.pending⟩ start reports slots ∧
    Reported labels start search.windowEnd reports

def terms (search : WindowedSearch S σ) : Nat × CoordinationTable S := (search.minimum, search.coordination)

theorem fill_yields {labels : List (LabeledMeaning S)} (search : WindowedSearch S σ)
    (nonneg : 0 ≤ search.windowEnd) (inside : search.windowEnd ≤ noMoreDocs)
    (small : (search.last : Int) + 1 ≤ noMoreDocs)
    (ready : List.Forall₂ (Ready search.windowEnd) labels search.clauses)
    (stale : ∀ slot : Fin (search.last + 1), (search.table.buckets.get slot).doc < search.windowEnd)
    (unused : search.table.first = none) :
    search.fill.Yields fun answer after =>
      Standing labels search.windowEnd { after with pending := after.table.first } ∧
      after.terms = search.terms ∧
      (answer.2 = false → ∀ label ∈ labels, ∀ doc ∈ label.1.docs, doc < after.windowEnd) ∧
      (answer.2 = true ∨ after.table.first ≠ none → search.windowEnd < after.windowEnd) := by
  let stop : DocId := min (search.windowEnd + (search.last + 1)) noMoreDocs
  have le : search.windowEnd ≤ stop := le_min (by lia) inside
  obtain ⟨news, reported, answer, after, same, readyAfter, ⟨slots, holds⟩, settled, goesOn⟩ :=
    fillFrom_yields ready nonneg le (min_le_right _ _) (min_le_left _ _)
      (BucketTable.holds_nil stale unused) 0 false
  rw [List.nil_append] at holds
  refine ⟨answer, { search with windowEnd := stop, clauses := after.1, table := after.2 }, ?_,
    ⟨nonneg, le, min_le_right _ _, small, readyAfter, news, slots, holds, reported⟩, rfl,
    fun none => (settled none).2, fun some => ?_⟩
  · exact congrArg (Step.within · fun filled : List (WindowedClause σ) × BucketTable S search.last =>
      { search with windowEnd := stop, clauses := filled.1, table := filled.2 }) same
  · change search.windowEnd < stop
    rcases some with more | listed
    · have before := (goesOn more).resolve_left (by decide)
      lia
    · obtain ⟨report, member⟩ := List.exists_mem_of_ne_nil news fun none =>
        listed (holds.first_eq_none_iff.mpr none)
      have range := reported.inside report member
      exact range.1.trans_lt range.2

theorem drainWithin_succ [Collector S κ] (bound : DocId) (windows : Nat) (search : WindowedSearch S σ)
    (sink : κ) (events : List Event) :
    drainWithin bound (windows + 1) search sink events =
      match emit bound moveLimit { search with table := { search.table with first := none } } sink with
      | (.error failure, (search, sink)) => ⟨.error failure, search, sink, events.reverse⟩
      | (.ok (), (search, sink)) =>
        match search.table.first with
        | some first =>
          ⟨.ok true, { search with table := { search.table with first := none }, pending := some first },
            sink, events.reverse⟩
        | none =>
          match search.fill with
          | (.error failure, search) => ⟨.error failure, search, sink, events.reverse⟩
          | (.ok (hits, more), search) =>
            let events := .windowFilled search.windowEnd hits more :: events
            let search := { search with pending := search.table.first }
            if search.pending.isNone && !more then ⟨.ok false, search, sink, events.reverse⟩
            else drainWithin bound windows search sink events := by
  rfl

theorem drainWithin_results [Collector S κ] (willing : Collector.Willing S κ)
    {labels : List (LabeledMeaning S)} (windows : Nat) {start : DocId} (search : WindowedSearch S σ)
    (standing : Standing labels start search) (sink : κ) (events : List Event)
    (enough : (noMoreDocs - search.windowEnd).toNat < windows) :
    ∃ hits, Results labels search.minimum search.coordination start noMoreDocs hits ∧
      (drainWithin noMoreDocs windows search sink events).outcome = .ok false ∧
      (drainWithin noMoreDocs windows search sink events).sink = Collector.deliver sink hits := by
  -- Each window ends later than the one before until no document is left, so there are enough windows.
  induction windows generalizing start search sink events with
  | zero => omega
  | succ windows ih =>
    obtain ⟨nonneg, le, inside, small, ready, reports, slots, holds, reported⟩ := standing
    have before : ∀ report ∈ reports, report.doc < search.windowEnd := fun report member =>
      (reported.inside report member).2
    have stale := holds.doc_lt le before
    have emits := emit_eq willing moveLimit { search with table := { search.table with first := none } } sink
      holds.linked (fun slot _ => (stale slot).trans_le inside) ?_
    · have own := holds.results reported search.minimum search.coordination
      obtain ⟨⟨count, more⟩, after, filled, standing, terms, settled, goesOn⟩ := fill_yields
        { search with table := { search.table with first := none }, pending := none }
        (nonneg.trans le) inside small ready stale rfl
      rw [drainWithin_succ]
      simp only [emits, filled]
      by_cases finished : (after.table.first.isNone && !more) = true
      · rw [if_pos finished]
        rw [Bool.and_eq_true, Option.isNone_iff_eq_none, Bool.not_eq_true'] at finished
        refine ⟨_, own.extend inside fun doc beyond => ?_, rfl, rfl⟩
        by_cases inWindow : doc < after.windowEnd
        · obtain ⟨news, listed, newHolds, newReported⟩ := standing.pending
          have each := newReported.about doc beyond inWindow
          rw [newHolds.first_eq_none_iff.mp finished.1] at each
          exact List.forall₂_nil_right_iff.mp each
        · exact matched_eq_nil fun label member has => inWindow (settled finished.2 label member doc has)
      · rw [if_neg finished]
        have progress : search.windowEnd < after.windowEnd := by
          apply goesOn
          cases more with
          | true => exact .inl rfl
          | false => exact .inr (by simpa using finished)
        have upper : after.windowEnd ≤ noMoreDocs := standing.inside
        have fewer : (noMoreDocs - after.windowEnd).toNat < windows := by
          clear emits
          lia
        obtain ⟨sameMinimum, sameFactors⟩ := Prod.mk.inj terms
        obtain ⟨hits, results, outcome, delivered⟩ := ih { after with pending := after.table.first } standing
          (Collector.deliver sink _) (.windowFilled after.windowEnd count more :: events) fewer
        rw [sameMinimum, sameFactors] at results
        refine ⟨_, own.append results le inside, outcome, ?_⟩
        rw [Collector.deliver_append]
        exact delivered
    · have bound := holds.length_le
      unfold noMoreDocs at small
      unfold moveLimit
      lia

end WindowedSearch

end PostingQuery
