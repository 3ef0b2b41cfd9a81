import Mathlib
import PostingQuery.Proofs.SloppyPhrase

/-!
A sloppy phrase with more slop. How the terms move through a document depends on nothing but their positions: the
slop, the scores and what has been counted so far are looked at only when a span is judged. So the same spans are
judged whatever the slop is, and a wider one counts all of those that a narrower one counts.
-/

namespace PostingQuery

namespace SloppyWalk

variable {P S : Type} {n : Nat}

def counting (walk : SloppyWalk P S n) (freq : S) (occurrences : Nat) : SloppyWalk P S n :=
  { walk with freq, occurrences }

def Bounded (walk : SloppyWalk P S n) : Prop := ∀ i : Fin n, (walk.terms.get i).shifted ≤ walk.largest

section Move

variable [PostingSource P] {walk : SloppyWalk P S n}

theorem move_counting (walk : SloppyWalk P S n) (freq : S) (occurrences : Nat) (i : Fin n) :
    (walk.counting freq occurrences).move i = (walk.move i).within (·.counting freq occurrences) := by
  have same : (walk.counting freq occurrences).terms = walk.terms := rfl
  rw [move, move, same]
  rcases readTerm walk.terms i with ⟨failure | more, terms⟩
  · rfl
  · cases more with
    | false => rfl
    | true => rfl

theorem separate_counting (groups : List (List (Fin n))) (first : Fin n) (freq : S) (occurrences : Nat) (reads : Nat)
    (walk : SloppyWalk P S n) (current : Fin n) (disturbed : Bool) :
    separate groups first reads (walk.counting freq occurrences) current disturbed =
      (separate groups first reads walk current disturbed).within (·.counting freq occurrences) := by
  induction reads generalizing walk current disturbed with
  | zero => rfl
  | succ reads ih =>
    have same : (walk.counting freq occurrences).terms = walk.terms := rfl
    rw [separate, separate, same]
    cases collision groups walk.terms current with
    | none =>
      cases disturbed with
      | false => rfl
      | true => rfl
    | some other =>
      simp only [move_counting]
      rcases walk.move (lesser walk.terms current other) with ⟨failure | more, after⟩
      · rfl
      · cases more with
        | false => rfl
        | true => exact ih after _ _

theorem read_shifted {term after : SloppyTerm P} {outcome : Except Failure Bool}
    (read : term.read = (outcome, after)) (stopped : outcome ≠ .ok true) : after.shifted = term.shifted := by
  unfold SloppyTerm.read at read
  split at read
  next =>
    cases read
    rfl
  next =>
    split at read
    next =>
      cases read
      rfl
    next =>
      split at read
      next =>
        cases read
        rfl
      next =>
        cases read
        exact absurd rfl stopped

theorem Bounded.move (bounded : Bounded walk) (i : Fin n) : Bounded (walk.move i).2 := by
  unfold SloppyWalk.move readTerm
  rcases read : walk.terms[i].read with ⟨outcome, after⟩
  have elsewhere : ∀ j, i ≠ j → (walk.terms.set i after i.isLt).get j = walk.terms.get j :=
    fun j other => by rw [get_set, if_neg other]
  have here : (walk.terms.set i after i.isLt).get i = after := by rw [get_set, if_pos rfl]
  have stays : outcome ≠ .ok true → Bounded { walk with terms := walk.terms.set i after i.isLt } := by
    intro stopped j
    change ((walk.terms.set i after i.isLt).get j).shifted ≤ walk.largest
    by_cases same : i = j
    · subst same
      rw [here, read_shifted read stopped]
      exact bounded i
    · rw [elsewhere j same]
      exact bounded j
  rcases outcome with failure | (_ | _)
  · exact stays fun more => by cases more
  · exact stays fun more => by cases more
  · intro j
    change ((walk.terms.set i after i.isLt).get j).shifted ≤
      max walk.largest ((walk.terms.set i after i.isLt).get i).shifted
    by_cases same : i = j
    · subst same
      exact le_max_right _ _
    · rw [elsewhere j same]
      exact (bounded j).trans (le_max_left _ _)

theorem Bounded.separate (bounded : Bounded walk) (groups : List (List (Fin n))) (first : Fin n) (reads : Nat)
    (current : Fin n) (disturbed : Bool) : Bounded (separate groups first reads walk current disturbed).2 := by
  induction reads generalizing walk current disturbed with
  | zero => exact bounded
  | succ reads ih =>
    rw [SloppyWalk.separate]
    cases collision groups walk.terms current with
    | none =>
      cases disturbed with
      | false => exact bounded
      | true => exact bounded
    | some other =>
      have moved := bounded.move (lesser walk.terms current other)
      dsimp only
      generalize walk.move (lesser walk.terms current other) = move at moved
      obtain ⟨outcome, after⟩ := move
      rcases outcome with failure | (_ | _)
      · exact moved
      · exact moved
      · exact ih moved _ _

end Move

variable [Score S]

def judged (relevance : Relevance S) (slop : Int) (spans : List Int) (freq : S) : S :=
  (spans.filter (· ≤ slop)).foldl (fun freq span => freq + relevance.slopFactor span) freq

variable {relevance : Relevance S} {slop wider : Int}

theorem judged_cons (span : Int) (spans : List Int) (freq : S) :
    judged relevance slop (span :: spans) freq = judged relevance slop spans (judged relevance slop [span] freq) := by
  unfold judged
  rw [← List.foldl_append, ← List.filter_append, List.singleton_append]

theorem judge_counting (walk : SloppyWalk P S n) (freq : S) (occurrences : Nat) (relevance : Relevance S)
    (slop span : Int) :
    (walk.counting freq occurrences).judge relevance slop span =
      walk.counting (judged relevance slop [span] freq) (occurrences + [span].countP (· ≤ slop)) := by
  unfold judge
  split
  next inside => simp [counting, judged, inside]
  next outside => simp [judged, outside]

theorem judged_counts [Score.SumsUp S] (rewards : Rewards relevance slop) {spans : List Int}
    (nonneg : ∀ span ∈ spans, 0 ≤ span) {freq : S} (counts : Counts freq) :
    Score.isPositive (judged relevance slop spans freq) = true ↔
      Score.isPositive freq = true ∨ ∃ span ∈ spans, span ≤ slop := by
  induction spans generalizing freq with
  | nil => simp [judged]
  | cons span spans ih =>
    obtain ⟨first, others⟩ := List.forall_mem_cons.mp nonneg
    -- Judging looks at no terms, so it is looked at in a walk without any.
    let walk : SloppyWalk PositionStream S 0 := ⟨#v[], 0, [], freq, 0⟩
    have judges : (walk.judge relevance slop span).freq = judged relevance slop [span] freq :=
      congrArg (·.freq) (judge_counting walk freq 0 relevance slop span)
    obtain ⟨countsAfter, positive⟩ := judge_counts walk rewards first counts
    rw [judges] at countsAfter positive
    rw [judged_cons, ih others countsAfter, positive, List.exists_mem_cons_iff, or_assoc]

/-- A run that judges the same spans for every slop, none of them negative. -/
def JudgesSpans (ran : Relevance S → Int → S → Nat → Step (SloppyWalk P S n) Unit) : Prop :=
  ∃ (outcome : Except Failure Unit) (after : SloppyWalk P S n) (spans : List Int), (∀ span ∈ spans, 0 ≤ span) ∧
    ∀ relevance slop freq occurrences, ran relevance slop freq occurrences =
      (outcome, after.counting (judged relevance slop spans freq) (occurrences + spans.countP (· ≤ slop)))

section Judges

variable {ran rest : Relevance S → Int → S → Nat → Step (SloppyWalk P S n) Unit}

theorem judgesSpans_of_ended {outcome : Except Failure Unit} {after : SloppyWalk P S n}
    (ended : ∀ relevance slop freq occurrences,
      ran relevance slop freq occurrences = (outcome, after.counting freq occurrences)) : JudgesSpans ran :=
  ⟨outcome, after, [], by simp, fun relevance slop freq occurrences => ended relevance slop freq occurrences⟩

theorem JudgesSpans.cons {span : Int} (nonneg : 0 ≤ span) (judges : JudgesSpans rest)
    (goesOn : ∀ relevance slop freq occurrences, ran relevance slop freq occurrences =
      rest relevance slop (judged relevance slop [span] freq) (occurrences + [span].countP (· ≤ slop))) :
    JudgesSpans ran := by
  obtain ⟨outcome, after, spans, each, same⟩ := judges
  refine ⟨outcome, after, span :: spans, List.forall_mem_cons.mpr ⟨nonneg, each⟩,
    fun relevance slop freq occurrences => ?_⟩
  have counted : (span :: spans).countP (· ≤ slop) = [span].countP (· ≤ slop) + spans.countP (· ≤ slop) := by
    rw [← List.countP_append, List.singleton_append]
  rw [goesOn, same, judged_cons span spans, counted, Nat.add_assoc]

theorem JudgesSpans.congr (judges : JudgesSpans rest)
    (same : ∀ relevance slop freq occurrences,
      ran relevance slop freq occurrences = rest relevance slop freq occurrences) : JudgesSpans ran := by
  obtain ⟨outcome, after, spans, each, ends⟩ := judges
  exact ⟨outcome, after, spans, each, fun _ _ _ _ => (same ..).trans (ends ..)⟩

end Judges

variable [PostingSource P]

theorem run_judgesSpans (groups : List (List (Fin n))) (reads : Nat) (walk : SloppyWalk P S n) (current : Fin n)
    (span next : Int) (bounded : Bounded walk) (nonneg : 0 ≤ span) :
    JudgesSpans fun relevance slop freq occurrences =>
      run groups relevance slop reads (walk.counting freq occurrences) current span next := by
  -- The induction is on the readings that may still be made. A span is judged where the term on turn has passed
  -- the next one, and where a term has no position left.
  induction reads generalizing walk current span next with
  | zero => exact judgesSpans_of_ended fun _ _ _ _ => rfl
  | succ reads ih =>
    have ends : ∀ after : SloppyWalk P S n, JudgesSpans fun relevance slop freq occurrences =>
        (.ok (), (after.counting freq occurrences).judge relevance slop span) := fun after =>
      .cons nonneg (judgesSpans_of_ended fun _ _ _ _ => rfl) fun relevance slop freq occurrences => by
        rw [judge_counting]
    have moved := bounded.move current
    simp only [run, move_counting]
    generalize walk.move current = move at moved
    obtain ⟨outcome, after⟩ := move
    rcases outcome with failure | (_ | _)
    · exact judgesSpans_of_ended fun _ _ _ _ => rfl
    · exact ends after
    · have parted := moved.separate groups current after.readBound current false
      have bounds : ∀ freq occurrences, (after.counting freq occurrences).readBound = after.readBound :=
        fun _ _ => rfl
      simp only [Step.within, bounds, separate_counting]
      generalize separate groups current after.readBound after current false = separated at parted
      obtain ⟨outcome, after⟩ := separated
      rcases outcome with failure | (_ | _)
      · exact judgesSpans_of_ended fun _ _ _ _ => rfl
      · exact ends after
      · have spans : ∀ i : Fin n, 0 ≤ after.largest - (after.terms.get i).shifted :=
          fun i => sub_nonneg.mpr (parted i)
        by_cases passed : next < (after.terms.get current).shifted
        · have passes : ∀ freq occurrences, next < (after.counting freq occurrences).terms[current].shifted :=
            fun _ _ => passed
          cases queued : enqueue after.terms after.queue current with
          | nil =>
            have waits : ∀ freq occurrences, enqueue (after.counting freq occurrences).terms
                (after.counting freq occurrences).queue current = [] := fun _ _ => queued
            refine .cons nonneg (ends after) fun relevance slop freq occurrences => ?_
            simp only [if_pos (passes freq occurrences), judge_counting, waits]
          | cons first queue =>
            have waits : ∀ freq occurrences, enqueue (after.counting freq occurrences).terms
                (after.counting freq occurrences).queue current = first :: queue := fun _ _ => queued
            refine .cons nonneg (ih { after with queue } first.index _ (nextShifted queue) parted (spans first.index))
              fun relevance slop freq occurrences => ?_
            simp only [if_pos (passes freq occurrences), judge_counting, waits]
            rfl
        · have stays : ∀ freq occurrences, ¬next < (after.counting freq occurrences).terms[current].shifted :=
            fun _ _ => passed
          refine (ih after current _ next parted (le_min nonneg (spans current))).congr
            fun relevance slop freq occurrences => ?_
          simp only [if_neg (stays freq occurrences)]
          rfl

theorem complete_judgesSpans (groups : List (List (Fin n))) (walk : SloppyWalk P S n) (bounded : Bounded walk) :
    JudgesSpans fun relevance slop freq occurrences =>
      (walk.counting freq occurrences).complete groups relevance slop := by
  cases queued : walk.queue with
  | nil =>
    have waits : ∀ freq occurrences, (walk.counting freq occurrences).queue = [] := fun _ _ => queued
    simp only [complete, waits]
    exact judgesSpans_of_ended fun _ _ _ _ => rfl
  | cons first queue =>
    have waits : ∀ freq occurrences, (walk.counting freq occurrences).queue = first :: queue := fun _ _ => queued
    simp only [complete, waits]
    exact run_judgesSpans groups walk.readBound { walk with queue } first.index _ (nextShifted queue) bounded
      (sub_nonneg.mpr (bounded first.index))

end SloppyWalk

namespace SloppyShape

open SloppyWalk

variable {S : Type} [Score S] {last : Nat}

theorem start_bounded {groups : List (List (Fin (last + 1)))}
    {streams after : Vector (SloppyTerm PositionStream) (last + 1)}
    {walk : SloppyWalk PositionStream S (last + 1)} (started : start groups streams = (.ok (some walk), after)) :
    Bounded walk ∧ walk = walk.counting Score.zero 0 := by
  unfold start at started
  split at started
  next => cases started
  next =>
    split at started
    next => cases started
    next => cases started
    next terms _ =>
      cases started
      exact ⟨fun i => (isGreatest_shifted after).2 (Set.mem_range_self i), rfl⟩

def withSlop (shape : SloppyShape S last) (slop : Int) : SloppyShape S last := { shape with slop }

/-- The spans that are judged in a document, whatever the slop is. Measuring either fails or counts those within
the slop. -/
theorem exists_spans (shape : SloppyShape S last) (doc : DocId) :
    ∃ (succeeds : Bool) (spans : List Int), (∀ span ∈ spans, 0 ≤ span) ∧ ∀ slop,
      (shape.withSlop slop).freqOn doc =
        (if succeeds then judged shape.relevance slop spans Score.zero else Score.zero) ∧
      (shape.withSlop slop).occurrencesOn doc = spans.countP (· ≤ slop) := by
  have streams : ∀ slop, (shape.withSlop slop).streams doc = shape.streams doc := fun _ => rfl
  have groups : ∀ slop, (shape.withSlop slop).groups = shape.groups := fun _ => rfl
  have relevance : ∀ slop, (shape.withSlop slop).relevance = shape.relevance := fun _ => rfl
  simp only [freqOn, occurrencesOn, SloppyPhrase.measure, phrase, streams, groups, relevance]
  rcases started : start (S := S) shape.groups (shape.streams doc) with ⟨failure | (_ | walk), after⟩
  · exact ⟨false, [], by simp, fun slop => ⟨rfl, rfl⟩⟩
  · exact ⟨false, [], by simp, fun slop => ⟨rfl, rfl⟩⟩
  · obtain ⟨bounded, fresh⟩ := start_bounded started
    obtain ⟨outcome, final, spans, each, judges⟩ := complete_judgesSpans shape.groups walk bounded
    have completed : ∀ slop, walk.complete shape.groups shape.relevance slop = (outcome,
        final.counting (judged shape.relevance slop spans Score.zero) (0 + spans.countP (· ≤ slop))) := fun slop =>
      (congrArg (·.complete shape.groups shape.relevance slop) fresh).trans
        (judges shape.relevance slop Score.zero 0)
    dsimp only
    cases outcome with
    | error failure =>
      refine ⟨false, spans, each, fun slop => ?_⟩
      have slops : (shape.withSlop slop).slop = slop := rfl
      rw [slops, completed slop]
      exact ⟨rfl, Nat.zero_add _⟩
    | ok done =>
      refine ⟨true, spans, each, fun slop => ?_⟩
      have slops : (shape.withSlop slop).slop = slop := rfl
      rw [slops, completed slop]
      exact ⟨rfl, Nat.zero_add _⟩

variable [Score.SumsUp S] {shape : SloppyShape S last} {wider : Int} {doc : DocId}

omit [Score.SumsUp S] in
theorem occurrencesOn_le (le : shape.slop ≤ wider) (doc : DocId) :
    shape.occurrencesOn doc ≤ (shape.withSlop wider).occurrencesOn doc := by
  obtain ⟨_, spans, -, judges⟩ := shape.exists_spans doc
  have here : shape.occurrencesOn doc = spans.countP (· ≤ shape.slop) := (judges shape.slop).2
  rw [here, (judges wider).2]
  exact List.countP_mono_left fun span _ within => by
    rw [decide_eq_true_eq] at within ⊢
    exact within.trans le

theorem isPositive_freqOn_of_le (le : shape.slop ≤ wider) (rewards : Rewards shape.relevance wider)
    (positive : Score.isPositive (shape.freqOn doc) = true) :
    Score.isPositive ((shape.withSlop wider).freqOn doc) = true := by
  obtain ⟨succeeds, spans, nonneg, judges⟩ := shape.exists_spans doc
  have here : shape.freqOn doc = _ := (judges shape.slop).1
  rw [here] at positive
  rw [(judges wider).1]
  cases succeeds with
  | false =>
    rw [if_neg Bool.false_ne_true, Score.SumsUp.zero] at positive
    cases positive
  | true =>
    rw [if_pos rfl] at positive ⊢
    have narrower : Rewards shape.relevance shape.slop :=
      fun distance above within => rewards distance above (within.trans le)
    rw [judged_counts narrower nonneg (.inl rfl)] at positive
    refine (judged_counts rewards nonneg (.inl rfl)).mpr (positive.imp_right ?_)
    rintro ⟨span, judged, within⟩
    exact ⟨span, judged, within.trans le⟩

theorem docs_subset (le : shape.slop ≤ wider) (rewards : Rewards shape.relevance wider) :
    shape.docs ⊆ (shape.withSlop wider).docs := by
  intro doc member
  obtain ⟨common, positive⟩ := mem_docs.mp member
  exact mem_docs.mpr ⟨common, isPositive_freqOn_of_le le rewards positive⟩

end SloppyShape

namespace SloppyPhrase

open PhrasePart SloppyShape

variable {P S : Type} [PostingSource P] [Score S]

theorem ofTerms_withSlop {terms : List (PhraseTerm P)} {slop wider : Int} {relevance : Relevance S}
    {phrase : SloppyPhrase P S} (made : (ofTerms terms slop relevance).outcome = .ok phrase) (nonneg : 0 ≤ wider) :
    (ofTerms terms wider relevance).outcome = .ok { phrase with slop := wider } := by
  obtain ⟨unrefused, notNegative⟩ := unrefused_of_made made
  unfold ofTerms at made ⊢
  simp only [unrefused, if_neg (not_lt.mpr notNegative)] at made
  simp only [unrefused, if_neg (not_lt.mpr nonneg)]
  cases arranged : PhraseTerm.arrange terms with
  | nil =>
    rw [arranged] at made
    cases made
  | cons lead followers =>
    rw [arranged] at made
    let terms : Vector (PhraseTerm P) (followers.length + 1) := ⟨(lead :: followers).toArray, by simp⟩
    dsimp only at made ⊢
    rcases Bool.eq_false_or_eq_true (repeatGroups terms).isEmpty with alone | repeated
    · rw [alone] at made ⊢
      cases Except.ok.inj made
      rfl
    · rw [repeated] at made ⊢
      cases Except.ok.inj made
      rfl

theorem sound_withSlop {last : Nat} {shape : SloppyShape S last} {phrase : SloppyPhrase P S}
    (sound : shape.Sound phrase) (fresh : phrase.doc = unpositioned) (wider : Int) :
    (shape.withSlop wider).Sound { phrase with slop := wider } := by
  obtain ⟨terms, doc, freq, occurrences, rfl, rests⟩ := sound
  obtain rfl : doc = unpositioned := fresh
  have unreal : unpositioned ∉ (shape.withSlop wider).docs :=
    fun member => absurd (real_of_mem member) (by decide)
  exact ⟨terms, unpositioned, freq, occurrences, rfl, .inl rfl, fun member => absurd member unreal,
    fun member => absurd member unreal, rests.ready⟩

variable [Score.SumsUp S]

/-- A sloppy phrase with more slop lands on all documents of the same phrase with less, and counts as many matches
there at least. -/
theorem wider_slop_keeps_documents {parts : List PhrasePart} {terms : List (PhraseTerm P)} (makes : Makes parts terms)
    {slop wider : Int} (nonneg : 0 ≤ slop) (le : slop ≤ wider) {relevance : Relevance S}
    (rewards : SloppyWalk.Rewards relevance wider) :
    ∃ narrow wide, (ofTerms terms slop relevance).outcome = .ok narrow ∧
      (ofTerms terms wider relevance).outcome = .ok wide ∧
      Cursor.doc narrow = unpositioned ∧ Cursor.doc wide = unpositioned ∧
      ∃ docs more : Finset DocId, docs ⊆ more ∧ (∀ doc ∈ more, IsReal doc) ∧
        (∀ state, Reaches narrow state →
          (Cursor.doc state ≠ noMoreDocs → (Cursor.next state).Yields (Arrival docs (Cursor.doc state + 1))) ∧
          ∀ target, Cursor.doc state < target → target ≤ noMoreDocs →
            (Cursor.advance state target).Yields (Arrival docs target)) ∧
        (∀ state, Reaches wide state →
          (Cursor.doc state ≠ noMoreDocs → (Cursor.next state).Yields (Arrival more (Cursor.doc state + 1))) ∧
          ∀ target, Cursor.doc state < target → target ≤ noMoreDocs →
            (Cursor.advance state target).Yields (Arrival more target)) ∧
        ∀ state other, Reaches narrow state → Reaches wide other → IsReal (Cursor.doc state) →
          Cursor.doc state = Cursor.doc other → state.occurrences ≤ other.occurrences := by
  obtain ⟨last, shape, narrow, made, fresh, sound, -, rfl, rfl, -⟩ := ofTerms_sound makes nonneg relevance
  have madeWide := ofTerms_withSlop made (nonneg.trans le)
  have soundWide := sound_withSlop sound fresh wider
  have invariant := shape.sound_invariant (P := P)
  have invariantWide := (shape.withSlop wider).sound_invariant (P := P)
  have denotes := Denotes.of_invariant invariant sound fresh
  have denotesWide := Denotes.of_invariant invariantWide soundWide fresh
  refine ⟨narrow, _, made, madeWide, fresh, fresh, shape.docs, (shape.withSlop wider).docs, docs_subset le rewards,
    fun _ => real_of_mem, fun state reached => ?_, fun state reached => ?_,
    fun state other reached reachedWide real together => ?_⟩
  · have behaves := denotes.refines state reached
    exact ⟨behaves.next, behaves.advance⟩
  · have behaves := denotesWide.refines state reached
    exact ⟨behaves.next, behaves.advance⟩
  · have held := invariant.holds_of_reaches sound reached
    have heldWide := invariantWide.holds_of_reaches soundWide reachedWide
    have member := invariant.member_of_real held real
    have memberWide := invariantWide.member_of_real heldWide (together ▸ real)
    obtain ⟨_, doc, _, _, rfl, rests⟩ := held
    obtain ⟨_, docWide, _, _, rfl, restsWide⟩ := heldWide
    obtain rfl : doc = docWide := together
    calc
      _ = shape.occurrencesOn doc := rests.occurrences member
      _ ≤ (shape.withSlop wider).occurrencesOn doc := occurrencesOn_le le doc
      _ = _ := (restsWide.occurrences memberWide).symm

/-- A word, another one and the first one again, in two documents. They are close in the second document, and with
more slop in the first one too. -/
theorem more_slop_keeps_second_document :
    ∃ narrow wide : SloppyPhrase PostingList ℚ,
      (ofTerms [⟨.fresh [.ofPositions 0 [0, 9], .ofPositions 1 [0, 3, 4]], 0, some "to"⟩,
        ⟨.fresh [.ofPositions 0 [3], .ofPositions 1 [1, 5]], 1, some "be"⟩,
        ⟨.fresh [.ofPositions 0 [0, 9], .ofPositions 1 [0, 3, 4]], 2, some "to"⟩] 2
        (.constant 1 1)).outcome = .ok narrow ∧
      (ofTerms [⟨.fresh [.ofPositions 0 [0, 9], .ofPositions 1 [0, 3, 4]], 0, some "to"⟩,
        ⟨.fresh [.ofPositions 0 [3], .ofPositions 1 [1, 5]], 1, some "be"⟩,
        ⟨.fresh [.ofPositions 0 [0, 9], .ofPositions 1 [0, 3, 4]], 2, some "to"⟩] 9
        (.constant 1 1)).outcome = .ok wide ∧
      (Cursor.next narrow).1 = .ok 1 ∧ (Cursor.advance wide 1).1 = .ok 1 ∧
      2 ≤ (Cursor.advance wide 1).2.occurrences := by
  let first (position : Int) : PhrasePart :=
    ⟨[.ofPositions 0 [0, 9], .ofPositions 1 [0, 3, 4]], position, ⟨⟨rfl, by decide⟩, by decide⟩⟩
  let second : PhrasePart := ⟨[.ofPositions 0 [3], .ofPositions 1 [1, 5]], 1, ⟨⟨rfl, by decide⟩, by decide⟩⟩
  have makes : Makes [first 0, second, first 2] [⟨(.fresh ((first 0).postings) : PostingList), 0, some "to"⟩,
      ⟨.fresh second.postings, 1, some "be"⟩, ⟨.fresh ((first 2).postings), 2, some "to"⟩] :=
    ⟨.cons ⟨PostingList.standsAt rfl, rfl⟩ (.cons ⟨PostingList.standsAt rfl, rfl⟩
      (.cons ⟨PostingList.standsAt rfl, rfl⟩ .nil)), by decide, by simp [first, second]⟩
  have rewards : SloppyWalk.Rewards (.constant 1 1 : Relevance ℚ) 9 := by
    intro distance nonneg _
    have above : (0 : ℚ) < 1 / ((distance : ℚ) + 1) := by positivity
    exact decide_eq_true above
  obtain ⟨narrow, wide, made, madeWide, fresh, freshWide, docs, more, subset, real, walk, walkWide, counts⟩ :=
    wider_slop_keeps_documents makes (show (0 : Int) ≤ 2 by decide) (show (2 : Int) ≤ 9 by decide) rewards
  have landed : (Cursor.next narrow).1 = .ok 1 ∧ (Cursor.next narrow).2.occurrences = 2 := by
    cases Except.ok.inj made
    decide +kernel
  have live : Cursor.doc narrow ≠ noMoreDocs := by
    rw [fresh]
    decide
  obtain ⟨landing, after, answer, here, lands⟩ := (walk narrow .refl).1 live
  obtain rfl : landing = 1 := by
    rw [answer] at landed
    exact Except.ok.inj landed.1
  have member : (1 : DocId) ∈ docs := lands.place.resolve_right (by decide)
  have beyond : Cursor.doc wide < 1 := by
    rw [freshWide]
    decide
  obtain ⟨other, afterWide, answerWide, hereWide, landsWide⟩ := (walkWide wide .refl).2 1 beyond (by decide)
  obtain rfl : other = 1 := le_antisymm (landsWide.first 1 (subset member) le_rfl) landsWide.reached
  have reached : Reaches narrow after := by
    have step := LegalStep.next narrow live
    rw [answer] at step
    exact .single step
  have reachedWide : Reaches wide afterWide := by
    have step := LegalStep.advance wide 1 beyond (by decide)
    rw [answerWide] at step
    exact .single step
  have fewer := counts after afterWide reached reachedWide (by rw [here]; decide) (here.trans hereWide.symm)
  rw [answer] at landed
  refine ⟨narrow, wide, made, madeWide, by rw [answer], by rw [answerWide], ?_⟩
  rw [answerWide, ← landed.2]
  exact fewer

end SloppyPhrase

end PostingQuery
