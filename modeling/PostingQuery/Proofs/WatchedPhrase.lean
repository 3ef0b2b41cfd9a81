import Mathlib
import PostingQuery.Proofs.SloppyPhrase
import PostingQuery.Proofs.WatchedWalk

/-!
A sloppy phrase whose walks over positions are watched. Wherever a legal walk over documents has led it, it takes
true spans only: in each document that it measures the terms are placed on their first positions and spread, from
where on all that is seen is sound, and the frequency is the sum of the slop factors that were asked for.
-/

namespace PostingQuery

variable {P S : Type} [PostingSource P] [Score S]

structure Measurement (S : Type) where
  seen : List Sighting
  counted : Option (S × Nat)

/-- All that is seen is sound, and the slop factors that are asked for add up to the frequency, one for each match. -/
structure Measurement.Accurate (relevance : Relevance S) (slop : Int) (measurement : Measurement S) : Prop where
  sound : ∀ sighting ∈ measurement.seen, sighting.Sound slop
  addsUp : ∀ counted ∈ measurement.counted,
    measurement.seen.foldl (Sighting.tally relevance) (Score.zero, 0) = counted

namespace SloppyPhrase

open SloppyWalk

def watchMeasure (phrase : SloppyPhrase P S) : Observed (Measurement S) (SloppyPhrase P S) S :=
  let phrase := { phrase with occurrences := 0 }
  match SloppyWalk.start (S := S) phrase.groups phrase.terms with
  | (.error failure, terms) => ⟨(.error failure, { phrase with terms }), [⟨[], none⟩]⟩
  | (.ok none, terms) => ⟨(.ok Score.zero, { phrase with terms }), [⟨[], some (Score.zero, 0)⟩]⟩
  | (.ok (some walk), _) =>
    let watched := walk.watchComplete phrase.groups phrase.relevance phrase.slop
    let seen := fillings walk.terms (List.finRange _) ++ watched.seen
    let (outcome, after) := watched.step
    let phrase := { phrase with terms := after.terms, occurrences := after.occurrences }
    match outcome with
    | .error failure => ⟨(.error failure, phrase), [⟨seen, none⟩]⟩
    | .ok () => ⟨(.ok after.freq, phrase), [⟨seen, some after.counted⟩]⟩

theorem watchMeasure_step (phrase : SloppyPhrase P S) : phrase.watchMeasure.step = phrase.measure := by
  unfold watchMeasure measure
  dsimp only
  rcases SloppyWalk.start (S := S) phrase.groups phrase.terms with ⟨failure | _ | walk, terms⟩
  · rfl
  · rfl
  · simp only [watchComplete_step]
    rcases walk.complete phrase.groups phrase.relevance phrase.slop with ⟨failure | done, after⟩
    · rfl
    · rfl

theorem watchMeasure_addsUp (phrase : SloppyPhrase P S) :
    ∀ measurement ∈ phrase.watchMeasure.seen, ∀ counted ∈ measurement.counted,
      measurement.seen.foldl (Sighting.tally phrase.relevance) (Score.zero, 0) = counted := by
  unfold watchMeasure
  dsimp only
  rcases started : SloppyWalk.start (S := S) phrase.groups phrase.terms with ⟨failure | _ | walk, terms⟩
  · exact List.forall_mem_singleton.mpr nofun
  · exact List.forall_mem_singleton.mpr fun counted same => Option.some.inj same
  · have tally := walk.watchComplete_tally phrase.groups phrase.relevance phrase.slop
    rw [start_counted started] at tally
    dsimp only
    generalize walk.watchComplete phrase.groups phrase.relevance phrase.slop = watched at tally
    rcases watched with ⟨⟨failure | done, after⟩, seen⟩
    · exact List.forall_mem_singleton.mpr nofun
    · refine List.forall_mem_singleton.mpr fun counted same => ?_
      obtain rfl := Option.some.inj same
      rw [List.foldl_append, fillings_tally]
      exact tally

theorem watchMeasure_last {phrase after : SloppyPhrase P S} {freq : S}
    (measured : phrase.measure = (.ok freq, after)) :
    ∃ measurement, phrase.watchMeasure.seen = [measurement] ∧
      measurement.counted = some (freq, after.occurrences) := by
  rw [← watchMeasure_step] at measured
  unfold watchMeasure at measured ⊢
  dsimp only at measured ⊢
  generalize SloppyWalk.start (S := S) phrase.groups phrase.terms = started at measured
  rcases started with ⟨failure | _ | walk, terms⟩
  · cases measured
  · cases measured
    exact ⟨_, rfl, rfl⟩
  · dsimp only at measured ⊢
    generalize walk.watchComplete phrase.groups phrase.relevance phrase.slop = watched at measured
    rcases watched with ⟨⟨failure | done, final⟩, seen⟩
    · cases measured
    · cases measured
      exact ⟨_, rfl, rfl⟩

def watchSettle : Nat → SloppyPhrase P S → DocId → Observed (Measurement S) (SloppyPhrase P S) DocId
  | 0, phrase, _ => ⟨(.error (.other .stalled), phrase), []⟩
  | moves + 1, phrase, candidate =>
    if candidate = noMoreDocs then
      ⟨(.ok noMoreDocs, { phrase with doc := noMoreDocs, freq := Score.zero, occurrences := 0 }), []⟩
    else
      match align candidate ((List.finRange phrase.last).map Fin.succ) phrase.terms with
      | (.error failure, terms) => ⟨(.error failure, { phrase with terms }), []⟩
      | (.ok (some beyond), terms) =>
        match { phrase with terms }.moveLead (Cursor.advance · beyond) with
        | (.error failure, phrase) => ⟨(.error failure, phrase), []⟩
        | (.ok reached, phrase) => watchSettle moves phrase reached
      | (.ok none, terms) =>
        let measured := { phrase with terms, doc := candidate }.watchMeasure
        match measured.step with
        | (.error failure, phrase) => ⟨(.error failure, phrase), measured.seen⟩
        | (.ok freq, phrase) =>
          let phrase := { phrase with freq }
          if Score.isPositive freq then ⟨(.ok candidate, phrase), measured.seen⟩
          else
            match phrase.moveLead Cursor.next with
            | (.error failure, phrase) => ⟨(.error failure, phrase), measured.seen⟩
            | (.ok reached, phrase) => (watchSettle moves phrase reached).behind measured.seen

theorem watchSettle_step (moves : Nat) (phrase : SloppyPhrase P S) (candidate : DocId) :
    (watchSettle moves phrase candidate).step = settle moves phrase candidate := by
  induction moves generalizing phrase candidate with
  | zero => rfl
  | succ moves ih =>
    rw [watchSettle, settle]
    split
    · rfl
    · rcases align candidate ((List.finRange phrase.last).map Fin.succ) phrase.terms with
        ⟨failure | _ | beyond, terms⟩
      · rfl
      · simp only [watchMeasure_step]
        rcases measure { phrase with terms, doc := candidate } with ⟨failure | freq, measured⟩
        · rfl
        · dsimp only
          split
          · rfl
          · rcases moveLead { measured with freq } Cursor.next with ⟨failure | reached, moved⟩
            · rfl
            · exact ih _ _
      · dsimp only
        rcases moveLead { phrase with terms } (Cursor.advance · beyond) with ⟨failure | reached, moved⟩
        · rfl
        · exact ih _ _

theorem watchSettle_last {moves : Nat} {phrase after : SloppyPhrase P S} {candidate landing : DocId}
    (settled : settle moves phrase candidate = (.ok landing, after)) (live : landing ≠ noMoreDocs) :
    ∃ earlier measurement, (watchSettle moves phrase candidate).seen = earlier ++ [measurement] ∧
      measurement.counted = some (after.freq, after.occurrences) := by
  induction moves generalizing phrase candidate with
  | zero => cases settled
  | succ moves ih =>
    rw [settle] at settled
    rw [watchSettle]
    split at settled
    · cases settled
      exact absurd rfl live
    · rename_i unended
      rw [if_neg unended]
      generalize align candidate ((List.finRange phrase.last).map Fin.succ) phrase.terms = aligned at settled
      rcases aligned with ⟨failure | _ | beyond, terms⟩
      · cases settled
      · simp only [watchMeasure_step]
        dsimp only at settled
        rcases measured : measure { phrase with terms, doc := candidate } with ⟨failure | freq, counted⟩
        · rw [measured] at settled
          cases settled
        · obtain ⟨measurement, seen, same⟩ := watchMeasure_last measured
          rw [measured] at settled
          dsimp only at settled ⊢
          split at settled
          · rename_i found
            cases settled
            rw [if_pos found]
            exact ⟨[], measurement, seen, same⟩
          · rename_i none
            rw [if_neg none]
            generalize moveLead { counted with freq } Cursor.next = move at settled
            rcases move with ⟨failure | reached, moved⟩
            · cases settled
            · obtain ⟨earlier, last, seenLater, sameLast⟩ := ih settled
              refine ⟨[measurement] ++ earlier, last, ?_, sameLast⟩
              dsimp only [Observed.behind]
              rw [seen, seenLater, List.append_assoc]
      · dsimp only at settled ⊢
        generalize moveLead { phrase with terms } (Cursor.advance · beyond) = move at settled
        rcases move with ⟨failure | reached, moved⟩
        · cases settled
        · exact ih settled

def watchMove (phrase : SloppyPhrase P S) (move : P → Step P DocId) :
    Observed (Measurement S) (SloppyPhrase P S) DocId :=
  match phrase.moveLead move with
  | (.error failure, phrase) => ⟨(.error failure, phrase), []⟩
  | (.ok reached, phrase) => watchSettle moveLimit phrase reached

theorem watchMove_step (phrase : SloppyPhrase P S) (move : P → Step P DocId) :
    (phrase.watchMove move).step = phrase.moveAndSettle move := by
  unfold watchMove moveAndSettle
  rcases phrase.moveLead move with ⟨failure | reached, moved⟩
  · rfl
  · exact watchSettle_step _ _ _

/-- A watched move is the move itself. All that it measures is accurate, and the document that it answers has been
measured last, with the frequency and the matches that the phrase has there. -/
structure TrulyWatched (relevance : Relevance S) (slop : Int) (step : Step (SloppyPhrase P S) DocId)
    (watched : Observed (Measurement S) (SloppyPhrase P S) DocId) : Prop where
  same : watched.step = step
  accurate : ∀ measurement ∈ watched.seen, measurement.Accurate relevance slop
  last : ∀ landing after, step = (.ok landing, after) → landing ≠ noMoreDocs →
    ∃ earlier measurement, watched.seen = earlier ++ [measurement] ∧
      measurement.counted = some (after.freq, after.occurrences)

theorem trulyWatched_of_accurate {phrase : SloppyPhrase P S} {move : P → Step P DocId} {relevance : Relevance S}
    {slop : Int} (accurate : ∀ measurement ∈ (phrase.watchMove move).seen, measurement.Accurate relevance slop) :
    TrulyWatched relevance slop (phrase.moveAndSettle move) (phrase.watchMove move) where
  same := watchMove_step phrase move
  accurate := accurate
  last landing after moved live := by
    unfold moveAndSettle at moved
    unfold watchMove
    generalize phrase.moveLead move = lead at moved
    rcases lead with ⟨failure | reached, lead⟩
    · cases moved
    · exact watchSettle_last moved live

end SloppyPhrase

namespace SloppyShape

open SloppyTerm SloppyWalk

variable {last : Nat} {shape : SloppyShape S last} {terms : Vector (SloppyTerm P) (last + 1)}

theorem watchStreams_sound {doc : DocId} (common : ∀ i, doc ∈ Posting.docs (shape.parts i).postings)
    {walk : SloppyWalk PositionStream S (last + 1)} {after : Vector (SloppyTerm PositionStream) (last + 1)}
    (started : start shape.groups (shape.streams doc) = (.ok (some walk), after)) :
    ∀ sighting ∈ fillings walk.terms (List.finRange _) ++
      (walk.watchComplete shape.groups shape.relevance shape.slop).seen, sighting.Sound shape.slop := by
  obtain ⟨placed, -, ⟨_, -, stopped⟩ | ⟨begun, first, -, begins, turn, -⟩⟩ := start_from_spread (S := S) common
  · rw [stopped] at started
    cases started
  · rw [begins] at started
    obtain ⟨same, -⟩ := Prod.mk.inj started
    obtain rfl := Option.some.inj (Except.ok.inj same)
    refine List.forall_mem_append.mpr ⟨fillings_sound _ _, ?_⟩
    exact List.forall_mem_append.mpr ⟨List.forall_mem_singleton.mpr (turn.span_sound _),
      watchRun_sound shape.groups shape.relevance _ begun first.index _ _ turn fun _ => turn.waits.nextShifted_le⟩

theorem watchMeasure_accurate {doc : DocId} (begins : ∀ i : Fin (last + 1), Begins (shape.parts i) doc (terms.get i))
    (real : IsReal doc) (freq : S) (occurrences : Nat) :
    ∀ measurement ∈ (shape.phrase terms doc freq occurrences).watchMeasure.seen,
      measurement.Accurate shape.relevance shape.slop := by
  have addsUp := (shape.phrase terms doc freq occurrences).watchMeasure_addsUp
  refine fun measurement member => ⟨?_, addsUp measurement member⟩
  have common : ∀ i, doc ∈ Posting.docs (shape.parts i).postings :=
    fun i => (begins i).1.mem_docs real.ne_noMoreDocs
  have mirroring := mirroring (P := P) standing_standsAt shape.cast.postings shape.cast.position doc
  -- The terms are placed as the streams of their positions are, and seen to do the same from there on.
  rcases SloppyPhrase.start_agrees (S := S) shape.groups mirroring
      (fun _ _ _ mirrors => ⟨mirrors.counted, mirrors.nonneg⟩)
      (fun i => by
        have fresh := fresh_of_untouched (begins i).2 ((begins i).1.untouched real.ne_noMoreDocs)
        exact ⟨fresh.visits, fresh.begin_agrees standing_standsAt (shape.cast.counted i) real⟩) with
    ⟨after, mirrors, same, -⟩ | ⟨walk, mirror, after, mirrors, same, mirrorSame, alike⟩ | ⟨-, -, -, never, -⟩
  · simp only [SloppyPhrase.watchMeasure, phrase, same] at member
    obtain rfl := List.mem_singleton.mp member
    exact List.forall_mem_nil _
  · have sound := watchStreams_sound common mirrorSame
    rw [← fillings_eq mirroring alike.terms, ← alike.watchComplete_seen mirroring] at sound
    simp only [SloppyPhrase.watchMeasure, phrase, same] at member
    split at member
    next =>
      obtain rfl := List.mem_singleton.mp member
      exact sound
    next =>
      obtain rfl := List.mem_singleton.mp member
      exact sound
  · exact never.elim

theorem watchSettle_accurate (moves : Nat) (terms : Vector (SloppyTerm P) (last + 1)) (doc : DocId) (freq : S)
    (occurrences : Nat) {candidate : DocId} (proposes : shape.cast.Proposes candidate terms) (nonneg : 0 ≤ candidate)
    (inside : candidate ≤ noMoreDocs) :
    ∀ measurement ∈ (SloppyPhrase.watchSettle moves (shape.cast.phrase terms doc freq occurrences) candidate).seen,
      measurement.Accurate shape.relevance shape.slop := by
  induction moves generalizing terms doc freq occurrences candidate with
  | zero => exact List.forall_mem_nil _
  | succ moves ih =>
    rw [SloppyPhrase.watchSettle]
    split
    next => exact List.forall_mem_nil _
    next live =>
      have real : IsReal candidate := ⟨nonneg, lt_of_le_of_ne inside live⟩
      rcases proposes.meet_or_jump real doc freq occurrences with
        ⟨swept, same, begins⟩ | ⟨beyond, swept, landing, after, same, moved, further, -, lands, inside, proposesAfter⟩
      · have accurateHere := watchMeasure_accurate begins real freq occurrences
        obtain ⟨value, after, measured, measuredTerms, counted, rfl, -, onDoc⟩ :=
          shape.measures swept candidate freq occurrences real begins
        have measureSame : SloppyPhrase.measure
            { shape.cast.phrase terms doc freq occurrences with terms := swept, doc := candidate } = _ := measured
        rw [same]
        simp only [SloppyPhrase.watchMeasure_step, measureSame]
        split
        next => exact accurateHere
        next =>
          obtain ⟨landing, after, moved, lands, inside, proposesAfter⟩ :=
            SloppyCast.lead_leaves onDoc real candidate value counted
          have moveSame : SloppyPhrase.moveLead
              { shape.cast.phrase measuredTerms candidate freq counted with freq := value } Cursor.next = _ := moved
          simp only [moveSame]
          exact List.forall_mem_append.mpr ⟨accurateHere,
            ih after candidate value counted proposesAfter (by have := lands.reached; lia) inside⟩
      · rw [same]
        simp only [moved]
        exact ih after doc freq occurrences proposesAfter (by have := lands.reached; lia) inside

theorem watchMove_accurate {doc low : DocId} {freq : S} {occurrences : Nat} (move : P → Step P DocId)
    (rests : shape.cast.Rests shape.Judges terms doc freq occurrences) (live : doc ≠ noMoreDocs) (beyond : doc < low)
    (moves : ∀ place, StandsAt (shape.parts 0).postings (terms.get 0).postings place → place.doc = doc →
      (move (terms.get 0).postings).Yields fun landing after =>
        Lands (Posting.docs (shape.parts 0).postings) low landing ∧ Opened (shape.parts 0).postings landing after) :
    ∀ measurement ∈ ((shape.phrase terms doc freq occurrences).watchMove move).seen,
      measurement.Accurate shape.relevance shape.slop := by
  have nonneg : 0 ≤ low := nonneg_of_unpositioned_lt (rests.le_doc.trans_lt beyond)
  obtain ⟨⟨offset, place, stands, here⟩, follow⟩ := rests.ready live
  have followers : ∀ i : Fin last, shape.cast.Follows i.succ low (terms.get i.succ) :=
    fun i => (follow i).mono (Int.add_one_le_of_lt beyond)
  obtain ⟨landing, after, moved, lands, inside, proposes⟩ :=
    SloppyCast.lead_proposes move offset (moves place stands here) followers doc freq occurrences
  have moveSame : (shape.phrase terms doc freq occurrences).moveLead move = _ := moved
  simp only [SloppyPhrase.watchMove, moveSame]
  exact watchSettle_accurate moveLimit after doc freq occurrences proposes (nonneg.trans lands.reached) inside

theorem Sound.watched {state : SloppyPhrase P S} (sound : shape.Sound state) :
    (state.doc ≠ noMoreDocs →
      SloppyPhrase.TrulyWatched shape.relevance shape.slop (Cursor.next state) (state.watchMove Cursor.next)) ∧
    ∀ target, state.doc < target → target ≤ noMoreDocs →
      SloppyPhrase.TrulyWatched shape.relevance shape.slop (Cursor.advance state target)
        (state.watchMove (Cursor.advance · target)) := by
  obtain ⟨terms, doc, freq, occurrences, rfl, rests⟩ := sound_iff.mp sound
  constructor
  · intro live
    refine SloppyPhrase.trulyWatched_of_accurate
      (watchMove_accurate Cursor.next rests live (lt_add_one doc) fun place stands here => ?_)
    have yields := stands.next (shape.cast.accepted 0) (here ▸ rests.lt_noMoreDocs live)
    rwa [here] at yields
  · intro target beyond inside
    change doc < target at beyond
    refine SloppyPhrase.trulyWatched_of_accurate
      (watchMove_accurate (Cursor.advance · target) rests (by lia) beyond fun place stands here => ?_)
    exact stands.advance (shape.cast.accepted 0) (here ▸ beyond) inside

end SloppyShape

namespace SloppyPhrase

open PhrasePart

/-- Wherever a legal walk has led a sloppy phrase, its moves take true spans only. Each span that is taken reaches from
the smallest shifted position of all terms, the one of the term on turn, to the largest one. Each term that is put into
the queue waits at its present position. Each distance whose slop factor is asked for lies within the slop, and the
frequency of each document that is measured is the sum of these slop factors, in their order, and of nothing else. -/
theorem walk_takes_true_spans {parts : List PhrasePart} {terms : List (PhraseTerm P)} (makes : Makes parts terms)
    {slop : Int} (nonneg : 0 ≤ slop) (relevance : Relevance S) :
    ∃ phrase, (ofTerms terms slop relevance).outcome = .ok phrase ∧ Cursor.doc phrase = unpositioned ∧
      ∀ state, Reaches phrase state →
        (Cursor.doc state ≠ noMoreDocs →
          TrulyWatched relevance slop (Cursor.next state) (state.watchMove Cursor.next)) ∧
        ∀ target, Cursor.doc state < target → target ≤ noMoreDocs →
          TrulyWatched relevance slop (Cursor.advance state target) (state.watchMove (Cursor.advance · target)) := by
  obtain ⟨last, shape, phrase, made, fresh, sound, -, rfl, rfl, -⟩ := ofTerms_sound makes nonneg relevance
  exact ⟨phrase, made, fresh, fun state reached => (shape.sound_invariant.holds_of_reaches sound reached).watched⟩

def bora : List Posting := [⟨3, 4, [0, 1, 3, 4]⟩]

def island : List Posting := [⟨3, 2, [2, 5]⟩]

def boraBoraIsland : List (PhraseTerm PostingList) :=
  [⟨.fresh bora, 0, some "bora"⟩, ⟨.fresh bora, 1, some "bora"⟩,
    ⟨.fresh island, 2, some "island"⟩]

def distances (seen : List (Measurement S)) : List Int :=
  (seen.flatMap (·.seen)).filterMap fun | .asked distance => some distance | _ => none

/-- Four matches are counted in the document, at distances that lie within the slop. -/
theorem bora_bora_island_takes_true_spans :
    ∃ phrase : SloppyPhrase PostingList Float32,
      (ofTerms boraBoraIsland 2 (Relevance.constant Score.one Score.one)).outcome = .ok phrase ∧
      Cursor.doc (Cursor.next phrase).2 = 3 ∧ distances (phrase.watchMove Cursor.next).seen = [0, 2, 2, 0] ∧
      TrulyWatched (Relevance.constant Score.one Score.one) 2 (Cursor.next phrase) (phrase.watchMove Cursor.next) := by
  let word (postings : List Posting) (position : Int) (positioned : Posting.Positioned postings) : PhrasePart :=
    ⟨postings, position, positioned⟩
  have boraHere : Posting.Positioned bora := ⟨⟨rfl, by decide⟩, by decide⟩
  have islandHere : Posting.Positioned island := ⟨⟨rfl, by decide⟩, by decide⟩
  have makes : Makes [word bora 0 boraHere, word bora 1 boraHere, word island 2 islandHere] boraBoraIsland :=
    ⟨.cons ⟨PostingList.standsAt rfl, rfl⟩ (.cons ⟨PostingList.standsAt rfl, rfl⟩
      (.cons ⟨PostingList.standsAt rfl, rfl⟩ .nil)), by simp, by simp [word]⟩
  obtain ⟨phrase, made, fresh, walk⟩ := walk_takes_true_spans makes (show (0 : Int) ≤ 2 by decide)
    (Relevance.constant Score.one Score.one : Relevance Float32)
  have ran : (ofTerms boraBoraIsland 2
      (Relevance.constant Score.one Score.one : Relevance Float32)).outcome.toOption.map
        (fun phrase => (Cursor.doc (Cursor.next phrase).2, distances (phrase.watchMove Cursor.next).seen)) =
      some (3, [0, 2, 2, 0]) := by
    decide +kernel
  rw [made] at ran
  obtain ⟨landed, asked⟩ := Prod.mk.inj (Option.some.inj ran)
  exact ⟨phrase, made, landed, asked, (walk phrase .refl).1 (by rw [fresh]; decide)⟩

end SloppyPhrase

end PostingQuery
