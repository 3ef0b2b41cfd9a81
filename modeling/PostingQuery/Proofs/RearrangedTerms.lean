import Mathlib
import PostingQuery.Proofs.PhraseAgreement
import PostingQuery.Proofs.TermOrder

/-!
Sloppy phrases of the same terms in different orders. The costs of the postings and the order in which the terms are
listed decide which term leads and how the terms are numbered, and nothing else: what a walk answers stays the same,
as long as no two terms have the same place.
-/

namespace PostingQuery

open SloppyWalk (renumbered)

variable {P Q S : Type} [PostingSource P] [PostingSource Q] [Score S]

namespace SloppyPhrase

theorem measure_doc (phrase : SloppyPhrase P S) : phrase.measure.2.doc = phrase.doc := by
  dsimp only [measure]
  split
  · rfl
  · rfl
  · rfl

def EndsBlank (phrase : SloppyPhrase P S) : Prop :=
  phrase.doc = noMoreDocs → phrase.freq = Score.zero ∧ phrase.occurrences = 0

theorem settle_endsBlank (moves : Nat) (phrase : SloppyPhrase P S) (candidate : DocId) {landing : DocId}
    {after : SloppyPhrase P S} (settled : settle moves phrase candidate = (.ok landing, after)) : EndsBlank after := by
  induction moves generalizing phrase candidate with
  | zero => cases settled
  | succ moves ih =>
    rw [settle] at settled
    split at settled
    next =>
      cases settled
      exact fun _ => ⟨rfl, rfl⟩
    next live =>
      split at settled
      next => cases settled
      next =>
        split at settled
        next => cases settled
        next => exact ih _ _ settled
      next terms _ =>
        split at settled
        next => cases settled
        next freq measured same =>
          have here := measure_doc { phrase with terms, doc := candidate }
          rw [same] at here
          split at settled
          next =>
            cases settled
            exact fun ended => absurd (here.symm.trans ended) live
          next =>
            dsimp only at settled
            split at settled
            next => cases settled
            next => exact ih _ _ settled

theorem moveAndSettle_endsBlank {phrase : SloppyPhrase P S} {move : P → Step P DocId} {landing : DocId}
    {after : SloppyPhrase P S} (moved : phrase.moveAndSettle move = (.ok landing, after)) : EndsBlank after := by
  unfold moveAndSettle at moved
  split at moved
  next => cases moved
  next => exact settle_endsBlank _ _ _ moved

theorem blank_of_made {count : Nat} {terms : Fin count → PhraseTerm P} {slop : Int} {relevance : Relevance S}
    {phrase : SloppyPhrase P S} (made : (ofTerms (List.ofFn terms) slop relevance).outcome = .ok phrase) :
    phrase.freq = Score.zero ∧ phrase.occurrences = 0 := by
  obtain ⟨unrefused, nonneg⟩ := unrefused_of_made made
  obtain ⟨last, place, arranged, -, explicit⟩ := ofTerms_outcome unrefused nonneg relevance
  obtain rfl := Except.ok.inj (explicit.symm.trans made)
  exact ⟨rfl, rfl⟩

end SloppyPhrase

namespace SloppyShape

open SloppyPhrase

variable {last : Nat} {shape : SloppyShape S last} {state : SloppyPhrase P S}

structure Shows (shape : SloppyShape S last) (state : SloppyPhrase P S) : Prop where
  sound : shape.Sound state
  matched : state.doc ∈ shape.docs → state.freq = shape.freqOn state.doc ∧
    state.occurrences = shape.occurrencesOn state.doc
  blank : state.doc ∉ shape.docs → state.freq = Score.zero ∧ state.occurrences = 0

theorem shows_of_arrival {low landing : DocId} {after : SloppyPhrase P S}
    (arrival : Arrival shape.docs low landing after) (sound : shape.Sound after) (ends : EndsBlank after) :
    shape.Shows after := by
  refine ⟨sound, ?_, fun none => ends ?_⟩
  · obtain ⟨terms, doc, freq, occurrences, rfl, rests⟩ := sound
    exact fun member => ⟨rests.freq member, rests.occurrences member⟩
  · have here : after.doc = landing := arrival.1
    exact here.trans (arrival.2.place.resolve_left fun member => none (here ▸ member))

theorem Shows.after_step {after : SloppyPhrase P S} (shows : shape.Shows state) (step : LegalStep state after) :
    shape.Shows after := by
  have invariant := shape.sound_invariant (P := P)
  cases step with
  | next live =>
    obtain ⟨landing, moved, same, arrival, sound⟩ := invariant.next state shows.sound live
    have ends : EndsBlank moved := moveAndSettle_endsBlank same
    rw [same]
    exact shows_of_arrival arrival sound ends
  | advance target beyond inside =>
    obtain ⟨landing, moved, same, arrival, sound⟩ := invariant.advance state target shows.sound beyond inside
    have ends : EndsBlank moved := moveAndSettle_endsBlank same
    rw [same]
    exact shows_of_arrival arrival sound ends
  | score placed => exact shows
  | tally placed => exact shows

theorem Shows.after_walk {after : SloppyPhrase P S} (shows : shape.Shows state) (reached : Reaches state after) :
    shape.Shows after := by
  induction reached with
  | refl => exact shows
  | tail _ step ih => exact ih.after_step step

theorem Shows.same {others : Nat} {other : SloppyShape S others} {second : SloppyPhrase Q S}
    (shows : shape.Shows state) (showsOther : other.Shows second) (docs : shape.docs = other.docs)
    (matched : ∀ doc ∈ shape.docs, shape.freqOn doc = other.freqOn doc ∧
      shape.occurrencesOn doc = other.occurrencesOn doc)
    (together : state.doc = second.doc) : state.freq = second.freq ∧ state.occurrences = second.occurrences := by
  by_cases member : state.doc ∈ shape.docs
  · obtain ⟨freq, occurrences⟩ := shows.matched member
    obtain ⟨freqOther, occurrencesOther⟩ := showsOther.matched (docs ▸ together ▸ member)
    obtain ⟨sameFreq, sameOccurrences⟩ := matched _ member
    rw [freq, occurrences, freqOther, occurrencesOther, ← together, sameFreq, sameOccurrences]
    exact ⟨rfl, rfl⟩
  · obtain ⟨freq, occurrences⟩ := shows.blank member
    obtain ⟨freqOther, occurrencesOther⟩ := showsOther.blank (docs ▸ together ▸ member)
    rw [freq, occurrences, freqOther, occurrencesOther]
    exact ⟨rfl, rfl⟩

/-- The same phrase with its terms numbered in another way, no two of them at the same place. -/
structure Rearranges {last others : Nat} (number : Fin (last + 1) ≃ Fin (others + 1)) (shape : SloppyShape S last)
    (other : SloppyShape S others) : Prop where
  parts : ∀ i, other.parts (number i) = shape.parts i
  groups : other.groups = renumbered number shape.groups
  relevance : other.relevance = shape.relevance
  slop : other.slop = shape.slop
  distinct : Function.Injective fun i => (shape.parts i).position

namespace Rearranges

variable {others : Nat} {number : Fin (last + 1) ≃ Fin (others + 1)} {other : SloppyShape S others} {doc : DocId}

omit [Score S] in
theorem streams_eq (rearranges : Rearranges number shape other) (doc : DocId) :
    other.streams doc = renumber number (shape.streams doc) := by
  refine eq_renumber number _ fun i => ?_
  rw [streams_get, streams_get, rearranges.parts]

theorem matched (rearranges : Rearranges number shape other)
    (common : ∀ i, doc ∈ Posting.docs (shape.parts i).postings) :
    shape.freqOn doc = other.freqOn doc ∧ shape.occurrencesOn doc = other.occurrencesOn doc := by
  have seats : ∀ i, ((shape.streams doc).get i).offset = (shape.parts i).position := fun i => by rw [streams_get]
  have begins : ∀ i, ((shape.streams doc).get i).begin.1 = .ok () := by
    intro i
    obtain ⟨placed, same, -⟩ := begin_stream_placed (common i)
    rw [streams_get, same]
  obtain ⟨value, counted⟩ := SloppyPhrase.measure_renumber number rearranges.distinct seats begins shape.groups
    shape.relevance shape.slop doc Score.zero 0
  have after : other.phrase (other.streams doc) doc Score.zero 0 = ⟨others, renumber number (shape.streams doc),
      renumbered number shape.groups, shape.relevance, shape.slop, doc, Score.zero, 0⟩ := by
    rw [SloppyShape.phrase, rearranges.streams_eq, rearranges.groups, rearranges.relevance, rearranges.slop]
  rw [freqOn, freqOn, occurrencesOn, occurrencesOn, after, value, counted]
  exact ⟨rfl, rfl⟩

theorem docs_eq (rearranges : Rearranges number shape other) : shape.docs = other.docs := by
  ext doc
  have common : (∀ i, doc ∈ Posting.docs (other.parts i).postings) ↔
      ∀ i, doc ∈ Posting.docs (shape.parts i).postings := by
    rw [← number.forall_congr_right]
    simp only [rearranges.parts]
  rw [mem_docs, mem_docs, common]
  refine and_congr_right fun everywhere => ?_
  rw [(rearranges.matched everywhere.2).1]

end Rearranges

end SloppyShape

namespace SloppyPhrase

open PhrasePart SloppyShape

theorem ofTerms_rearranges {count : Nat} {parts : Fin count → PhrasePart} {terms : Fin count → PhraseTerm P}
    {others : Fin count → PhraseTerm Q} (order : Fin count ≃ Fin count)
    (makes : Makes (List.ofFn parts) (List.ofFn terms))
    (makesOthers : Makes (List.ofFn fun i => parts (order i)) (List.ofFn others))
    (texts : ∀ i, (others i).text = (terms (order i)).text)
    (distinct : Function.Injective fun i => (parts i).position) {slop : Int} (nonneg : 0 ≤ slop)
    (relevance : Relevance S) :
    ∃ (last lastOther : Nat) (number : Fin (last + 1) ≃ Fin (lastOther + 1)) (shape : SloppyShape S last)
      (otherShape : SloppyShape S lastOther) (phrase : SloppyPhrase P S) (other : SloppyPhrase Q S),
      (ofTerms (List.ofFn terms) slop relevance).outcome = .ok phrase ∧
      (ofTerms (List.ofFn others) slop relevance).outcome = .ok other ∧
      phrase.doc = unpositioned ∧ other.doc = unpositioned ∧ shape.Sound phrase ∧ otherShape.Sound other ∧
      Rearranges number shape otherShape := by
  obtain ⟨last, place, arranged, phrase, here, made, fresh, sound⟩ := ofTerms_places makes nonneg relevance
  obtain ⟨lastOther, placeOther, arrangedOther, other, there, madeOther, freshOther, soundOther⟩ :=
    ofTerms_places makesOthers nonneg relevance
  let number : Fin (last + 1) ≃ Fin (lastOther + 1) := place.trans (order.symm.trans placeOther.symm)
  have meets : ∀ i, placeOther (number i) = order.symm (place i) := fun i => placeOther.apply_symm_apply _
  have back : ∀ i, order (placeOther (number i)) = place i := fun i => by rw [meets, order.apply_symm_apply]
  have position : ∀ i, (arranged.get i).position = (parts (place i)).position := fun i => by
    rw [here, (makes.describes (place i)).position]
  have positionOther : ∀ i, (arrangedOther.get i).position = (parts (order (placeOther i))).position := fun i => by
    rw [there, (makesOthers.describes (placeOther i)).position]
  refine ⟨last, lastOther, number, _, _, phrase, other, made, madeOther, fresh, freshOther, sound, soundOther,
    fun i => ?_, ?_, rfl, rfl, fun i j same => place.injective (distinct same)⟩
  · exact congrArg parts (back i)
  · refine repeatGroups_renumber (fun i => ?_) (fun i j same => ?_) fun i => ?_
    · rw [there, here, texts, back]
    · exact place.injective (distinct ((position i).symm.trans (same.trans (position j))))
    · rw [positionOther, position, back]

/-- Sloppy phrases of the same terms walk in step, in whatever order the terms are listed and whatever their postings
cost: every move lands on the same document, with the same number of matches and the same frequency. No two terms may
have the same place. -/
theorem walks_in_step_with_rearranged_terms {count : Nat} {parts : Fin count → PhrasePart}
    {terms : Fin count → PhraseTerm P} {others : Fin count → PhraseTerm Q} (order : Fin count ≃ Fin count)
    (makes : Makes (List.ofFn parts) (List.ofFn terms))
    (makesOthers : Makes (List.ofFn fun i => parts (order i)) (List.ofFn others))
    (texts : ∀ i, (others i).text = (terms (order i)).text)
    (distinct : Function.Injective fun i => (parts i).position) {slop : Int} (nonneg : 0 ≤ slop)
    (relevance : Relevance S) :
    ∃ phrase other, (ofTerms (List.ofFn terms) slop relevance).outcome = .ok phrase ∧
      (ofTerms (List.ofFn others) slop relevance).outcome = .ok other ∧ Cursor.doc phrase = unpositioned ∧
      ∀ pair, Relation.ReflTransGen StepTogether (phrase, other) pair →
        Cursor.doc pair.1 = Cursor.doc pair.2 ∧
        (Cursor.doc pair.1 ≠ noMoreDocs → ∃ landing,
          (Cursor.next pair.1).1 = .ok landing ∧ (Cursor.next pair.2).1 = .ok landing) ∧
        (∀ target, Cursor.doc pair.1 < target → target ≤ noMoreDocs → ∃ landing,
          (Cursor.advance pair.1 target).1 = .ok landing ∧ (Cursor.advance pair.2 target).1 = .ok landing) ∧
        pair.1.freq = pair.2.freq ∧ pair.1.occurrences = pair.2.occurrences := by
  obtain ⟨last, lastOther, number, shape, otherShape, phrase, other, made, madeOther, fresh, freshOther, sound,
    soundOther, rearranges⟩ := ofTerms_rearranges order makes makesOthers texts distinct nonneg relevance
  have denotes := Denotes.of_invariant (shape.sound_invariant (P := P)) sound fresh
  have denotesOther := Denotes.of_invariant (otherShape.sound_invariant (P := Q)) soundOther freshOther
  have same : shape.meaning.docs = otherShape.meaning.docs := rearranges.docs_eq
  have unreal : ¬IsReal unpositioned := by decide
  have shows : shape.Shows phrase := ⟨sound, fun member => absurd (fresh ▸ real_of_mem member) unreal,
    fun _ => blank_of_made made⟩
  have showsOther : otherShape.Shows other :=
    ⟨soundOther, fun member => absurd (freshOther ▸ real_of_mem member) unreal, fun _ => blank_of_made madeOther⟩
  refine ⟨phrase, other, made, madeOther, fresh, fun pair reached => ?_⟩
  have inStep := inStep_of_denotes denotes denotesOther same reached
  have behaves := denotes.refines pair.1 inStep.first
  have behavesOther := denotesOther.refines pair.2 inStep.second
  refine ⟨inStep.doc, fun live => ?_, fun target beyond inside => ?_, ?_⟩
  · have yields := behavesOther.next (inStep.doc ▸ live)
    rw [← same, ← inStep.doc] at yields
    exact (same_landing (Meaning.real _) (behaves.next live) yields).1
  · have yields := behavesOther.advance target (inStep.doc ▸ beyond) inside
    rw [← same] at yields
    exact (same_landing (Meaning.real _) (behaves.advance target beyond inside) yields).1
  · exact (shows.after_walk inStep.first).same (showsOther.after_walk inStep.second) rearranges.docs_eq
      (fun doc member => rearranges.matched (mem_docs.mp member).1.2) inStep.doc

def inOneDocument (cost : UInt64) (positions : List Int) : Quoted PostingList :=
  ⟨.fresh [.ofPositions 0 positions], cost⟩

/-- A word, another one and the first one again, in two orders. The first of the words leads in one of them, and the
last one in the other. -/
theorem reversed_terms_match_alike :
    ∃ phrase other : SloppyPhrase (Quoted PostingList) Float32,
      (ofTerms [⟨inOneDocument 1 [0, 3, 4], 0, some "to"⟩, ⟨inOneDocument 2 [1, 5], 1, some "be"⟩,
        ⟨inOneDocument 3 [0, 3, 4], 2, some "to"⟩] 2 (.constant 1 1)).outcome = .ok phrase ∧
      (ofTerms [⟨inOneDocument 1 [0, 3, 4], 2, some "to"⟩, ⟨inOneDocument 9 [1, 5], 1, some "be"⟩,
        ⟨inOneDocument 4 [0, 3, 4], 0, some "to"⟩] 2 (.constant 1 1)).outcome = .ok other ∧
      (Cursor.next phrase).1 = .ok 0 ∧ (Cursor.next other).1 = .ok 0 ∧
      (Cursor.next phrase).2.occurrences = 2 ∧ (Cursor.next other).2.occurrences = 2 ∧
      (Cursor.next phrase).2.freq = (Cursor.next other).2.freq := by
  let part (position : Int) (positions : List Int)
      (listed : Posting.Positioned [.ofPositions 0 positions]) : PhrasePart := ⟨_, position, listed⟩
  let parts : Fin 3 → PhrasePart := ![part 0 [0, 3, 4] ⟨⟨rfl, by decide⟩, by decide⟩,
    part 1 [1, 5] ⟨⟨rfl, by decide⟩, by decide⟩, part 2 [0, 3, 4] ⟨⟨rfl, by decide⟩, by decide⟩]
  have stands : ∀ (cost : UInt64) {positions : List Int},
      PostingList.ofPostings [.ofPositions 0 positions] = .ok (.fresh [.ofPositions 0 positions]) →
      StandsAt [.ofPositions 0 positions] (inOneDocument cost positions) .unplaced :=
    fun cost _ made => Quoted.standsAt (PostingList.standsAt made) cost
  have makes : Makes (List.ofFn parts) (List.ofFn ![⟨inOneDocument 1 [0, 3, 4], 0, some "to"⟩,
      ⟨inOneDocument 2 [1, 5], 1, some "be"⟩, ⟨inOneDocument 3 [0, 3, 4], 2, some "to"⟩]) :=
    ⟨.cons ⟨stands _ rfl, rfl⟩ (.cons ⟨stands _ rfl, rfl⟩ (.cons ⟨stands _ rfl, rfl⟩ .nil)), by decide, by decide⟩
  have makesOthers : Makes (List.ofFn fun i => parts (Fin.revPerm i)) (List.ofFn
      ![⟨inOneDocument 1 [0, 3, 4], 2, some "to"⟩, ⟨inOneDocument 9 [1, 5], 1, some "be"⟩,
        ⟨inOneDocument 4 [0, 3, 4], 0, some "to"⟩]) :=
    ⟨.cons ⟨stands _ rfl, rfl⟩ (.cons ⟨stands _ rfl, rfl⟩ (.cons ⟨stands _ rfl, rfl⟩ .nil)), by decide, by decide⟩
  obtain ⟨phrase, other, made, madeOther, fresh, walk⟩ := walks_in_step_with_rearranged_terms Fin.revPerm makes
    makesOthers (by decide) (by decide) (show (0 : Int) ≤ 2 by decide) (.constant (1 : Float32) 1)
  have live : Cursor.doc phrase ≠ noMoreDocs := by
    rw [fresh]
    decide
  have landed : (Cursor.next phrase).1 = .ok 0 ∧ (Cursor.next phrase).2.occurrences = 2 := by
    cases Except.ok.inj made
    decide +kernel
  obtain ⟨landing, first, second⟩ := (walk (phrase, other) .refl).2.1 live
  obtain rfl : 0 = landing := Except.ok.inj (landed.1.symm.trans first)
  obtain ⟨-, -, -, freq, occurrences⟩ := walk _ (.single (.next phrase other live))
  exact ⟨phrase, other, made, madeOther, first, second, landed.2, occurrences.symm.trans landed.2, freq⟩

end SloppyPhrase

end PostingQuery
